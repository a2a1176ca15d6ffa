import Spicule.Mqueue.Invariant

namespace Spicule.Mqueue
open List Function Crowd

theorem uncounting_owes (threads : List Pc) : (tally threads).uncounting ≤ (tally threads).owesSpace := by
  simp only [tally]
  apply countP_mono_left
  intro pc mem uncounting
  cases pc <;> first | rfl | exact Bool.noConfusion uncounting

theorem stamp_order {first later : Nat} (stamps : (first + 1) % 2 ^ 64 ≤ (later + 1) % 2 ^ 64)
    (round : (later + 1) / 2 ^ 64 = (first + 1) / 2 ^ 64) : first ≤ later := by
  omega

def go : Move := .thread 0 (.go ⟨.ok, false, false, []⟩)

def patient : Options := ⟨false, none⟩

def quiet : Message := ⟨0, []⟩

def opening : List Move := .thread 0 .open :: List.replicate 6 go
def sending (m : Message) (passed : Nat) : List Move := .thread 0 (.send false m patient) :: List.replicate (9 + passed) go
def receiving : List Move := .thread 0 (.receive false 1 patient) :: List.replicate 11 go

-- `past` gives the history.
def idle (sequence : Nat) (past : Queue) (last : Result) : Sys where
  queue :=
    { past with
      maxmsg := 2, msgsize := 1
      header := ⟨mqMagic, mqVersion, 2, 1, 0, 0, sequence, 0, 0, 0, 0, 0, 0⟩
      slot := fun _ => emptySlot
      text := fun _ => [0]
      lock := some ⟨1, 1⟩
      items := some ⟨0, 2⟩
      spaces := some ⟨2, 2⟩ }
  threads := [.ready last]

theorem runs_opening : runs (create 2 1 1) opening = some (idle 1 (create 2 1 1).queue .done) := by
  rfl

def loaded (curmsgs sequence next : Nat) (past : Queue) : Sys where
  queue :=
    { past with
      maxmsg := 2, msgsize := 1
      header := ⟨mqMagic, mqVersion, 2, 1, curmsgs, 0, next, 0, 0, 0, 0, 0, 0⟩
      slot := update (fun _ => emptySlot) 0 ⟨1, 0, 0, 0, sequence⟩
      text := update (fun _ => [0]) 0 [0]
      lock := some ⟨1, 1⟩
      items := some ⟨1, 2⟩
      spaces := some ⟨1, 2⟩
      sent := past.sent ++ [quiet]
      tag := update past.tag 0 past.sent.length }
  threads := [.ready .sent]

variable {sequence : Nat} (past : Queue)
theorem runs_sending {last : Result} :
    runs (idle sequence past last) (sending quiet 0) = some (loaded 1 sequence (nextSequence sequence) past) := by
  have ran : runs (idle sequence past last) (sending quiet 0) =
      some (loaded (bump 0) sequence (nextSequence sequence) past) := rfl
  rw [ran]
  rfl

theorem runs_receiving : ∃ later last, later.sent = past.sent ++ [quiet] ∧
    runs (loaded 1 sequence (nextSequence sequence) past) receiving = some (idle (nextSequence sequence) later last) := by
  have slots : update (update (fun _ => emptySlot) 0 (⟨1, 0, 0, 0, sequence⟩ : MqSlot)) 0 emptySlot =
      fun _ => emptySlot := by
    rw [update_idem]
    exact update_eq_self 0 _
  have texts : update (fun _ : Nat => ([0] : Diff.Bytes)) 0 [0] = fun _ => [0] := update_eq_self 0 _
  let was := (loaded 1 sequence (nextSequence sequence) past).queue
  have ran : runs (loaded 1 sequence (nextSequence sequence) past) receiving =
      some ⟨{ (loaded (drop 1) sequence (nextSequence sequence) past).queue with
        slot := update (update (fun _ => emptySlot) 0 ⟨1, 0, 0, 0, sequence⟩) 0 emptySlot
        items := some ⟨0, 2⟩
        spaces := some ⟨2, 2⟩
        delivered := past.delivered ++ [⟨⟨past.sent.length, quiet⟩, was.entries⟩]
        returned := past.returned ++ [⟨past.sent.length, quiet⟩] },
        [.ready (.received ⟨past.sent.length, quiet⟩)]⟩ := rfl
  refine ⟨{ was with
    delivered := past.delivered ++ [⟨⟨past.sent.length, quiet⟩, was.entries⟩]
    returned := past.returned ++ [⟨past.sent.length, quiet⟩] }, .received ⟨past.sent.length, quiet⟩, rfl, ?_⟩
  rw [ran, slots]
  simp only [loaded, texts]
  rfl

def wrapped (curmsgs stamp next : Nat) (past : Queue) : Sys where
  queue :=
    { (loaded curmsgs stamp next past).queue with
      slot := update (update (fun _ => emptySlot) 0 ⟨1, 0, 0, 0, stamp⟩) 1 ⟨1, 0, 0, 0, 0⟩
      text := update (update (fun _ => [0]) 0 [0]) 1 [0]
      items := some ⟨2, 2⟩
      spaces := some ⟨0, 2⟩
      sent := past.sent ++ [quiet] ++ [quiet]
      tag := update (update past.tag 0 past.sent.length) 1 (past.sent ++ [quiet]).length }
  threads := [.ready .sent]

theorem runs_wrapping {stamp : Nat} : runs (loaded 1 stamp 0 past) (sending quiet 1) = some (wrapped 2 stamp 1 past) := by
  have ran : runs (loaded 1 stamp 0 past) (sending quiet 1) = some (wrapped (bump 1) stamp (nextSequence 0) past) := rfl
  rw [ran]
  rfl

theorem runs_wrapped (before : Nat) :
    ∃ s, runs (wrapped 2 (before + 1) 1 past) receiving = some s ∧ s.queue.delivered = past.delivered ++
      [⟨⟨(past.sent ++ [quiet]).length, quiet⟩, (wrapped 2 (before + 1) 1 past).queue.entries⟩] := by
  refine ⟨_, rfl, rfl⟩

def Label.plain : Label → Bool
  | .go a => a.gots.isEmpty
  | _ => true

theorem flawless_plain (s : Sys) (i : Nat) {label : Label} (plain : label.plain = true) : Flawless s (.thread i label) := by
  cases label with
  | go a =>
    intro pc found
    rw [isEmpty_iff.mp plain, rawIo]
  | _ => trivial

theorem plain_moves {label : Label} (plain : label.plain = true) (n : Nat) :
    ∀ s, ∀ move ∈ Move.thread 0 label :: List.replicate n go, Flawless s move := by
  intro s move mem
  rcases mem_cons.mp mem with rfl | mem
  · exact flawless_plain s 0 plain
  · rw [eq_of_mem_replicate mem]
    exact flawless_plain s 0 rfl

theorem idle_opened : Reach Flawless (create 2 1 1) (idle 1 (create 2 1 1).queue .done) :=
  reach_runs (plain_moves rfl 6) .start runs_opening

def loud : Message := ⟨5, [7]⟩

theorem idle_reached (n : Nat) (small : n < 2 ^ 64 - 1) : ∃ past last, past.sent.length = n ∧
    Reach Flawless (create 2 1 1) (idle (n + 1) past last) := by
  induction n with
  | zero => exact ⟨(create 2 1 1).queue, .done, rfl, idle_opened⟩
  | succ n ih =>
    obtain ⟨past, last, length, reached⟩ := ih (by omega)
    obtain ⟨later, last', sent, ran⟩ := runs_receiving past
    have next : nextSequence (n + 1) = n + 1 + 1 := if_neg (by omega)
    rw [next] at ran
    refine ⟨later, last', by rw [sent, length_append, length, length_singleton], ?_⟩
    have sentOne := reach_runs (plain_moves rfl 9) reached (runs_sending past)
    rw [next] at sentOne
    exact reach_runs (plain_moves rfl 11) sentOne ran

-- After 2^64 - 1 messages the stamp is 0 again: of two waiting messages of one priority
-- the later one is delivered first.
theorem stamp_wraps : ∃ s, Reach Flawless (create 2 1 1) s ∧ ∃ d ∈ s.queue.delivered, ∃ e ∈ d.present,
    e.message.priority = d.entry.message.priority ∧ e.tag < d.entry.tag := by
  obtain ⟨past, last, length, reached⟩ := idle_reached (2 ^ 64 - 2) (by decide)
  have first := reach_runs (plain_moves rfl 9) reached (runs_sending past)
  have zero : nextSequence (2 ^ 64 - 2 + 1) = 0 := by decide
  rw [zero] at first
  have second := reach_runs (plain_moves rfl 10) first (runs_wrapping past)
  obtain ⟨s, ran, history⟩ := runs_wrapped past (2 ^ 64 - 2)
  refine ⟨s, reach_runs (plain_moves rfl 11) second ran,
    ⟨⟨(past.sent ++ [quiet]).length, quiet⟩, (wrapped 2 (2 ^ 64 - 2 + 1) 1 past).queue.entries⟩, ?_,
    ⟨past.sent.length, quiet⟩, ?_, rfl, ?_⟩
  · rw [history]
    exact mem_append_right _ (mem_singleton_self _)
  · exact Table.mem_contents.mpr ⟨0, Nat.two_pos, rfl⟩
  · rw [length_append]
    exact Nat.lt_succ_self _

-- Between the two writes of a send the header is one message behind.
theorem uncounted_slot : ∃ s, Reach Flawless (create 2 1 1) s ∧ s.queue.header.curmsgs = 0 ∧ s.queue.used = 1 := by
  obtain ⟨s, ran⟩ : ∃ s, runs (idle 1 (create 2 1 1).queue .done)
    (.thread 0 (.send false quiet patient) :: List.replicate 6 go) = some s := ⟨_, rfl⟩
  refine ⟨s, reach_runs (plain_moves rfl 6) idle_opened ran, ?_⟩
  cases ran
  exact ⟨rfl, rfl⟩

end Spicule.Mqueue
