import Spicule.Mqueue.Protocol

namespace Spicule.Mqueue
open Nat
open Option Function Prod

def Pc.holdsSpace : Pc → Bool
  | .sendTake _ | .sendRead _ | .sendScan _ _ _ | .sendText _ _ _ | .sendSlot _ _ _ | .sendUndo _ | .sendBack _ => true
  | _ => false

def Pc.owesItem : Pc → Bool
  | .sendCount _ | .sendGive _ | .sendPost _ => true
  | _ => false

def Edit.hasItem : Edit → Bool
  | .leave none => true
  | _ => false

def Pc.holdsItem : Pc → Bool
  | .receiveTake | .receiveRead | .receiveScan _ _ _ _ | .receiveText _ _ _ | .receiveClear _ _ _ _
  | .receiveUndo _ | .receiveBack _ => true
  | .editTake e | .editRead e | .editWrite e _ | .editGive e _ => e.hasItem
  | _ => false

def Pc.owesSpace : Pc → Bool
  | .receiveCount _ _ | .receiveGive _ | .receivePost _ => true
  | _ => false

def Pc.counting : Pc → Bool
  | .sendCount _ => true
  | _ => false

def Pc.uncounting : Pc → Bool
  | .receiveCount _ _ => true
  | _ => false

def Pc.carries : Pc → Option Entry
  | .receiveCount _ got | .receiveGive got | .receivePost got => some got
  | _ => none

theorem counting_inside {pc : Pc} (outside : pc.inside = false) : pc.counting = false ∧ pc.uncounting = false := by
  cases pc <;> first | exact ⟨rfl, rfl⟩ | exact nomatch outside

theorem holds_not_counting {pc : Pc} (holds : pc.holdsItem = true) : pc.counting = false ∧ pc.uncounting = false := by
  cases pc <;> first | exact ⟨rfl, rfl⟩ | exact nomatch holds

structure Duty where
  inside : Bool
  holdsSpace : Bool
  owesItem : Bool
  holdsItem : Bool
  owesSpace : Bool
  counting : Bool
  uncounting : Bool
  carries : Option Entry
deriving DecidableEq, Repr

def Pc.duty (pc : Pc) : Duty :=
  ⟨pc.inside, pc.holdsSpace, pc.owesItem, pc.holdsItem, pc.owesSpace, pc.counting, pc.uncounting, pc.carries⟩

def free : Duty := ⟨false, false, false, false, false, false, false, none⟩

-- A step with complete transfers, by the thread's duties before and after it.
inductive Effect (q : Queue) : Duty → Queue → Duty → Prop where
  | keep (d : Duty) : Effect q d q d
  | die {d : Duty} (outside : d.inside = false) (counted : d.counting = false) (uncounted : d.uncounting = false) :
      Effect q d q free
  | take {d : Duty} {c m : Nat} (outside : d.inside = false) (held : q.lock = some ⟨c + 1, m⟩) :
      Effect q d { q with lock := some ⟨c, m⟩ } { d with inside := true }
  | release {d : Duty} (inside : d.inside = true) (counted : d.counting = false) (uncounted : d.uncounting = false) :
      Effect q d { q with lock := give q.lock } { d with inside := false }
  | reserve {c m : Nat} (held : q.spaces = some ⟨c + 1, m⟩) :
      Effect q free { q with spaces := some ⟨c, m⟩ } { free with holdsSpace := true }
  | acquire {c m : Nat} (held : q.items = some ⟨c + 1, m⟩) :
      Effect q free { q with items := some ⟨c, m⟩ } { free with holdsItem := true }
  | postItem : Effect q { free with owesItem := true } { q with items := give q.items } free
  | returnItem : Effect q { free with holdsItem := true } { q with items := give q.items } free
  | postSpace (got : Entry) : Effect q { free with owesSpace := true, carries := some got }
      { q with spaces := give q.spaces, returned := q.returned ++ [got] } free
  | returnSpace : Effect q { free with holdsSpace := true } { q with spaces := give q.spaces } free
  | makeLock : Effect q free { q with lock := createSem q.lock 1 1 } free
  | makeItems {h : MqHeader} {items : Sem} (made : createSem q.items h.curmsgs h.maxmsg = some items)
      (same : h = q.header) : Effect q { free with inside := true } { q with items := some items } { free with inside := true }
  | makeSpaces {h : MqHeader} {spaces : Sem}
      (made : createSem q.spaces (spare h) h.maxmsg = some spaces)
      (same : h = q.header) : Effect q { free with inside := true } { q with spaces := some spaces } { free with inside := true }
  | edit {d : Duty} {h : MqHeader} (inside : d.inside = true) (counted : d.counting = false) (uncounted : d.uncounting = false)
      (alike : h.curmsgs = q.header.curmsgs ∧ h.sequence = q.header.sequence ∧ readable q h = readable q q.header) :
      Effect q d { q with header := h } d
  | text {slot : Nat} {bytes : Diff.Bytes} (unused : (q.slot slot).used = 0) :
      Effect q { free with inside := true, holdsSpace := true } { q with text := update q.text slot bytes }
        { free with inside := true, holdsSpace := true }
  | fill {m : Message} {slot : Nat} (bound : slot < q.maxmsg) (unused : (q.slot slot).used = 0)
      (fits : m.text.length ≤ q.msgsize) (written : (q.text slot).take m.text.length = m.text) :
      Effect q { free with inside := true, holdsSpace := true }
        { q with
          slot := update q.slot slot (newSlot m q.header)
          sent := q.sent ++ [m]
          tag := update q.tag slot q.sent.length }
        { free with inside := true, owesItem := true, counting := true }
  | count {h : MqHeader} (same : h = { q.header with sequence := nextSequence q.header.sequence }) :
      Effect q { free with inside := true, owesItem := true, counting := true } { q with header := countSent h }
        { free with inside := true, owesItem := true }
  | clear {best : MqSlot} {selected : Nat} {text : Diff.Bytes} (bound : selected < q.maxmsg) (used : best.used ≠ 0)
      (chosen : q.slot selected = best) (read : text = (q.text selected).take best.length)
      (first : ∀ i < q.maxmsg, (q.slot i).used ≠ 0 → (q.slot i).priority < best.priority ∨
        (q.slot i).priority = best.priority ∧ best.sequence ≤ (q.slot i).sequence) :
      Effect q { free with inside := true, holdsItem := true }
        { q with
          slot := update q.slot selected emptySlot
          delivered := q.delivered ++ [⟨⟨q.tag selected, ⟨best.priority, text⟩⟩, q.entries⟩] }
        { free with
          inside := true, owesSpace := true, uncounting := true
          carries := some ⟨q.tag selected, ⟨best.priority, text⟩⟩ }
  | uncount {h : MqHeader} {got : Entry} (same : h = q.header) :
      Effect q { free with inside := true, owesSpace := true, uncounting := true, carries := some got }
        { q with header := countReceived h } { free with inside := true, owesSpace := true, carries := some got }

def Best (q : Queue) (i : Nat) (best : MqSlot) (selected : Nat) : Prop :=
  selected = q.maxmsg ∧ (∀ j < i, (q.slot j).used = 0) ∨
    selected < i ∧ q.slot selected = best ∧ best.used ≠ 0 ∧
      ∀ j < i, (q.slot j).used ≠ 0 → (q.slot j).priority < best.priority ∨
        (q.slot j).priority = best.priority ∧ best.sequence ≤ (q.slot j).sequence

def Took (q : Queue) (got : Entry) : Prop := ∃ d ∈ q.delivered, d.entry = got

def Local (q : Queue) : Pc → Prop
  | .openItems h | .openSpaces h => h = q.header
  | .ready (.received got) => got ∈ q.returned
  | .sendProbe m _ | .sendWait m _ | .sendTake m | .sendRead m => m.text.length ≤ q.msgsize
  | .sendScan m h i => m.text.length ≤ q.msgsize ∧ h = q.header ∧ i ≤ q.maxmsg ∧ ∀ j < i, (q.slot j).used ≠ 0
  | .sendText m h slot => m.text.length ≤ q.msgsize ∧ h = q.header ∧ slot < q.maxmsg ∧ (q.slot slot).used = 0
  | .sendSlot m h slot =>
    (m.text.length ≤ q.msgsize ∧ h = q.header ∧ slot < q.maxmsg ∧ (q.slot slot).used = 0) ∧
      (q.text slot).take m.text.length = m.text
  | .sendCount h => h = { q.header with sequence := nextSequence q.header.sequence }
  | .receiveScan h i best selected => h = q.header ∧ i ≤ q.maxmsg ∧ Best q i best selected
  | .receiveText h best selected => h = q.header ∧ selected < q.maxmsg ∧ Best q q.maxmsg best selected
  | .receiveClear h best selected text =>
    (h = q.header ∧ selected < q.maxmsg ∧ Best q q.maxmsg best selected) ∧ text = (q.text selected).take best.length
  | .receiveCount h got => h = q.header ∧ Took q got
  | .receiveGive got | .receivePost got => Took q got
  | .editWrite _ h =>
    h.curmsgs = q.header.curmsgs ∧ h.sequence = q.header.sequence ∧ readable q h = readable q q.header
  | .sendUndo _ | .receiveUndo _ => False
  | _ => True

-- What the lock gives its holder: readable records, a free slot for each space taken, a
-- message for each item taken.
structure Sheltered (q : Queue) (pc : Pc) : Prop where
  readable : readable q q.header = true
  lengths : ∀ i < q.maxmsg, (q.slot i).length ≤ q.msgsize
  room : pc.holdsSpace = true → ∃ i < q.maxmsg, (q.slot i).used = 0
  stock : pc.holdsItem = true → pc.inside = true → q.header.curmsgs ≠ 0 ∧ ∃ i < q.maxmsg, (q.slot i).used ≠ 0

section
variable {q q' : Queue} {a : Answer} {pc pc' : Pc} {status : WaitStatus} {sem sem' : Option Sem}
theorem wait_cases (waited : waitOne sem status = some sem') :
    (status = .ok ∧ ∃ c m, sem = some ⟨c + 1, m⟩ ∧ sem' = some ⟨c, m⟩) ∨ (status ≠ .ok ∧ sem' = sem) := by
  cases status with
  | ok =>
    cases sem with
    | none => exact nomatch waited
    | some s =>
      simp only [waitOne] at waited
      split at waited
      · rename_i pos
        refine .inl ⟨rfl, s.count - 1, s.maximum, ?_, (some.inj waited).symm⟩
        rw [Nat.sub_add_cancel pos]
      · exact nomatch waited
  | timeout | intr | error => exact .inr ⟨nofun, (some.inj waited).symm⟩

theorem take_lock_cases {yes no : Pc} (taken : takeLock q status yes no = some (q', pc')) :
    (∃ c m, q.lock = some ⟨c + 1, m⟩ ∧ q' = { q with lock := some ⟨c, m⟩ } ∧ pc' = yes) ∨ (q' = q ∧ pc' = no) := by
  simp only [takeLock, map_eq_some_iff, mk.injEq] at taken
  obtain ⟨lock, waited, rfl, rfl⟩ := taken
  rcases wait_cases waited with ⟨ok, c, m, held, rfl⟩ | ⟨other, rfl⟩
  · exact .inl ⟨c, m, held, rfl, if_pos ok⟩
  · exact .inr ⟨rfl, if_neg other⟩

theorem probe_cases {o : Options} {yes blocked : Pc} {put : Option Sem → Queue}
    (moved : (waitOne sem a.status).map (fun left => (put left, probeNext o a yes blocked)) = some (q', pc')) :
    (∃ c m, sem = some ⟨c + 1, m⟩ ∧ q' = put (some ⟨c, m⟩) ∧ pc' = yes) ∨
      (q' = put sem ∧ (pc' = blocked ∨ ∃ e, pc' = .ready (.failed e))) := by
  simp only [map_eq_some_iff, mk.injEq] at moved
  obtain ⟨left, waited, rfl, rfl⟩ := moved
  rcases wait_cases waited with ⟨ok, c, m, held, rfl⟩ | ⟨other, rfl⟩
  · exact .inl ⟨c, m, held, rfl, by simp only [probeNext, ok]⟩
  · refine .inr ⟨rfl, ?_⟩
    unfold probeNext
    split
    · rename_i ok
      exact absurd ok other
    · exact .inr ⟨_, rfl⟩
    · repeat' split
      all_goals first | exact .inr ⟨_, rfl⟩ | exact .inl rfl

theorem wait_round_cases {o : Options} {round : Round} (waited : waitRound o a sem = some (sem', round)) :
    (∃ c m, sem = some ⟨c + 1, m⟩ ∧ sem' = some ⟨c, m⟩ ∧ round = .ends none) ∨
      (sem' = sem ∧ ((∃ e, round = .ends (some e)) ∨ round = .again)) := by
  unfold waitRound at waited
  split at waited
  · simp only [some.injEq, mk.injEq] at waited
    exact .inr ⟨waited.1.symm, .inl ⟨_, waited.2.symm⟩⟩
  · split at waited
    · simp only [some.injEq, mk.injEq] at waited
      exact .inr ⟨waited.1.symm, .inl ⟨_, waited.2.symm⟩⟩
    · simp only [map_eq_some_iff, mk.injEq] at waited
      obtain ⟨after, waited, rfl, rfl⟩ := waited
      rcases wait_cases waited with ⟨ok, c, m, held, rfl⟩ | ⟨other, rfl⟩
      · exact .inl ⟨c, m, held, rfl, by rw [ok]⟩
      · refine .inr ⟨rfl, ?_⟩
        split
        · rename_i ok
          exact absurd ok other
        · exact .inl ⟨_, rfl⟩
        · exact .inr rfl

theorem send_effect (here : Local q pc) (shelter : Sheltered q pc) (moved : sendStep q a .complete pc = some (q', pc')) :
    Effect q pc.duty q' pc'.duty ∧ Local q' pc' := by
  cases pc
  case sendProbe m o =>
    rcases probe_cases moved with ⟨c, k, held, rfl, rfl⟩ | ⟨rfl, rfl | ⟨e, rfl⟩⟩
    · exact ⟨.reserve held, here⟩
    · exact ⟨.keep _, here⟩
    · exact ⟨.keep _, trivial⟩
  case sendWait m o =>
    simp only [sendStep, map_eq_some_iff, mk.injEq, Prod.exists] at moved
    obtain ⟨spaces, round, waited, rfl, rfl⟩ := moved
    rcases wait_round_cases waited with ⟨c, k, held, rfl, rfl⟩ | ⟨rfl, ⟨e, rfl⟩ | rfl⟩
    · exact ⟨.reserve held, here⟩
    · exact ⟨.keep _, trivial⟩
    · exact ⟨.keep _, here⟩
  case sendTake m =>
    rcases take_lock_cases moved with ⟨c, k, held, rfl, rfl⟩ | ⟨rfl, rfl⟩
    · exact ⟨.take rfl held, here⟩
    · exact ⟨.keep _, trivial⟩
  case sendRead m =>
    simp only [sendStep, shelter.readable, if_true, some.injEq, mk.injEq] at moved
    obtain ⟨rfl, rfl⟩ := moved
    exact ⟨.keep _, here, rfl, zero_le _, fun j below => absurd below (not_lt_zero j)⟩
  case sendScan m h i =>
    obtain ⟨fits, same, within, full⟩ := here
    simp only [sendStep] at moved
    split at moved
    · rename_i below
      simp only [some.injEq, mk.injEq] at moved
      obtain ⟨rfl, rfl⟩ := moved
      split
      · rename_i unused
        exact ⟨.keep _, fits, same, below, unused⟩
      · rename_i used
        refine ⟨.keep _, fits, same, below, fun j bound => ?_⟩
        rcases Nat.lt_succ_iff_lt_or_eq.mp bound with earlier | rfl
        · exact full j earlier
        · exact used
    -- every slot is used, but this thread holds a space
    · rename_i past
      obtain ⟨j, below, unused⟩ := shelter.room rfl
      exact absurd unused (full j (lt_of_lt_of_le below (not_lt.mp past)))
  case sendText m h slot =>
    obtain ⟨fits, same, bound, unused⟩ := here
    cases moved
    refine ⟨.text unused, ⟨fits, same, bound, unused⟩, ?_⟩
    dsimp only
    rw [update_self, List.take_left]
  case sendSlot m h slot =>
    obtain ⟨⟨fits, rfl, bound, unused⟩, written⟩ := here
    cases moved
    exact ⟨.fill bound unused fits written, rfl⟩
  case sendCount h =>
    cases moved
    exact ⟨.count here, trivial⟩
  case sendGive notice =>
    cases moved
    exact ⟨.release rfl rfl rfl, trivial⟩
  case sendPost notice =>
    cases moved
    exact ⟨.postItem, trivial⟩
  case sendUndo e => exact here.elim
  case sendBack e =>
    cases moved
    exact ⟨.returnSpace, trivial⟩
  all_goals exact nomatch moved

theorem best_step {i selected : Nat} {best : MqSlot} (within : i < q.maxmsg) (kept : Best q i best selected) :
    if better q.maxmsg selected (q.slot i) best then Best q (i + 1) (q.slot i) i else Best q (i + 1) best selected := by
  unfold better
  rcases kept with ⟨rfl, empty⟩ | ⟨earlier, chosen, used, first⟩
  · split
    · rename_i taken
      simp only [true_or, and_true, decide_eq_true_eq] at taken
      refine .inr ⟨lt_succ_self i, rfl, taken, fun j bound busy => ?_⟩
      rcases Nat.lt_succ_iff_lt_or_eq.mp bound with before | rfl
      · exact absurd (empty j before) busy
      · exact .inr ⟨rfl, le_refl _⟩
    · rename_i passed
      simp only [true_or, and_true, decide_eq_true_eq, not_not] at passed
      refine .inl ⟨rfl, fun j bound => ?_⟩
      rcases Nat.lt_succ_iff_lt_or_eq.mp bound with before | rfl
      · exact empty j before
      · exact passed
  · have other : selected ≠ q.maxmsg := by omega
    simp only [other, false_or, decide_eq_true_eq]
    split
    · rename_i taken
      refine .inr ⟨lt_succ_self i, rfl, taken.1, fun j bound busy => ?_⟩
      rcases Nat.lt_succ_iff_lt_or_eq.mp bound with before | rfl
      · have ranked := first j before busy
        omega
      · exact .inr ⟨rfl, le_refl _⟩
    · rename_i passed
      refine .inr ⟨lt_succ_of_lt earlier, chosen, used, fun j bound busy => ?_⟩
      rcases Nat.lt_succ_iff_lt_or_eq.mp bound with before | rfl
      · exact first j before busy
      · by_contra worse
        exact passed ⟨busy, by omega⟩

theorem Best.taken {i selected : Nat} {best : MqSlot} (kept : Best q i best selected) (other : selected ≠ q.maxmsg) :
    selected < i ∧ q.slot selected = best ∧ best.used ≠ 0 ∧
      ∀ j < i, (q.slot j).used ≠ 0 → (q.slot j).priority < best.priority ∨
        (q.slot j).priority = best.priority ∧ best.sequence ≤ (q.slot j).sequence :=
  kept.resolve_left fun nothing => other nothing.1

theorem receive_effect (here : Local q pc) (shelter : Sheltered q pc)
    (moved : receiveStep q a .complete pc = some (q', pc')) : Effect q pc.duty q' pc'.duty ∧ Local q' pc' := by
  cases pc
  case receiveProbe o =>
    rcases probe_cases moved with ⟨c, k, held, rfl, rfl⟩ | ⟨rfl, rfl | ⟨e, rfl⟩⟩
    · exact ⟨.acquire held, trivial⟩
    · exact ⟨.keep _, trivial⟩
    · exact ⟨.keep _, trivial⟩
  case receiveWait o =>
    simp only [receiveStep, map_eq_some_iff, mk.injEq, Prod.exists] at moved
    obtain ⟨items, round, waited, rfl, rfl⟩ := moved
    rcases wait_round_cases waited with ⟨c, k, held, rfl, rfl⟩ | ⟨rfl, ⟨e, rfl⟩ | rfl⟩
    · exact ⟨.acquire held, trivial⟩
    · exact ⟨.keep _, trivial⟩
    · exact ⟨.keep _, trivial⟩
  case receiveTake =>
    rcases take_lock_cases moved with ⟨c, k, held, rfl, rfl⟩ | ⟨rfl, rfl⟩
    · exact ⟨.take rfl held, trivial⟩
    · exact ⟨.keep _, trivial⟩
  case receiveRead =>
    simp only [receiveStep, shelter.readable, if_true, some.injEq, mk.injEq] at moved
    obtain ⟨rfl, rfl⟩ := moved
    exact ⟨.keep _, rfl, zero_le _, .inl ⟨rfl, fun j below => absurd below (not_lt_zero j)⟩⟩
  case receiveScan h i best selected =>
    obtain ⟨rfl, within, kept⟩ := here
    simp only [receiveStep] at moved
    split at moved
    · rename_i below
      simp only [some.injEq, mk.injEq] at moved
      obtain ⟨rfl, rfl⟩ := moved
      have next := best_step below kept
      split
      · rename_i taken
        rw [if_pos taken] at next
        exact ⟨.keep _, rfl, below, next⟩
      · rename_i passed
        rw [if_neg passed] at next
        exact ⟨.keep _, rfl, below, next⟩
    · rename_i past
      have whole : i = q.maxmsg := le_antisymm within (not_lt.mp past)
      subst whole
      obtain ⟨counted, j, bound, busy⟩ := shelter.stock rfl rfl
      have other : selected ≠ q.maxmsg := by
        intro same
        rcases kept with ⟨-, empty⟩ | ⟨earlier, -⟩
        · exact busy (empty j bound)
        · omega
      obtain ⟨bound, chosen, -⟩ := kept.taken other
      have short : ¬ q.msgsize < best.length := by
        rw [← chosen]
        exact not_lt.mpr (shelter.lengths selected bound)
      rw [if_neg (not_or.mpr ⟨other, not_or.mpr ⟨counted, short⟩⟩)] at moved
      simp only [some.injEq, mk.injEq] at moved
      obtain ⟨rfl, rfl⟩ := moved
      exact ⟨.keep _, rfl, bound, kept⟩
  case receiveText h best selected =>
    cases moved
    exact ⟨.keep _, here, rfl⟩
  case receiveClear h best selected text =>
    obtain ⟨⟨rfl, bound, kept⟩, read⟩ := here
    obtain ⟨-, chosen, used, first⟩ := kept.taken (Nat.ne_of_lt bound)
    cases moved
    exact ⟨.clear bound used chosen read first, rfl, _, List.mem_append_right _ (List.mem_singleton_self _), rfl⟩
  case receiveCount h got =>
    cases moved
    exact ⟨.uncount here.1, here.2⟩
  case receiveGive got =>
    cases moved
    exact ⟨.release rfl rfl rfl, here⟩
  case receivePost got =>
    cases moved
    exact ⟨.postSpace got, List.mem_append_right _ (List.mem_singleton_self _)⟩
  case receiveUndo e => exact here.elim
  case receiveBack e =>
    cases moved
    exact ⟨.returnItem, trivial⟩
  all_goals exact nomatch moved

theorem edit_alike {e : Edit} {h h' : MqHeader} (rewritten : e.rewrite h = .ok (some h')) :
    h'.curmsgs = h.curmsgs ∧ h'.sequence = h.sequence ∧ readable q h' = readable q h := by
  cases e with
  | enroll o =>
    simp only [Edit.rewrite, Except.ok.injEq, some.injEq] at rewritten
    subst rewritten
    exact ⟨rfl, rfl, by simp only [readable]⟩
  | leave | closing =>
    simp only [Edit.rewrite, Except.ok.injEq] at rewritten
    split at rewritten
    · simp only [some.injEq] at rewritten
      subst rewritten
      exact ⟨rfl, rfl, by simp only [readable]⟩
    · exact nomatch rewritten
  | notify event pid fd =>
    cases event with
    | none =>
      simp only [Edit.rewrite, Except.ok.injEq, some.injEq] at rewritten
      subst rewritten
      split <;> exact ⟨rfl, rfl, by simp only [readable]⟩
    | some event =>
      simp only [Edit.rewrite] at rewritten
      split at rewritten
      · exact nomatch rewritten
      · simp only [Except.ok.injEq, some.injEq] at rewritten
        subst rewritten
        split <;> exact ⟨rfl, rfl, by simp only [readable]⟩
  | getattr => exact nomatch rewritten

theorem after_duty (e : Edit) (failure : Option Errno) : (e.after failure).duty = { free with holdsItem := e.hasItem } := by
  cases e with
  | enroll o => cases failure <;> rfl
  | leave outcome => cases outcome <;> rfl
  | notify | getattr => cases failure <;> rfl
  | closing pid fd => rfl

theorem after_local (e : Edit) (failure : Option Errno) : Local q (e.after failure) := by
  cases e with
  | enroll o => cases failure <;> exact trivial
  | leave outcome => cases outcome <;> exact trivial
  | notify | getattr => cases failure <;> exact trivial
  | closing pid fd => exact trivial

theorem edit_effect (here : Local q pc) (shelter : Sheltered q pc) (moved : editStep q a .complete pc = some (q', pc')) :
    Effect q pc.duty q' pc'.duty ∧ Local q' pc' := by
  cases pc
  case editTake e =>
    rcases take_lock_cases moved with ⟨c, k, held, rfl, rfl⟩ | ⟨rfl, rfl⟩
    · exact ⟨.take rfl held, trivial⟩
    · rw [after_duty]
      exact ⟨.keep _, after_local e _⟩
  case editRead e =>
    simp only [editStep, shelter.readable, if_true, some.injEq, mk.injEq] at moved
    obtain ⟨rfl, rfl⟩ := moved
    split
    · rename_i h rewritten
      exact ⟨.keep _, edit_alike rewritten⟩
    · exact ⟨.keep _, trivial⟩
    · exact ⟨.keep _, trivial⟩
  case editWrite e h =>
    cases moved
    exact ⟨.edit rfl rfl rfl here, trivial⟩
  case editGive e failure =>
    cases moved
    rw [after_duty]
    exact ⟨.release rfl rfl rfl, after_local e _⟩
  all_goals exact nomatch moved

theorem open_effect (here : Local q pc) (moved : openStep q a .complete pc = some (q', pc')) :
    Effect q pc.duty q' pc'.duty ∧ Local q' pc' := by
  cases pc
  case openLock =>
    simp only [openStep, some.injEq] at moved
    split at moved
    · cases moved
      exact ⟨.makeLock, trivial⟩
    · cases moved
      exact ⟨.keep _, trivial⟩
  case openTake =>
    rcases take_lock_cases moved with ⟨c, k, held, rfl, rfl⟩ | ⟨rfl, rfl⟩
    · exact ⟨.take rfl held, trivial⟩
    · exact ⟨.keep _, trivial⟩
  case openRead =>
    cases moved
    exact ⟨.keep _, rfl⟩
  case openItems h =>
    simp only [openStep] at moved
    split at moved
    · rename_i items made
      simp only [some.injEq] at moved
      split at moved
      · cases moved
        exact ⟨.makeItems made here, here⟩
      · cases moved
        exact ⟨.keep _, trivial⟩
    · cases moved
      exact ⟨.keep _, trivial⟩
  case openSpaces h =>
    simp only [openStep] at moved
    split at moved
    · rename_i spaces made
      simp only [some.injEq] at moved
      split at moved
      · cases moved
        exact ⟨.makeSpaces made here, trivial⟩
      · cases moved
        exact ⟨.keep _, trivial⟩
    · cases moved
      exact ⟨.keep _, trivial⟩
  case openGive | openUndo =>
    cases moved
    exact ⟨.release rfl rfl rfl, trivial⟩
  case closeSpaces | closeItems | closeLock =>
    cases moved
    exact ⟨.keep _, trivial⟩
  all_goals exact nomatch moved

theorem advance_cases (moved : advance q a pc = some (q', pc')) :
    sendStep q a (rawIo a.gots (pc.ioSize q)) pc = some (q', pc') ∨
      receiveStep q a (rawIo a.gots (pc.ioSize q)) pc = some (q', pc') ∨
      editStep q a (rawIo a.gots (pc.ioSize q)) pc = some (q', pc') ∨
      openStep q a (rawIo a.gots (pc.ioSize q)) pc = some (q', pc') := by
  simp only [advance, or_eq_some_iff] at moved
  tauto

theorem advance_effect (here : Local q pc) (shelter : Sheltered q pc) (flawless : rawIo a.gots (pc.ioSize q) = .complete)
    (moved : advance q a pc = some (q', pc')) : Effect q pc.duty q' pc'.duty ∧ Local q' pc' := by
  have cases := advance_cases moved
  rw [flawless] at cases
  rcases cases with moved | moved | moved | moved
  · exact send_effect here shelter moved
  · exact receive_effect here shelter moved
  · exact edit_effect here shelter moved
  · exact open_effect here moved

end
end Spicule.Mqueue
