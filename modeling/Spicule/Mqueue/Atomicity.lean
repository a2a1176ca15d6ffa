import Spicule.Mqueue.Effects

namespace Spicule.Mqueue
open Nat Option
open Option Function Prod

def Bounded (sem : Option Sem) : Prop := ∀ s, sem = some s → s.count ≤ s.maximum

structure Sane (q : Queue) : Prop where
  used : ∀ i, (q.slot i).used ≤ 1
  items : Bounded q.items
  spaces : Bounded q.spaces

section
variable {q q' : Queue} {a : Answer} {pc pc' : Pc}
theorem slot_torn_zero (old new : MqSlot) : old.torn 0 new = old := by
  simp only [MqSlot.torn, zero_sub, torn_zero (by decide : 0 < 4), torn_zero (by decide : 0 < 8)]

variable {sem : Option Sem} {status : WaitStatus} {sem' : Option Sem}
theorem bounded_wait (bounded : Bounded sem) (waited : waitOne sem status = some sem') : Bounded sem' := by
  rcases wait_cases waited with ⟨-, c, m, rfl, rfl⟩ | ⟨-, rfl⟩
  · rintro s same
    cases same
    exact le_of_succ_le (bounded ⟨c + 1, m⟩ rfl)
  · exact bounded

theorem bounded_round {o : Options} {round : Round} (bounded : Bounded sem)
    (waited : waitRound o a sem = some (sem', round)) : Bounded sem' := by
  rcases wait_round_cases waited with ⟨c, m, rfl, rfl, -⟩ | ⟨rfl, -⟩
  · rintro s same
    cases same
    exact le_of_succ_le (bounded ⟨c + 1, m⟩ rfl)
  · exact bounded

theorem bounded_give (bounded : Bounded sem) : Bounded (give sem) := by
  intro s same
  cases sem with
  | none => exact nomatch same
  | some sem =>
    cases same
    unfold Sem.post
    split
    · rename_i room
      exact room
    · exact bounded sem rfl

theorem bounded_create {made : Sem} {initial maximum : Nat} (bounded : Bounded sem)
    (created : createSem sem initial maximum = some made) : Bounded (some made) := by
  intro s same
  cases same
  cases sem with
  | some sem =>
    obtain rfl := some.inj created
    exact bounded sem rfl
  | none =>
    simp only [createSem] at created
    split at created
    · rename_i fits
      rw [← some.inj created]
      exact fits
    · exact nomatch created

theorem used_update {slot : Nat} {new : MqSlot} (used : ∀ i, (q.slot i).used ≤ 1) (bit : new.used ≤ 1) :
    ∀ i, (update q.slot slot new i).used ≤ 1 := by
  intro i
  by_cases same : i = slot
  · subst same
    rw [update_self]
    exact bit
  · rw [update_of_ne same]
    exact used i

theorem torn_used {old new : MqSlot} (moved : Nat) (oldBit : old.used ≤ 1) (newBit : new.used ≤ 1) :
    (old.torn moved new).used ≤ 1 := by
  cases moved with
  | zero =>
    rw [slot_torn_zero]
    exact oldBit
  | succ moved =>
    simp only [MqSlot.torn, torn_bit (succ_pos moved) oldBit newBit]
    exact newBit

theorem sane_still {r : Queue} {next : Pc} (same : some (r, next) = some (q', pc')) (sane : Sane r) : Sane q' := by
  cases same
  exact sane

theorem take_lock_sane {yes no : Pc} (sane : Sane q) (taken : takeLock q status yes no = some (q', pc')) :
    Sane q' := by
  rcases take_lock_cases taken with ⟨c, k, held, rfl, rfl⟩ | ⟨rfl, rfl⟩
  · exact { sane with }
  · exact sane

variable {io : Transfer}
theorem send_sane (sane : Sane q) (moved : sendStep q a io pc = some (q', pc')) : Sane q' := by
  cases pc
  case sendProbe m o =>
    simp only [sendStep, map_eq_some_iff, mk.injEq] at moved
    obtain ⟨spaces, waited, rfl, rfl⟩ := moved
    exact { sane with spaces := bounded_wait sane.spaces waited }
  case sendWait m o =>
    simp only [sendStep, map_eq_some_iff, mk.injEq, Prod.exists] at moved
    obtain ⟨spaces, round, waited, rfl, rfl⟩ := moved
    exact { sane with spaces := bounded_round sane.spaces waited }
  case sendTake m => exact take_lock_sane sane moved
  case sendSlot m h slot =>
    simp only [sendStep] at moved
    split at moved
    · exact sane_still moved { sane with used := used_update sane.used (le_refl 1) }
    · exact sane_still moved { sane with used := used_update sane.used (torn_used _ (sane.used slot) (le_refl 1)) }
  case sendPost notice => exact sane_still moved { sane with items := bounded_give sane.items }
  case sendBack e => exact sane_still moved { sane with spaces := bounded_give sane.spaces }
  all_goals
    simp only [sendStep] at moved
    repeat' split at moved
    all_goals first | exact sane_still moved { sane with } | cases moved

theorem receive_sane (sane : Sane q) (moved : receiveStep q a io pc = some (q', pc')) : Sane q' := by
  cases pc
  case receiveProbe o =>
    simp only [receiveStep, map_eq_some_iff, mk.injEq] at moved
    obtain ⟨items, waited, rfl, rfl⟩ := moved
    exact { sane with items := bounded_wait sane.items waited }
  case receiveWait o =>
    simp only [receiveStep, map_eq_some_iff, mk.injEq, Prod.exists] at moved
    obtain ⟨items, round, waited, rfl, rfl⟩ := moved
    exact { sane with items := bounded_round sane.items waited }
  case receiveTake => exact take_lock_sane sane moved
  case receiveClear h best selected text =>
    simp only [receiveStep] at moved
    split at moved
    · exact sane_still moved { sane with used := used_update sane.used (zero_le 1) }
    · exact sane_still moved { sane with used := used_update sane.used (torn_used _ (sane.used selected) (zero_le 1)) }
  case receivePost got => exact sane_still moved { sane with spaces := bounded_give sane.spaces }
  case receiveBack e => exact sane_still moved { sane with items := bounded_give sane.items }
  all_goals
    simp only [receiveStep] at moved
    repeat' split at moved
    all_goals first | exact sane_still moved { sane with } | cases moved

theorem edit_sane (sane : Sane q) (moved : editStep q a io pc = some (q', pc')) : Sane q' := by
  cases pc
  case editTake e => exact take_lock_sane sane moved
  all_goals
    simp only [editStep] at moved
    repeat' split at moved
    all_goals first | exact sane_still moved { sane with } | cases moved

theorem open_sane (sane : Sane q) (moved : openStep q a io pc = some (q', pc')) : Sane q' := by
  cases pc
  case openTake => exact take_lock_sane sane moved
  case openItems h =>
    simp only [openStep] at moved
    split at moved
    · rename_i items made
      split at moved
      · exact sane_still moved { sane with items := bounded_create sane.items made }
      · exact sane_still moved sane
    · exact sane_still moved sane
  case openSpaces h =>
    simp only [openStep] at moved
    split at moved
    · rename_i spaces made
      split at moved
      · exact sane_still moved { sane with spaces := bounded_create sane.spaces made }
      · exact sane_still moved sane
    · exact sane_still moved sane
  all_goals
    simp only [openStep] at moved
    repeat' split at moved
    all_goals first | exact sane_still moved { sane with } | cases moved

theorem act_cases {label : Label} (acted : act q pc label = some (q', pc')) :
    (∃ a, label = .go a ∧ advance q a pc = some (q', pc')) ∨ q' = q := by
  cases label with
  | go a => exact .inl ⟨a, rfl, acted⟩
  | die =>
    simp only [act] at acted
    split at acted
    · exact nomatch acted
    · exact .inr (mk.inj (some.inj acted)).1.symm
  | _ =>
    cases pc
    case closed | ready => first | exact .inr (mk.inj (some.inj acted)).1.symm | exact nomatch acted
    all_goals exact nomatch acted

theorem act_sane {label : Label} (sane : Sane q) (acted : act q pc label = some (q', pc')) : Sane q' := by
  rcases act_cases acted with ⟨a, rfl, moved⟩ | rfl
  · rcases advance_cases moved with moved | moved | moved | moved
    · exact send_sane sane moved
    · exact receive_sane sane moved
    · exact edit_sane sane moved
    · exact open_sane sane moved
  · exact sane

end

def Anything : Sys → Move → Prop := fun _ _ => True

theorem step_sane {s t : Sys} {move : Move} (sane : Sane s.queue) (stepped : step s move = some t) : Sane t.queue := by
  cases move with
  | thread i label =>
    simp only [step, bind, bind_eq_some_iff, Prod.exists, pure, some.injEq] at stepped
    obtain ⟨pc, here, q', pc', acted, rfl⟩ := stepped
    exact act_sane sane acted
  | vanish kind =>
    cases kind with
    | lock =>
      obtain ⟨-, ⟨⟩⟩ := ite_none_left_eq_some.mp stepped
      exact { sane with }
    | items =>
      obtain ⟨-, ⟨⟩⟩ := ite_none_left_eq_some.mp stepped
      exact { sane with items := nofun }
    | spaces =>
      obtain ⟨-, ⟨⟩⟩ := ite_none_left_eq_some.mp stepped
      exact { sane with spaces := nofun }

theorem reach_sane {maxmsg msgsize threads : Nat} {s : Sys} (reached : Reach Anything (create maxmsg msgsize threads) s) :
    Sane s.queue := by
  induction reached with
  | start => exact ⟨fun _ => zero_le 1, nofun, nofun⟩
  | next move _ _ stepped ih => exact step_sane ih stepped

def Queue.queuedAt (q : Queue) (i : Nat) : Option (Message × Nat) :=
  if (q.slot i).used = 0 then none else some (q.message i, (q.slot i).sequence)

structure View where
  queued : Nat → Option (Message × Nat)
  curmsgs : Nat
  items : Option Sem
  spaces : Option Sem

def view (q : Queue) : View := ⟨q.queuedAt, q.header.curmsgs, q.items, q.spaces⟩

def exec : Queue → Pc → List Answer → Option (Queue × Pc)
  | q, pc, [] => some (q, pc)
  | q, pc, a :: rest =>
    match advance q a pc with
    | some (q', pc') => exec q' pc' rest
    | none => none

def clean (a : Answer) : Pc → Bool
  | .sendSlot _ _ _ | .receiveClear _ _ _ _ =>
    match rawIo a.gots slotSize with
    | .complete => true
    | .failed moved _ => decide (moved = 0)
  | .sendCount _ | .receiveCount _ _ => decide (rawIo a.gots headerSize = .complete)
  | _ => true

def cleanRun : Queue → Pc → List Answer → Bool
  | _, _, [] => true
  | q, pc, a :: rest =>
    clean a pc && match advance q a pc with
      | some (q', pc') => cleanRun q' pc' rest
      | none => true

structure Kept (q₀ q : Queue) : Prop where
  slot : q.slot = q₀.slot
  text : ∀ i, (q₀.slot i).used ≠ 0 → q.text i = q₀.text i
  curmsgs : q.header.curmsgs = q₀.header.curmsgs

def Same (q₀ q : Queue) : Prop := Kept q₀ q ∧ q.items = q₀.items ∧ q.spaces = q₀.spaces

def SpaceLent (q₀ q : Queue) : Prop :=
  Kept q₀ q ∧ q.items = q₀.items ∧ ∃ c m, q₀.spaces = some ⟨c + 1, m⟩ ∧ q.spaces = some ⟨c, m⟩

def ItemLent (q₀ q : Queue) : Prop :=
  Kept q₀ q ∧ q.spaces = q₀.spaces ∧ ∃ c m, q₀.items = some ⟨c + 1, m⟩ ∧ q.items = some ⟨c, m⟩

def Spoiled (q₀ q : Queue) : Prop := ∃ i, q.queuedAt i ≠ q₀.queuedAt i

def Edit.Stands (q₀ q : Queue) : Edit → Prop
  | .leave none => ItemLent q₀ q
  | _ => Same q₀ q

def Track (q₀ q : Queue) : Pc → Prop
  | .sendProbe _ _ | .sendWait _ _ | .receiveProbe _ | .receiveWait _ => Same q₀ q
  | .ready (.failed _) => Same q₀ q
  | .sendTake _ | .sendRead _ | .sendScan _ _ _ | .sendUndo _ | .sendBack _ => SpaceLent q₀ q
  | .sendText _ _ slot | .sendSlot _ _ slot => SpaceLent q₀ q ∧ (q.slot slot).used = 0
  | .sendCount _ => Spoiled q₀ q
  | .receiveTake | .receiveRead | .receiveUndo _ | .receiveBack _ => ItemLent q₀ q
  | .receiveScan _ i best selected => ItemLent q₀ q ∧ i ≤ q.maxmsg ∧ Best q i best selected
  | .receiveText _ _ selected | .receiveClear _ _ selected _ => ItemLent q₀ q ∧ (q.slot selected).used ≠ 0
  | .receiveCount _ _ => Spoiled q₀ q
  | .editTake e | .editRead e | .editGive e _ => e.Stands q₀ q
  | .editWrite e h => e.Stands q₀ q ∧ h.curmsgs = q.header.curmsgs
  | _ => True

def Pc.undoing : Pc → Bool
  | .sendUndo _ | .sendBack _ | .receiveUndo _ | .receiveBack _ | .ready (.failed _) => true
  | _ => false

section
variable {q₀ q q' : Queue} {a : Answer} {pc pc' : Pc}
theorem Kept.queued (kept : Kept q₀ q) : q.queuedAt = q₀.queuedAt := by
  funext i
  simp only [Queue.queuedAt, Queue.message, kept.slot]
  split
  · rfl
  · rename_i used
    rw [kept.text i used]

theorem Same.view_eq (same : Same q₀ q) : view q = view q₀ := by
  obtain ⟨kept, items, spaces⟩ := same
  simp only [view, kept.queued, kept.curmsgs, items, spaces]

theorem Spoiled.view_ne (spoiled : Spoiled q₀ q) : view q ≠ view q₀ := by
  obtain ⟨i, differs⟩ := spoiled
  intro same
  exact differs (congrFun (congrArg View.queued same) i)

theorem SpaceLent.give_back (sane : Sane q₀) (lent : SpaceLent q₀ q) : Same q₀ { q with spaces := give q.spaces } := by
  obtain ⟨kept, items, c, m, before, now⟩ := lent
  have bound : c < m := sane.spaces _ before
  refine ⟨⟨kept.slot, kept.text, kept.curmsgs⟩, items, ?_⟩
  simp only [now, before, give, map_some, Sem.post]
  rw [if_pos bound]

theorem ItemLent.give_back (sane : Sane q₀) (lent : ItemLent q₀ q) : Same q₀ { q with items := give q.items } := by
  obtain ⟨kept, spaces, c, m, before, now⟩ := lent
  have bound : c < m := sane.items _ before
  refine ⟨⟨kept.slot, kept.text, kept.curmsgs⟩, ?_, spaces⟩
  simp only [now, before, give, map_some, Sem.post]
  rw [if_pos bound]

theorem Same.lock (same : Same q₀ q) (lock : Option Sem) : Same q₀ { q with lock := lock } :=
  ⟨⟨same.1.slot, same.1.text, same.1.curmsgs⟩, same.2⟩

theorem SpaceLent.lock (lent : SpaceLent q₀ q) (lock : Option Sem) : SpaceLent q₀ { q with lock := lock } :=
  ⟨⟨lent.1.slot, lent.1.text, lent.1.curmsgs⟩, lent.2⟩

theorem ItemLent.lock (lent : ItemLent q₀ q) (lock : Option Sem) : ItemLent q₀ { q with lock := lock } :=
  ⟨⟨lent.1.slot, lent.1.text, lent.1.curmsgs⟩, lent.2⟩

variable {slot : Nat}
theorem SpaceLent.text {bytes : Diff.Bytes} (lent : SpaceLent q₀ q) (unused : (q.slot slot).used = 0) :
    SpaceLent q₀ { q with text := update q.text slot bytes } := by
  obtain ⟨kept, rest⟩ := lent
  refine ⟨⟨kept.slot, fun i used => ?_, kept.curmsgs⟩, rest⟩
  have other : i ≠ slot := by
    rintro rfl
    rw [kept.slot] at unused
    exact used unused
  simp only [update_of_ne other]
  exact kept.text i used

variable {e : Edit}
theorem Stands.header {h : MqHeader} (stands : e.Stands q₀ q) (same : h.curmsgs = q.header.curmsgs) :
    e.Stands q₀ { q with header := h } := by
  have kept : ∀ kept : Kept q₀ q, Kept q₀ { q with header := h } :=
    fun kept => ⟨kept.slot, kept.text, same.trans kept.curmsgs⟩
  cases e with
  | leave outcome =>
    cases outcome with
    | none | some => exact ⟨kept stands.1, stands.2⟩
  | _ => exact ⟨kept stands.1, stands.2⟩

theorem Stands.lock (stands : e.Stands q₀ q) (lock : Option Sem) : e.Stands q₀ { q with lock := lock } := by
  cases e with
  | leave outcome =>
    cases outcome with
    | none => exact ItemLent.lock stands lock
    | some e => exact Same.lock stands lock
  | _ => exact Same.lock stands lock

theorem Stands.after (stands : e.Stands q₀ q) (failure : Option Errno) : Track q₀ q (e.after failure) := by
  cases e with
  | enroll o => cases failure <;> exact stands
  | leave outcome => cases outcome <;> exact stands
  | notify | getattr =>
    cases failure with
    | none => trivial
    | some e => exact stands
  | closing pid fd => trivial

theorem Same.lend_space {c m : Nat} (same : Same q₀ q) (held : q.spaces = some ⟨c + 1, m⟩) :
    SpaceLent q₀ { q with spaces := some ⟨c, m⟩ } :=
  ⟨⟨same.1.slot, same.1.text, same.1.curmsgs⟩, same.2.1, c, m, same.2.2 ▸ held, rfl⟩

theorem Same.lend_item {c m : Nat} (same : Same q₀ q) (held : q.items = some ⟨c + 1, m⟩) :
    ItemLent q₀ { q with items := some ⟨c, m⟩ } :=
  ⟨⟨same.1.slot, same.1.text, same.1.curmsgs⟩, same.2.2, c, m, same.2.1 ▸ held, rfl⟩

theorem spoiled_filled {new : MqSlot} (kept : Kept q₀ q) (unused : (q.slot slot).used = 0) (used : new.used ≠ 0)
    (same : q'.slot = update q.slot slot new) : Spoiled q₀ q' := by
  refine ⟨slot, ?_⟩
  rw [kept.slot] at unused
  rw [Queue.queuedAt, Queue.queuedAt, same, update_self, if_neg used, if_pos unused]
  exact nofun

theorem spoiled_cleared {new : MqSlot} (kept : Kept q₀ q) (used : (q.slot slot).used ≠ 0) (unused : new.used = 0)
    (same : q'.slot = update q.slot slot new) : Spoiled q₀ q' := by
  refine ⟨slot, ?_⟩
  rw [kept.slot] at used
  rw [Queue.queuedAt, Queue.queuedAt, same, update_self, if_pos unused, if_neg used]
  exact nofun

theorem clean_slot {io : Transfer} (fine : (match io with
      | .complete => true
      | .failed moved _ => decide (moved = 0)) = true) : io = .complete ∨ ∃ e, io = .failed 0 e := by
  cases io with
  | complete => exact .inl rfl
  | failed moved e =>
    obtain rfl := of_decide_eq_true fine
    exact .inr ⟨e, rfl⟩

theorem send_track (sane : Sane q₀) (track : Track q₀ q pc) (fine : clean a pc = true)
    (moved : sendStep q a (rawIo a.gots (pc.ioSize q)) pc = some (q', pc')) : Track q₀ q' pc' := by
  cases pc
  case sendProbe m o =>
    rcases probe_cases moved with ⟨c, k, held, rfl, rfl⟩ | ⟨rfl, rfl | ⟨e, rfl⟩⟩
    · exact Same.lend_space track held
    · exact track
    · exact track
  case sendWait m o =>
    simp only [sendStep, map_eq_some_iff, mk.injEq, Prod.exists] at moved
    obtain ⟨spaces, round, waited, rfl, rfl⟩ := moved
    rcases wait_round_cases waited with ⟨c, k, held, rfl, rfl⟩ | ⟨rfl, ⟨e, rfl⟩ | rfl⟩
    · exact Same.lend_space track held
    · exact track
    · exact track
  case sendTake m =>
    rcases take_lock_cases moved with ⟨c, k, held, rfl, rfl⟩ | ⟨rfl, rfl⟩
    · exact SpaceLent.lock track _
    · exact track
  case sendRead m =>
    simp only [sendStep] at moved
    split at moved
    · cases moved
      split <;> exact track
    · cases moved
      exact track
  case sendScan m h i =>
    simp only [sendStep] at moved
    split at moved
    · split at moved
      · cases moved
        split
        · rename_i unused
          exact ⟨track, unused⟩
        · exact track
      · cases moved
        exact track
    · cases moved
      exact track
  case sendText m h slot =>
    obtain ⟨lent, unused⟩ := track
    simp only [sendStep] at moved
    split at moved
    · cases moved
      exact ⟨lent.text unused, unused⟩
    · cases moved
      exact lent.text unused
  case sendSlot m h slot =>
    obtain ⟨lent, unused⟩ := track
    simp only [sendStep, Pc.ioSize] at moved
    rcases clean_slot fine with complete | ⟨e, failed⟩
    · rw [complete] at moved
      cases moved
      exact spoiled_filled lent.1 unused one_ne_zero rfl
    · rw [failed] at moved
      cases moved
      rw [slot_torn_zero, update_eq_self]
      exact lent
  case sendCount h =>
    simp only [sendStep, Pc.ioSize, of_decide_eq_true fine] at moved
    cases moved
    trivial
  case sendGive | sendPost =>
    cases moved
    trivial
  case sendUndo e =>
    cases moved
    exact SpaceLent.lock track _
  case sendBack e =>
    cases moved
    exact SpaceLent.give_back sane track
  all_goals cases moved

theorem receive_track (sane : Sane q₀) (track : Track q₀ q pc) (fine : clean a pc = true)
    (moved : receiveStep q a (rawIo a.gots (pc.ioSize q)) pc = some (q', pc')) : Track q₀ q' pc' := by
  cases pc
  case receiveProbe o =>
    rcases probe_cases moved with ⟨c, k, held, rfl, rfl⟩ | ⟨rfl, rfl | ⟨e, rfl⟩⟩
    · exact Same.lend_item track held
    · exact track
    · exact track
  case receiveWait o =>
    simp only [receiveStep, map_eq_some_iff, mk.injEq, Prod.exists] at moved
    obtain ⟨items, round, waited, rfl, rfl⟩ := moved
    rcases wait_round_cases waited with ⟨c, k, held, rfl, rfl⟩ | ⟨rfl, ⟨e, rfl⟩ | rfl⟩
    · exact Same.lend_item track held
    · exact track
    · exact track
  case receiveTake =>
    rcases take_lock_cases moved with ⟨c, k, held, rfl, rfl⟩ | ⟨rfl, rfl⟩
    · exact ItemLent.lock track _
    · exact track
  case receiveRead =>
    simp only [receiveStep] at moved
    split at moved
    · cases moved
      split
      · exact ⟨track, zero_le _, .inl ⟨rfl, fun j below => absurd below (not_lt_zero j)⟩⟩
      · exact track
    · cases moved
      exact track
  case receiveScan h i best selected =>
    obtain ⟨lent, within, kept⟩ := track
    simp only [receiveStep] at moved
    split at moved
    · rename_i below
      split at moved
      · cases moved
        have next := best_step below kept
        split
        · rename_i taken
          rw [if_pos taken] at next
          exact ⟨lent, below, next⟩
        · rename_i passed
          rw [if_neg passed] at next
          exact ⟨lent, below, next⟩
      · cases moved
        exact lent
    · cases moved
      split
      · exact lent
      · rename_i fine
        obtain ⟨-, chosen, used, -⟩ := kept.taken (not_or.mp fine).1
        exact ⟨lent, chosen ▸ used⟩
  case receiveText h best selected =>
    simp only [receiveStep] at moved
    split at moved
    · cases moved
      exact track
    · cases moved
      exact track.1
  case receiveClear h best selected text =>
    obtain ⟨lent, used⟩ := track
    simp only [receiveStep, Pc.ioSize] at moved
    rcases clean_slot fine with complete | ⟨e, failed⟩
    · rw [complete] at moved
      cases moved
      exact spoiled_cleared lent.1 used rfl rfl
    · rw [failed] at moved
      cases moved
      rw [slot_torn_zero, update_eq_self]
      exact lent
  case receiveCount h got =>
    simp only [receiveStep, Pc.ioSize, of_decide_eq_true fine] at moved
    cases moved
    trivial
  case receiveGive | receivePost =>
    cases moved
    trivial
  case receiveUndo e =>
    cases moved
    exact ItemLent.lock track _
  case receiveBack e =>
    cases moved
    exact ItemLent.give_back sane track
  all_goals cases moved

theorem edit_track (track : Track q₀ q pc) (moved : editStep q a (rawIo a.gots (pc.ioSize q)) pc = some (q', pc')) :
    Track q₀ q' pc' := by
  cases pc
  case editTake e =>
    rcases take_lock_cases moved with ⟨c, k, held, rfl, rfl⟩ | ⟨rfl, rfl⟩
    · exact Stands.lock track _
    · exact Stands.after track _
  case editRead e =>
    simp only [editStep] at moved
    split at moved
    · cases moved
      split
      · split
        · rename_i h rewritten
          exact ⟨track, (edit_alike (q := q) rewritten).1⟩
        · exact track
        · exact track
      · exact track
    · cases moved
      exact track
  case editWrite e h =>
    obtain ⟨stands, same⟩ := track
    simp only [editStep] at moved
    split at moved
    · cases moved
      exact Stands.header stands same
    · cases moved
      refine Stands.header stands ?_
      simp only [MqHeader.torn, same, torn_same]
  case editGive e failure =>
    cases moved
    exact Stands.after (Stands.lock track _) failure
  all_goals cases moved

theorem open_track (moved : openStep q a (rawIo a.gots (pc.ioSize q)) pc = some (q', pc')) : Track q₀ q' pc' := by
  have settle : ∀ {r : Queue} {next : Pc}, some (r, next) = some (q', pc') → (∀ q, Track q₀ q next) → Track q₀ q' pc' := by
    intro r next same holds
    cases same
    exact holds _
  cases pc
  case openTake => rcases take_lock_cases moved with ⟨c, k, held, rfl, rfl⟩ | ⟨rfl, rfl⟩ <;> trivial
  all_goals
    simp only [openStep] at moved
    repeat' split at moved
    all_goals first | exact settle moved fun _ => trivial | cases moved

theorem advance_track (sane : Sane q₀) (track : Track q₀ q pc) (fine : clean a pc = true)
    (moved : advance q a pc = some (q', pc')) : Track q₀ q' pc' := by
  rcases advance_cases moved with moved | moved | moved | moved
  · exact send_track sane track fine moved
  · exact receive_track sane track fine moved
  · exact edit_track track moved
  · exact open_track moved

theorem spoiled_slots (spoiled : Spoiled q₀ q) (slot : q'.slot = q.slot) (text : q'.text = q.text) : Spoiled q₀ q' := by
  obtain ⟨i, differs⟩ := spoiled
  refine ⟨i, ?_⟩
  have same : q'.queuedAt i = q.queuedAt i := by
    simp only [Queue.queuedAt, Queue.message, slot, text]
  rw [same]
  exact differs

theorem advance_spoils (sane : Sane q₀) (track : Track q₀ q pc) (dirty : clean a pc = false)
    (moved : advance q a pc = some (q', pc')) : Spoiled q₀ q' ∧ pc'.undoing = true := by
  cases pc
  case sendSlot m h slot =>
    obtain ⟨lent, unused⟩ := track
    simp only [clean] at dirty
    simp only [advance, sendStep, receiveStep, editStep, openStep, or_none, Pc.ioSize] at moved
    split at dirty
    · cases dirty
    · rename_i moved' e failed
      rw [failed] at moved
      cases moved
      refine ⟨spoiled_filled lent.1 unused ?_ rfl, rfl⟩
      have some : 0 < moved' := pos_of_ne_zero (of_decide_eq_false dirty)
      simp only [MqSlot.torn, unused, newSlot, torn_bit some (zero_le 1) (le_refl 1), ne_eq, one_ne_zero,
        not_false_eq_true]
  case sendCount h =>
    simp only [advance, sendStep, receiveStep, editStep, openStep, or_none, Pc.ioSize] at moved
    split at moved
    · rename_i complete
      exact absurd complete (of_decide_eq_false dirty)
    · cases moved
      exact ⟨spoiled_slots track rfl rfl, rfl⟩
  case receiveClear h best selected text =>
    obtain ⟨lent, used⟩ := track
    simp only [clean] at dirty
    simp only [advance, sendStep, receiveStep, editStep, openStep, none_or, or_none, Pc.ioSize] at moved
    split at dirty
    · cases dirty
    · rename_i moved' e failed
      rw [failed] at moved
      cases moved
      refine ⟨spoiled_cleared lent.1 used ?_ rfl, rfl⟩
      have some : 0 < moved' := pos_of_ne_zero (of_decide_eq_false dirty)
      have bit : (q.slot selected).used ≤ 1 := by
        rw [lent.1.slot]
        exact sane.used selected
      simp only [MqSlot.torn, emptySlot, torn_bit some bit (zero_le 1)]
  case receiveCount h got =>
    simp only [advance, sendStep, receiveStep, editStep, openStep, none_or, or_none, Pc.ioSize] at moved
    split at moved
    · rename_i complete
      exact absurd complete (of_decide_eq_false dirty)
    · cases moved
      exact ⟨spoiled_slots track rfl rfl, rfl⟩
  all_goals exact Bool.noConfusion dirty

theorem advance_undoing (spoiled : Spoiled q₀ q) (undoing : pc.undoing = true) (moved : advance q a pc = some (q', pc')) :
    Spoiled q₀ q' ∧ pc'.undoing = true := by
  cases pc
  case sendUndo | sendBack | receiveUndo | receiveBack =>
    cases moved
    exact ⟨spoiled_slots spoiled rfl rfl, rfl⟩
  case ready last => exact nomatch moved
  all_goals exact Bool.noConfusion undoing

variable {answers : List Answer}
theorem exec_undoing (spoiled : Spoiled q₀ q) (undoing : pc.undoing = true)
    (ran : exec q pc answers = some (q', pc')) : Spoiled q₀ q' := by
  induction answers generalizing q pc with
  | nil =>
    cases ran
    exact spoiled
  | cons a rest ih =>
    simp only [exec] at ran
    split at ran
    · rename_i q₁ pc₁ moved
      obtain ⟨spoiled, undoing⟩ := advance_undoing spoiled undoing moved
      exact ih spoiled undoing ran
    · exact nomatch ran

theorem exec_track (sane : Sane q₀) (track : Track q₀ q pc) (ran : exec q pc answers = some (q', pc')) :
    if cleanRun q pc answers then Track q₀ q' pc' else Spoiled q₀ q' := by
  induction answers generalizing q pc with
  | nil =>
    cases ran
    exact track
  | cons a rest ih =>
    simp only [exec] at ran
    split at ran
    · rename_i q₁ pc₁ moved
      simp only [cleanRun, moved]
      cases fine : clean a pc with
      | true => exact ih (advance_track sane track fine moved) ran
      | false =>
        obtain ⟨spoiled, undoing⟩ := advance_spoils sane track fine moved
        exact exec_undoing spoiled undoing ran
    · exact nomatch ran

end

def Label.transfers : Label → Bool
  | .send _ _ _ | .receive _ _ _ => true
  | _ => false

theorem begin_track {q q' : Queue} {last : Result} {pc : Pc} {call : Label} (transfers : call.transfers = true)
    (began : act q (.ready last) call = some (q', pc)) : Track q q' pc := by
  have same : Same q q := ⟨⟨rfl, fun _ _ => rfl, rfl⟩, rfl, rfl⟩
  cases call
  case send | receive =>
    cases began
    repeat' split
    all_goals exact same
  all_goals exact Bool.noConfusion transfers

theorem error_atomicity {maxmsg msgsize threads : Nat} {s : Sys} (reached : Reach Anything (create maxmsg msgsize threads) s)
    {last : Result} {call : Label} (transfers : call.transfers = true) {q : Queue} {pc : Pc}
    (began : act s.queue (.ready last) call = some (q, pc)) {answers : List Answer} {q' : Queue} {e : Errno}
    (returned : exec q pc answers = some (q', .ready (.failed e))) :
    view q' = view s.queue ↔ cleanRun q pc answers = true := by
  have ended := exec_track (reach_sane reached) (begin_track transfers began) returned
  cases fine : cleanRun q pc answers with
  | true =>
    rw [if_pos fine] at ended
    exact ⟨fun _ => rfl, fun _ => Same.view_eq ended⟩
  | false =>
    rw [if_neg (Bool.eq_false_iff.mp fine)] at ended
    exact ⟨fun same => absurd same ended.view_ne, fun clean => nomatch clean⟩

def opened : Sys where
  queue :=
    { (create 1 4 1).queue with
      lock := some ⟨1, 1⟩
      items := some ⟨0, 1⟩
      spaces := some ⟨1, 1⟩ }
  threads := [.ready .done]

def smooth : Answer := ⟨.ok, false, false, []⟩
def broken : Answer := ⟨.ok, false, false, [-1]⟩

theorem opened_reached : Reach Anything (create 1 4 1) opened := by
  have ran : runs (create 1 4 1) (.thread 0 .open :: List.replicate 6 (.thread 0 (.go smooth))) = some opened := rfl
  exact reach_runs (fun _ _ _ => trivial) .start ran

def note : Message := ⟨3, [104, 105]⟩

theorem send_note : act opened.queue (.ready .done) (.send false note ⟨false, none⟩) =
    some (opened.queue, .sendProbe note ⟨false, none⟩) := rfl

theorem error_atomicity_text : ∃ q', exec opened.queue (.sendProbe note ⟨false, none⟩)
      [smooth, smooth, smooth, smooth, broken, smooth, smooth] = some (q', .ready (.failed .platform)) ∧
    view q' = view opened.queue := by
  obtain ⟨q', returned⟩ : ∃ q', exec opened.queue (.sendProbe note ⟨false, none⟩)
      [smooth, smooth, smooth, smooth, broken, smooth, smooth] = some (q', .ready (.failed .platform)) := ⟨_, rfl⟩
  exact ⟨q', returned, (error_atomicity opened_reached rfl send_note returned).mpr rfl⟩

-- The slot is written, the header is not: the call fails with its message queued.
theorem header_write_fails : Reach Anything (create 1 4 1) opened ∧
    act opened.queue (.ready .done) (.send false note ⟨false, none⟩) = some (opened.queue, .sendProbe note ⟨false, none⟩) ∧
    ∃ q', exec opened.queue (.sendProbe note ⟨false, none⟩)
        [smooth, smooth, smooth, smooth, smooth, smooth, broken, smooth, smooth] = some (q', .ready (.failed .platform)) ∧
      view q' ≠ view opened.queue := by
  refine ⟨opened_reached, rfl, _, rfl, fun same => ?_⟩
  have queued := congrFun (congrArg View.queued same) 0
  exact nomatch queued

end Spicule.Mqueue
