import Spicule.Mqueue.Effects

namespace Spicule.Mqueue
open Nat
open Option Function Crowd

def Flawless (s : Sys) : Move → Prop
  | .thread i (.go a) => ∀ pc, s.threads[i]? = some pc → rawIo a.gots (pc.ioSize s.queue) = .complete
  | _ => True

theorem act_effect {q q' : Queue} {pc pc' : Pc} {label : Label} (here : Local q pc) (shelter : Sheltered q pc)
    (flawless : ∀ a, label = .go a → rawIo a.gots (pc.ioSize q) = .complete) (acted : act q pc label = some (q', pc')) :
    Effect q pc.duty q' pc'.duty ∧ Local q' pc' := by
  cases label with
  | go a => exact advance_effect here shelter (flawless a rfl) acted
  | die =>
    simp only [act] at acted
    split at acted
    · exact nomatch acted
    · rename_i outside
      cases acted
      have outside := Bool.eq_false_iff.mpr outside
      exact ⟨.die outside (counting_inside outside).1 (counting_inside outside).2, trivial⟩
  | «open» =>
    cases pc
    case closed =>
      cases acted
      exact ⟨.keep _, trivial⟩
    all_goals exact nomatch acted
  | send readOnly m o =>
    cases pc
    case ready last =>
      cases acted
      split
      · exact ⟨.keep _, trivial⟩
      · split
        · exact ⟨.keep _, trivial⟩
        · rename_i fits
          split
          · exact ⟨.keep _, trivial⟩
          · exact ⟨.keep _, not_lt.mp fits⟩
    all_goals exact nomatch acted
  | _ =>
    cases pc
    case ready last =>
      cases acted
      repeat' split
      all_goals exact ⟨.keep _, trivial⟩
    all_goals exact nomatch acted

def level : Option Sem → Nat
  | some s => s.count
  | none => 0

def lockFree : Option Sem → Nat
  | some s => s.count
  | none => 1

structure Tally where
  inside : Nat
  holdsSpace : Nat
  owesItem : Nat
  holdsItem : Nat
  owesSpace : Nat
  counting : Nat
  uncounting : Nat

def tally (threads : List Pc) : Tally :=
  ⟨threads.countP Pc.inside, threads.countP Pc.holdsSpace, threads.countP Pc.owesItem, threads.countP Pc.holdsItem,
    threads.countP Pc.owesSpace, threads.countP Pc.counting, threads.countP Pc.uncounting⟩

structure Shifts (d d' : Duty) (t t' : Tally) : Prop where
  inside : t'.inside + flag d.inside = t.inside + flag d'.inside
  holdsSpace : t'.holdsSpace + flag d.holdsSpace = t.holdsSpace + flag d'.holdsSpace
  owesItem : t'.owesItem + flag d.owesItem = t.owesItem + flag d'.owesItem
  holdsItem : t'.holdsItem + flag d.holdsItem = t.holdsItem + flag d'.holdsItem
  owesSpace : t'.owesSpace + flag d.owesSpace = t.owesSpace + flag d'.owesSpace
  counting : t'.counting + flag d.counting = t.counting + flag d'.counting
  uncounting : t'.uncounting + flag d.uncounting = t.uncounting + flag d'.uncounting

theorem tally_set {threads : List Pc} {i : Nat} {pc pc' : Pc} (here : threads[i]? = some pc) :
    Shifts pc.duty pc'.duty (tally threads) (tally (threads.set i pc')) where
  inside := count_set Pc.inside pc' here
  holdsSpace := count_set Pc.holdsSpace pc' here
  owesItem := count_set Pc.owesItem pc' here
  holdsItem := count_set Pc.holdsItem pc' here
  owesSpace := count_set Pc.owesSpace pc' here
  counting := count_set Pc.counting pc' here
  uncounting := count_set Pc.uncounting pc' here

-- Who may be inside, and that spaces and items never promise too much. A thread that
-- dies takes its promise with it.
structure Ledger (q : Queue) (t : Tally) : Prop where
  valid : attrValid q.maxmsg q.msgsize
  readable : readable q q.header = true
  lock : lockFree q.lock + t.inside = 1
  binary : ∀ sem, q.lock = some sem → sem.maximum = 1
  spaces : level q.spaces + t.holdsSpace + q.used + t.owesSpace ≤ q.maxmsg
  items : level q.items + t.holdsItem + t.owesItem ≤ q.used
  counted : q.header.curmsgs + t.counting = q.used + t.uncounting
  lengths : ∀ i < q.maxmsg, (q.slot i).length ≤ q.msgsize
  small : q.header.sequence < 2 ^ 64
  sequence : (q.header.sequence + t.counting) % 2 ^ 64 = (q.sent.length + 1) % 2 ^ 64

theorem level_give (sem : Option Sem) : level (give sem) ≤ level sem + 1 := by
  cases sem with
  | none => exact zero_le _
  | some s =>
    simp only [give, map_some, level, Sem.post]
    split
    · exact le_refl _
    · exact le_succ _

variable {slot : Nat} {bytes : Diff.Bytes}
theorem entry_text {q : Queue} (unused : (q.slot slot).used = 0) :
    ({ q with text := update q.text slot bytes } : Queue).entry = q.entry := by
  funext i
  simp only [Queue.entry, Queue.message]
  by_cases same : i = slot
  · subst same
    rw [if_pos unused, if_pos unused]
  · rw [update_of_ne same]

theorem entries_text {q : Queue} (bytes : Diff.Bytes) (unused : (q.slot slot).used = 0) :
    ({ q with text := update q.text slot bytes } : Queue).entries = q.entries :=
  congrArg (Table.contents q.maxmsg) (entry_text unused)

def Queue.filled (q : Queue) (m : Message) (slot : Nat) : Queue :=
  { q with
    slot := update q.slot slot (newSlot m q.header)
    sent := q.sent ++ [m]
    tag := update q.tag slot q.sent.length }

theorem entries_filled {q : Queue} {m : Message} (bound : slot < q.maxmsg) (unused : (q.slot slot).used = 0)
    (written : (q.text slot).take m.text.length = m.text) :
    (q.filled m slot).entries.Perm (⟨q.sent.length, m⟩ :: q.entries) := by
  apply Table.contents_fill bound
  · exact if_pos unused
  · simp [Queue.entry, Queue.message, Queue.filled, newSlot, written]
  · intro i other
    simp [Queue.entry, Queue.message, Queue.filled, update_of_ne other]

def Queue.cleared (q : Queue) (best : MqSlot) (selected : Nat) (text : Diff.Bytes) : Queue :=
  { q with
    slot := update q.slot selected emptySlot
    delivered := q.delivered ++ [⟨⟨q.tag selected, ⟨best.priority, text⟩⟩, q.entries⟩] }

variable {text : Diff.Bytes} {selected : Nat} {best : MqSlot}
theorem entries_cleared {q : Queue} (bound : selected < q.maxmsg)
    (used : best.used ≠ 0) (chosen : q.slot selected = best) (read : text = (q.text selected).take best.length) :
    q.entries.Perm (⟨q.tag selected, ⟨best.priority, text⟩⟩ :: (q.cleared best selected text).entries) := by
  apply Table.contents_clear bound
  · subst chosen
    subst read
    exact if_neg used
  · simp [Queue.entry, Queue.cleared, emptySlot]
  · intro i other
    simp [Queue.entry, Queue.message, Queue.cleared, update_of_ne other]

section
variable {q q' : Queue} {d d' : Duty} {t t' : Tally}
theorem effect_size (effect : Effect q d q' d') : q'.maxmsg = q.maxmsg ∧ q'.msgsize = q.msgsize := by
  cases effect <;> exact ⟨rfl, rfl⟩

theorem effect_lock (effect : Effect q d q' d') (ledger : Ledger q t) (shifts : Shifts d d' t t') :
    lockFree q'.lock + t'.inside = 1 ∧ ∀ sem, q'.lock = some sem → sem.maximum = 1 := by
  have inside := shifts.inside
  have lock := ledger.lock
  have binary := ledger.binary
  cases effect with
  | @take d c m outside held =>
    rw [held] at lock binary
    simp only [outside, flag_false, flag_true, lockFree] at inside lock
    refine ⟨by simp only [lockFree]; omega, fun sem same => ?_⟩
    rw [← some.inj same]
    exact binary ⟨c + 1, m⟩ rfl
  | release held counted uncounted =>
    simp only [held, flag_false, flag_true] at inside
    cases present : q.lock with
    | none =>
      rw [present] at lock
      simp only [lockFree] at lock
      omega
    | some sem =>
      rw [present] at lock
      simp only [lockFree] at lock
      have maximum := binary sem present
      have posted : sem.post = ⟨1, 1⟩ := by
        rw [Sem.post, if_pos (by omega), maximum, show sem.count = 0 by omega]
      simp only [give, map_some, posted, lockFree, some.injEq]
      exact ⟨by omega, fun other same => by rw [← same]⟩
  | makeLock =>
    cases present : q.lock with
    | none =>
      rw [present] at lock
      simp only [createSem, le_refl, if_true, lockFree, some.injEq] at lock ⊢
      exact ⟨by omega, fun other same => by rw [← same]⟩
    | some sem =>
      rw [present] at lock
      simp only [createSem, lockFree, some.injEq] at lock ⊢
      refine ⟨by omega, fun other same => ?_⟩
      rw [← same]
      exact binary sem present
  | die outside =>
    rw [outside] at inside
    exact ⟨add_right_cancel inside ▸ lock, binary⟩
  | _ => exact ⟨add_right_cancel inside ▸ lock, binary⟩

theorem used_filled {m : Message} (bound : slot < q.maxmsg) (unused : (q.slot slot).used = 0)
    (written : (q.text slot).take m.text.length = m.text) : (q.filled m slot).used = q.used + 1 :=
  (entries_filled bound unused written).length_eq

theorem used_cleared (bound : selected < q.maxmsg)
    (used : best.used ≠ 0) (chosen : q.slot selected = best) (read : text = (q.text selected).take best.length) :
    q.used = (q.cleared best selected text).used + 1 :=
  (entries_cleared bound used chosen read).length_eq

theorem used_text (unused : (q.slot slot).used = 0) :
    ({ q with text := update q.text slot bytes } : Queue).used = q.used :=
  congrArg List.length (entries_text bytes unused)

theorem used_lock (lock : Option Sem) : ({ q with lock := lock } : Queue).used = q.used := rfl

theorem used_items (items : Option Sem) : ({ q with items := items } : Queue).used = q.used := rfl

theorem used_spaces (spaces : Option Sem) : ({ q with spaces := spaces } : Queue).used = q.used := rfl

theorem used_posted (spaces : Option Sem) (returned : List Entry) :
    ({ q with spaces, returned } : Queue).used = q.used := rfl

theorem used_header (h : MqHeader) : ({ q with header := h } : Queue).used = q.used := rfl

theorem Ledger.header_maxmsg (ledger : Ledger q t) : q.header.maxmsg = q.maxmsg := by
  have fields := ledger.readable
  simp only [Mqueue.readable, decide_eq_true_eq] at fields
  exact fields.2.2.1

theorem spare_eq {h : MqHeader} (large : h.curmsgs ≤ h.maxmsg) : spare h = h.maxmsg - h.curmsgs := if_pos large

theorem create_cases {sem : Option Sem} {made : Sem} {initial maximum : Nat} (created : createSem sem initial maximum = some made) :
    sem = some made ∨ sem = none ∧ made.count = initial := by
  cases sem with
  | some sem => exact .inl created
  | none => exact .inr ⟨rfl, by rw [← (Option.ite_some_none_eq_some.mp created).2]⟩

theorem bump_small {counter : Nat} (small : counter < 256) : bump counter = counter + 1 := by
  unfold bump
  split <;> omega

theorem drop_small {counter : Nat} (pos : 0 < counter) (small : counter ≤ 256) : drop counter = counter - 1 := by
  unfold drop
  split <;> omega

section
variable (effect : Effect q d q' d') (ledger : Ledger q t)
include effect ledger

-- The counter is off only while one thread is between its two writes, and by one.
theorem effect_books (shifts : Shifts d d' t t')
    (alone : d.inside = true → d.counting = false → d.uncounting = false → t.counting = 0 ∧ t.uncounting = 0)
    (window : t.counting + t.uncounting ≤ t.inside) (mem : flag d.owesSpace ≤ t.owesSpace)
    (noItems : q.items = none → t.holdsItem = 0 ∧ t.owesItem = 0)
    (noSpaces : q.spaces = none → t.holdsSpace = 0 ∧ t.owesSpace = 0) :
    level q'.spaces + t'.holdsSpace + q'.used + t'.owesSpace ≤ q'.maxmsg ∧
      level q'.items + t'.holdsItem + t'.owesItem ≤ q'.used ∧
      q'.header.curmsgs + t'.counting = q'.used + t'.uncounting := by
  obtain ⟨-, holdsSpace, owesItem, holdsItem, owesSpace, counting, uncounting⟩ := shifts
  have header := ledger.header_maxmsg
  obtain ⟨valid, -, lock, -, spaces, items, counted, -, -, -⟩ := ledger
  have limit : q.maxmsg ≤ 256 := valid.2.1
  have space := level_give q.spaces
  have item := level_give q.items
  cases effect with
  | reserve held =>
    rw [held] at spaces
    simp only [free, flag_false, flag_true, level, used_spaces] at *
    omega
  | acquire held =>
    rw [held] at items
    simp only [free, flag_false, flag_true, level, used_items] at *
    omega
  | @makeItems h sem made same =>
    subst same
    have settled := alone rfl rfl rfl
    simp only [used_items] at *
    rcases create_cases made with present | ⟨absent, count⟩
    · rw [present] at items
      omega
    · have nobody := noItems absent
      have new : level (some sem) = q.header.curmsgs := count
      omega
  | @makeSpaces h sem made same =>
    subst same
    have settled := alone rfl rfl rfl
    simp only [used_spaces] at *
    rcases create_cases made with present | ⟨absent, count⟩
    · rw [present] at spaces
      omega
    · have nobody := noSpaces absent
      have new : level (some sem) = q.header.maxmsg - q.header.curmsgs := count.trans (spare_eq (by omega))
      omega
  | text unused =>
    simp only [used_text unused] at *
    omega
  | @fill m slot bound unused fits written =>
    have more := used_filled bound unused written
    simp only [free, flag_false, flag_true, Queue.filled] at *
    omega
  | @clear best selected text bound used chosen read first =>
    have fewer := used_cleared bound used chosen read
    simp only [free, flag_false, flag_true, Queue.cleared] at *
    omega
  | postItem | returnItem =>
    simp only [free, flag_false, flag_true, used_items] at *
    omega
  | postSpace got =>
    simp only [free, flag_false, flag_true, used_posted] at *
    omega
  | returnSpace =>
    simp only [free, flag_false, flag_true, used_spaces] at *
    omega
  | die outside notCounting notUncounting =>
    simp only [free, flag_false, notCounting, notUncounting] at *
    omega
  | edit inside notCounting notUncounting alike =>
    simp only [used_header, alike.1]
    omega
  | count same =>
    subst same
    simp only [free, flag_false, flag_true, used_header, countSent] at *
    rw [bump_small (by omega)]
    omega
  | uncount same =>
    subst same
    simp only [free, flag_false, flag_true, used_header, countReceived] at *
    rw [drop_small (by omega) (by omega)]
    omega
  | keep =>
    omega
  | take | release | makeLock =>
    simp only [used_lock] at *
    omega

theorem effect_sequence (shifts : Shifts d d' t t') :
    q'.header.sequence < 2 ^ 64 ∧ (q'.header.sequence + t'.counting) % 2 ^ 64 = (q'.sent.length + 1) % 2 ^ 64 := by
  have counting := shifts.counting
  have small := ledger.small
  have sequence := ledger.sequence
  cases effect with
  | die outside counted uncounted =>
    rw [counted] at counting
    exact ⟨small, add_right_cancel counting ▸ sequence⟩
  | edit inside counted uncounted alike =>
    rw [add_right_cancel counting]
    simp only [alike.2.1]
    exact ⟨small, sequence⟩
  | fill bound unused fits written =>
    simp only [free, flag_false, flag_true, List.length_append, List.length_singleton] at counting ⊢
    omega
  | count same =>
    subst same
    simp only [free, flag_false, flag_true, countSent, nextSequence] at counting ⊢
    split <;> omega
  | uncount same =>
    subst same
    exact ⟨small, add_right_cancel counting ▸ sequence⟩
  | _ => exact ⟨small, add_right_cancel counting ▸ sequence⟩

theorem effect_records : readable q' q'.header = true ∧ ∀ i < q'.maxmsg, (q'.slot i).length ≤ q'.msgsize := by
  cases effect with
  | edit inside counted uncounted alike => exact ⟨alike.2.2.trans ledger.readable, ledger.lengths⟩
  | @fill m slot bound unused fits written =>
    refine ⟨ledger.readable, fun i below => ?_⟩
    by_cases same : i = slot
    · subst same
      simp only [update_self, newSlot]
      exact fits
    · simp only [update_of_ne same]
      exact ledger.lengths i below
  | count same =>
    subst same
    exact ⟨ledger.readable, ledger.lengths⟩
  | @clear best selected text bound used chosen read first =>
    refine ⟨ledger.readable, fun i below => ?_⟩
    by_cases same : i = selected
    · subst same
      simp only [update_self]
      exact zero_le _
    · simp only [update_of_ne same]
      exact ledger.lengths i below
  | uncount same =>
    subst same
    exact ⟨ledger.readable, ledger.lengths⟩
  | _ => exact ⟨ledger.readable, ledger.lengths⟩

theorem effect_ledger (shifts : Shifts d d' t t')
    (alone : d.inside = true → d.counting = false → d.uncounting = false → t.counting = 0 ∧ t.uncounting = 0)
    (window : t.counting + t.uncounting ≤ t.inside) (mem : flag d.owesSpace ≤ t.owesSpace)
    (noItems : q.items = none → t.holdsItem = 0 ∧ t.owesItem = 0)
    (noSpaces : q.spaces = none → t.holdsSpace = 0 ∧ t.owesSpace = 0) : Ledger q' t' where
  valid := by
    rw [(effect_size effect).1, (effect_size effect).2]
    exact ledger.valid
  readable := (effect_records effect ledger).1
  lock := (effect_lock effect ledger shifts).1
  binary := (effect_lock effect ledger shifts).2
  spaces := (effect_books effect ledger shifts alone window mem noItems noSpaces).1
  items := (effect_books effect ledger shifts alone window mem noItems noSpaces).2.1
  counted := (effect_books effect ledger shifts alone window mem noItems noSpaces).2.2
  lengths := (effect_records effect ledger).2
  small := (effect_sequence effect ledger shifts).1
  sequence := (effect_sequence effect ledger shifts).2

end
end
end Spicule.Mqueue
