import Spicule.Lib.LinkedList

namespace Spicule.Rwlock
open List Function LinkedList

-- Threads are numbered from 1: the number 0 is the null `pthread_t`.
structure RwWaiter where
  previous : Nat
  next : Nat
  semaphore : Nat
  owner : Nat
  write : Bool
  linked : Bool
  -- the call that made the record; the code does not keep it
  ticket : Nat
deriving DecidableEq

structure Hold where
  thread : Nat
  ticket : Nat
deriving DecidableEq

-- The lock with the waiter records of the heap, and the acquisitions, which the code does
-- not keep.
structure RwlockData where
  head : Nat
  tail : Nat
  writer : Nat
  readers : Nat
  waitingWriters : Nat
  pshared : Bool
  sharedState : Int
  waiter : Nat → RwWaiter
  readHolds : List Hold
  writeHolds : List Hold

def bump (counter : Nat) : Nat := if counter + 1 = 2 ^ 32 then 0 else counter + 1
def drop (counter : Nat) : Nat := if counter = 0 then 2 ^ 32 - 1 else counter - 1

def RwlockData.modify (data : RwlockData) (w : Nat) (change : RwWaiter → RwWaiter) : RwlockData :=
  { data with waiter := Function.update data.waiter w (change (data.waiter w)) }

def unlinkBefore (data : RwlockData) (w : Nat) : RwlockData :=
  if (data.waiter w).previous ≠ 0 then
    data.modify (data.waiter w).previous fun r => { r with next := (data.waiter w).next }
  else { data with head := (data.waiter w).next }

def unlinkAfter (data : RwlockData) (w : Nat) : RwlockData :=
  if (data.waiter w).next ≠ 0 then
    data.modify (data.waiter w).next fun r => { r with previous := (data.waiter w).previous }
  else { data with tail := (data.waiter w).previous }

def unlinkCount (data : RwlockData) (w : Nat) : RwlockData :=
  if (data.waiter w).write then { data with waitingWriters := drop data.waitingWriters } else data

def unlinkWaiter (data : RwlockData) (w : Nat) : RwlockData :=
  if (data.waiter w).linked then
    (unlinkCount (unlinkAfter (unlinkBefore data w) w) w).modify w fun r => { r with linked := false }
  else data

def post (data : RwlockData) (w : Nat) : RwlockData := data.modify w fun r => { r with semaphore := 1 }

structure Schedule where
  priority : Nat → Nat
  fuel : Nat

def RwlockData.queue (data : RwlockData) (fuel : Nat) : List Nat := walk (fun w => (data.waiter w).next) fuel data.head

def maxWaitingWriterPriority (s : Schedule) (data : RwlockData) : Int :=
  (data.queue s.fuel).foldl (fun max w =>
    if (data.waiter w).write ∧ max < s.priority (data.waiter w).owner then s.priority (data.waiter w).owner else max) (-1)

def Available (s : Schedule) (data : RwlockData) (self : Nat) (write : Bool) : Prop :=
  if write then data.writer = 0 ∧ data.readers = 0
  else data.writer = 0 ∧ maxWaitingWriterPriority s data < s.priority self

instance (s : Schedule) (data : RwlockData) (self : Nat) (write : Bool) : Decidable (Available s data self write) :=
  inferInstanceAs (Decidable (if write then _ else _))

def holdRead (data : RwlockData) (hold : Hold) : RwlockData :=
  { data with readers := bump data.readers, readHolds := hold :: data.readHolds }

def holdWrite (data : RwlockData) (hold : Hold) : RwlockData :=
  { data with writer := hold.thread, writeHolds := hold :: data.writeHolds }

def rwlockTryImmediate (s : Schedule) (data : RwlockData) (self : Hold) (write : Bool) : Option RwlockData :=
  if Available s data self.thread write then some (if write then holdWrite data self else holdRead data self) else none

def RwlockData.holdOf (data : RwlockData) (w : Nat) : Hold := ⟨(data.waiter w).owner, (data.waiter w).ticket⟩

def grantReader (data : RwlockData) (w : Nat) : RwlockData :=
  post (unlinkWaiter (holdRead data (data.holdOf w)) w) w

def grantWriter (data : RwlockData) (w : Nat) : RwlockData :=
  post (unlinkWaiter (holdWrite data (data.holdOf w)) w) w

def wakeReaders (s : Schedule) (maxWriter : Int) : Nat → Nat → RwlockData → RwlockData
  | 0, _, data => data
  | fuel + 1, w, data =>
    if w = 0 then data
    else
      let next := (data.waiter w).next
      if (data.waiter w).write ∨ s.priority (data.waiter w).owner ≤ maxWriter then wakeReaders s maxWriter fuel next data
      else wakeReaders s maxWriter fuel next (grantReader data w)

def bestWriter (s : Schedule) (data : RwlockData) : Nat :=
  (data.queue s.fuel).foldl (fun best w =>
    if (data.waiter w).write ∧
        (best = 0 ∨ s.priority (data.waiter best).owner < s.priority (data.waiter w).owner) then w else best) 0

def wakeWaiters (s : Schedule) (data : RwlockData) : RwlockData :=
  if data.writer ≠ 0 then data
  else
    let data := wakeReaders s (maxWaitingWriterPriority s data) s.fuel data.head data
    if data.readers ≠ 0 ∨ data.waitingWriters = 0 then data else grantWriter data (bestWriter s data)

def linkBack (data : RwlockData) (w : Nat) : RwlockData :=
  let data := data.modify w fun r => { r with previous := data.tail }
  let data :=
    if data.tail ≠ 0 then data.modify data.tail fun r => { r with next := w } else { data with head := w }
  { data with tail := w }

def linkCount (data : RwlockData) (w : Nat) : RwlockData :=
  if (data.waiter w).write then { data with waitingWriters := bump data.waitingWriters } else data

def enqueue (data : RwlockData) (w : Nat) : RwlockData :=
  linkCount ((linkBack data w).modify w fun r => { r with linked := true }) w

structure Repr (data : RwlockData) (xs : List Nat) : Prop where
  dll : Dll (fun w => (data.waiter w).next) (fun w => (data.waiter w).previous) data.head data.tail xs
  nodup : xs.Nodup
  linked : ∀ w, (data.waiter w).linked = true ↔ w ∈ xs
  writers : data.waitingWriters = (xs.countP fun w => (data.waiter w).write) % 2 ^ 32

structure Untouched (data data' : RwlockData) : Prop where
  writer : data'.writer = data.writer
  readers : data'.readers = data.readers
  pshared : data'.pshared = data.pshared
  sharedState : data'.sharedState = data.sharedState
  readHolds : data'.readHolds = data.readHolds
  writeHolds : data'.writeHolds = data.writeHolds
  owner : ∀ w, (data'.waiter w).owner = (data.waiter w).owner
  write : ∀ w, (data'.waiter w).write = (data.waiter w).write
  ticket : ∀ w, (data'.waiter w).ticket = (data.waiter w).ticket

section
variable {data : RwlockData} {xs : List Nat} {w : Nat}
theorem Repr.present (repr : Repr data xs) : ∀ x ∈ xs, x ≠ 0 := chain_present repr.dll.1

theorem unlink_before_apply (data : RwlockData) (w y : Nat) : (unlinkBefore data w).waiter y = { data.waiter y with
      next := if y = (data.waiter w).previous ∧ (data.waiter w).previous ≠ 0 then (data.waiter w).next
        else (data.waiter y).next } := by
  unfold unlinkBefore
  split
  · rename_i real
    simp only [RwlockData.modify, update_apply]
    by_cases here : y = (data.waiter w).previous
    · simp [here, real]
    · simp [here]
  · rename_i null
    simp [not_not.mp null]

theorem unlink_after_apply (data : RwlockData) (w y : Nat) : (unlinkAfter data w).waiter y = { data.waiter y with
      previous := if y = (data.waiter w).next ∧ (data.waiter w).next ≠ 0 then (data.waiter w).previous
        else (data.waiter y).previous } := by
  unfold unlinkAfter
  split
  · rename_i real
    simp only [RwlockData.modify, update_apply]
    by_cases here : y = (data.waiter w).next
    · simp [here, real]
    · simp [here]
  · rename_i null
    simp [not_not.mp null]

theorem unlink_count_apply (data : RwlockData) (w y : Nat) : (unlinkCount data w).waiter y = data.waiter y := by
  unfold unlinkCount
  split <;> rfl

section
variable (held : (data.waiter w).linked = true)
include held

theorem unlink_apply (y : Nat) : (unlinkWaiter data w).waiter y = { data.waiter y with
      next := if y = (data.waiter w).previous ∧ (data.waiter w).previous ≠ 0 then (data.waiter w).next
        else (data.waiter y).next
      previous := if y = (data.waiter w).next ∧ (data.waiter w).next ≠ 0 then (data.waiter w).previous
        else (data.waiter y).previous
      linked := if y = w then false else (data.waiter y).linked } := by
  unfold unlinkWaiter
  rw [if_pos held]
  simp only [RwlockData.modify, update_apply, unlink_count_apply, unlink_after_apply, unlink_before_apply]
  by_cases here : y = w
  · subst here
    simp
  · simp [here]

theorem unlink_head : (unlinkWaiter data w).head =
    if (data.waiter w).previous = 0 then (data.waiter w).next else data.head := by
  unfold unlinkWaiter unlinkCount unlinkAfter unlinkBefore
  rw [if_pos held]
  simp only [RwlockData.modify]
  repeat' split
  all_goals first | rfl | contradiction

theorem unlink_tail : (unlinkWaiter data w).tail =
    if (data.waiter w).next = 0 then (data.waiter w).previous else data.tail := by
  have next : ((unlinkBefore data w).waiter w).next = (data.waiter w).next := by
    rw [unlink_before_apply]
    dsimp only
    split <;> rfl
  have previous : ((unlinkBefore data w).waiter w).previous = (data.waiter w).previous := by
    rw [unlink_before_apply]
  have same : (unlinkBefore data w).tail = data.tail := by
    unfold unlinkBefore
    split <;> rfl
  unfold unlinkWaiter unlinkCount unlinkAfter
  rw [if_pos held, next, previous]
  simp only [RwlockData.modify]
  repeat' split
  all_goals first | rfl | exact same | contradiction

theorem unlink_writers : (unlinkWaiter data w).waitingWriters =
    if (data.waiter w).write then drop data.waitingWriters else data.waitingWriters := by
  have write : ((unlinkAfter (unlinkBefore data w) w).waiter w).write = (data.waiter w).write := by
    rw [unlink_after_apply, unlink_before_apply]
  have same : (unlinkAfter (unlinkBefore data w) w).waitingWriters = data.waitingWriters := by
    unfold unlinkAfter unlinkBefore
    repeat' split
    all_goals rfl
  unfold unlinkWaiter unlinkCount
  rw [if_pos held, write]
  split
  · rw [← same]
    rfl
  · exact same

end

theorem unlink_untouched (data : RwlockData) (w : Nat) : Untouched data (unlinkWaiter data w) := by
  cases held : (data.waiter w).linked with
  | false =>
    have same : unlinkWaiter data w = data := by
      unfold unlinkWaiter
      rw [if_neg (Bool.eq_false_iff.mp held)]
    rw [same]
    exact ⟨rfl, rfl, rfl, rfl, rfl, rfl, fun _ => rfl, fun _ => rfl, fun _ => rfl⟩
  | true =>
    have apply := unlink_apply held
    refine ⟨?_, ?_, ?_, ?_, ?_, ?_, fun y => by rw [apply], fun y => by rw [apply], fun y => by rw [apply]⟩
    all_goals
      unfold unlinkWaiter unlinkCount unlinkAfter unlinkBefore
      rw [if_pos held]
      simp only [RwlockData.modify]
      repeat' split
      all_goals rfl

theorem drop_mod (count : Nat) : drop ((count + 1) % 2 ^ 32) = count % 2 ^ 32 := by
  unfold drop
  split <;> omega

theorem bump_mod (count : Nat) : bump (count % 2 ^ 32) = (count + 1) % 2 ^ 32 := by
  unfold bump
  split <;> omega

theorem repr_unlink (repr : Repr data xs) (mem : w ∈ xs) : Repr (unlinkWaiter data w) (xs.erase w) := by
  have held := (repr.linked w).mpr mem
  have apply := unlink_apply held
  have present := repr.present
  obtain ⟨before, after, rfl⟩ := append_of_mem mem
  have nodup := repr.nodup
  have early : w ∉ before := by
    intro inBefore
    exact (nodup_append.mp nodup).2.2 w inBefore w mem_cons_self rfl
  have late : w ∉ after := by
    intro inAfter
    exact (nodup_cons.mp (nodup_append.mp nodup).2.1).1 inAfter
  have erased : (before ++ w :: after).erase w = before ++ after := by
    rw [erase_append_right _ early, erase_cons_head]
  have real : ∀ y ∈ before ++ after, y ≠ 0 := by
    intro y inRest
    refine present y ?_
    rcases mem_append.mp inRest with first | second
    · exact mem_append_left _ first
    · exact mem_append_right _ (mem_cons_of_mem w second)
  rw [erased]
  refine ⟨dll_remove before nodup repr.dll ?_ ?_ (unlink_head held) (unlink_tail held), ?_, fun y => ?_, ?_⟩
  · intro y inRest
    simp only [apply]
    by_cases here : y = (data.waiter w).previous
    · rw [if_pos here, if_pos ⟨here, here ▸ real y inRest⟩]
    · rw [if_neg here, if_neg fun both => here both.1]
  · intro y inRest
    simp only [apply]
    by_cases here : y = (data.waiter w).next
    · rw [if_pos here, if_pos ⟨here, here ▸ real y inRest⟩]
    · rw [if_neg here, if_neg fun both => here both.1]
  · rw [← erased]
    exact nodup.erase w
  · simp only [apply]
    by_cases here : y = w
    · subst here
      simp only [if_true, mem_append, early, late, or_self, Bool.false_eq_true]
    · rw [if_neg here, repr.linked y]
      simp only [mem_append, mem_cons, here, false_or]
  · have same : (fun y => ((unlinkWaiter data w).waiter y).write) = fun y => (data.waiter y).write := by
      funext y
      rw [apply]
    rw [unlink_writers held, same, repr.writers]
    simp only [countP_append, countP_cons]
    split
    · rw [← Nat.add_assoc, drop_mod]
    · rw [Nat.add_zero]

theorem unlink_outside (repr : Repr data xs) (mem : w ∈ xs) {y : Nat} (outside : y ∉ xs) :
    (unlinkWaiter data w).waiter y = data.waiter y := by
  have held := (repr.linked w).mpr mem
  obtain ⟨before, after, rfl⟩ := append_of_mem mem
  obtain ⟨next, previous⟩ := dll_next repr.dll
  have notNext : ¬ (y = (data.waiter w).next ∧ (data.waiter w).next ≠ 0) := by
    rintro ⟨rfl, real⟩
    rw [next] at real outside
    exact outside (mem_append_right _ (mem_cons_of_mem w (first_mem real)))
  have notPrevious : ¬ (y = (data.waiter w).previous ∧ (data.waiter w).previous ≠ 0) := by
    rintro ⟨rfl, real⟩
    rw [previous] at real outside
    exact outside (mem_append_left _ (mem_reverse.mp (first_mem real)))
  have other : y ≠ w := fun same => outside (same ▸ mem)
  rw [unlink_apply held, if_neg notNext, if_neg notPrevious, if_neg other]

theorem enqueue_apply (data : RwlockData) (w y : Nat) (other : data.tail ≠ w) : (enqueue data w).waiter y =
    { data.waiter y with
      previous := if y = w then data.tail else (data.waiter y).previous
      next := if y = data.tail ∧ data.tail ≠ 0 then w else (data.waiter y).next
      linked := if y = w then true else (data.waiter y).linked } := by
  have flip : (enqueue data w).waiter y = ((linkBack data w).modify w fun r => { r with linked := true }).waiter y := by
    unfold enqueue linkCount
    split <;> rfl
  rw [flip]
  unfold linkBack
  simp only [RwlockData.modify]
  by_cases null : data.tail = 0
  · simp only [null, ne_eq, not_true_eq_false, if_false, and_false, update_apply]
    by_cases here : y = w
    · subst here
      simp
    · simp [here]
  · simp only [null, ne_eq, not_false_eq_true, if_true, and_true, update_apply]
    by_cases here : y = w
    · subst here
      simp [Ne.symm other]
    · by_cases last : y = data.tail
      · subst last
        simp [here]
      · simp [here, last]

theorem link_count_fields (data : RwlockData) (w : Nat) : (linkCount data w).writer = data.writer ∧
    (linkCount data w).readers = data.readers ∧ (linkCount data w).pshared = data.pshared ∧
    (linkCount data w).sharedState = data.sharedState ∧ (linkCount data w).readHolds = data.readHolds ∧
    (linkCount data w).writeHolds = data.writeHolds ∧ (linkCount data w).head = data.head ∧
    (linkCount data w).tail = data.tail := by
  unfold linkCount
  split <;> exact ⟨rfl, rfl, rfl, rfl, rfl, rfl, rfl, rfl⟩

theorem link_back_fields (data : RwlockData) (w : Nat) : (linkBack data w).writer = data.writer ∧
    (linkBack data w).readers = data.readers ∧ (linkBack data w).pshared = data.pshared ∧
    (linkBack data w).sharedState = data.sharedState ∧ (linkBack data w).readHolds = data.readHolds ∧
    (linkBack data w).writeHolds = data.writeHolds ∧
    (linkBack data w).head = (if data.tail = 0 then w else data.head) ∧ (linkBack data w).tail = w ∧
    (linkBack data w).waitingWriters = data.waitingWriters := by
  unfold linkBack
  simp only [RwlockData.modify]
  by_cases null : data.tail = 0
  · rw [if_pos null]
    simp [null]
  · rw [if_neg null]
    simp [null]

theorem enqueue_untouched {data : RwlockData} {w : Nat} (other : data.tail ≠ w) : Untouched data (enqueue data w) := by
  have apply := fun y => enqueue_apply data w y other
  obtain ⟨writer, readers, pshared, sharedState, readHolds, writeHolds, -⟩ :=
    link_count_fields ((linkBack data w).modify w fun r => { r with linked := true }) w
  obtain ⟨writer', readers', pshared', sharedState', readHolds', writeHolds', -⟩ := link_back_fields data w
  exact ⟨writer.trans writer', readers.trans readers', pshared.trans pshared', sharedState.trans sharedState',
    readHolds.trans readHolds', writeHolds.trans writeHolds', fun y => by rw [apply], fun y => by rw [apply],
    fun y => by rw [apply]⟩

theorem enqueue_ends (data : RwlockData) (w : Nat) : (enqueue data w).tail = w ∧
    (enqueue data w).head = if data.tail = 0 then w else data.head := by
  obtain ⟨-, -, -, -, -, -, head, tail⟩ := link_count_fields ((linkBack data w).modify w fun r => { r with linked := true }) w
  obtain ⟨-, -, -, -, -, -, head', tail', -⟩ := link_back_fields data w
  exact ⟨tail.trans tail', head.trans head'⟩

theorem enqueue_writers {data : RwlockData} {w : Nat} (other : data.tail ≠ w) : (enqueue data w).waitingWriters =
    if (data.waiter w).write then bump data.waitingWriters else data.waitingWriters := by
  have write : (((linkBack data w).modify w fun r => { r with linked := true }).waiter w).write = (data.waiter w).write := by
    unfold linkBack
    simp only [RwlockData.modify]
    by_cases null : data.tail = 0
    · simp [null]
    · simp [null, Ne.symm other]
  have same : ((linkBack data w).modify w fun r => { r with linked := true }).waitingWriters = data.waitingWriters :=
    (link_back_fields data w).2.2.2.2.2.2.2.2
  unfold enqueue linkCount
  rw [write]
  split
  · rw [← same]
  · exact same

theorem repr_enqueue (repr : Repr data xs) (absent : w ∉ xs) (real : w ≠ 0) (ends : (data.waiter w).next = 0) :
    Repr (enqueue data w) (xs ++ [w]) := by
  have last : data.tail = firstOr xs.reverse := chain_first repr.dll.2
  have present := repr.present
  have other : data.tail ≠ w := by
    intro same
    rw [last] at same
    rcases eq_nil_or_concat xs with rfl | ⟨init, z, rfl⟩
    · exact real same.symm
    · rw [concat_eq_append, reverse_append] at same
      obtain rfl : z = w := same
      exact absent (by simp)
  have apply := fun y => enqueue_apply data w y other
  rw [concat_eq_append.symm, concat_eq_append]
  obtain ⟨tail, head⟩ := enqueue_ends data w
  refine ⟨?_, ?_, fun y => ?_, ?_⟩
  · rw [tail]
    refine dll_append repr.nodup repr.dll real (fun y mem => ?_) ?_ (fun y mem => ?_) ?_ head
    · simp only [apply]
      by_cases here : y = data.tail
      · rw [if_pos here, if_pos ⟨here, here ▸ present y mem⟩]
      · rw [if_neg here, if_neg fun both => here both.1]
    · simp only [apply]
      rw [if_neg fun both => other both.1.symm]
      exact ends
    · simp only [apply]
      rw [if_neg]
      rintro rfl
      exact absent mem
    · simp only [apply, if_true]
  · exact nodup_append.mpr ⟨repr.nodup, nodup_singleton w, fun y mem z single => by
      rw [mem_singleton.mp single]
      rintro rfl
      exact absent mem⟩
  · simp only [apply]
    by_cases here : y = w
    · subst here
      simp
    · rw [if_neg here, repr.linked y]
      simp [here]
  · have same : (fun y => ((enqueue data w).waiter y).write) = fun y => (data.waiter y).write := by
      funext y
      rw [apply]
    rw [enqueue_writers other, same, repr.writers]
    simp only [countP_append, countP_singleton]
    split
    · exact bump_mod _
    · rw [Nat.add_zero]

end

end Spicule.Rwlock
