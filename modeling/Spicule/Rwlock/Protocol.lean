import Spicule.Rwlock.Queue

namespace Spicule.Rwlock
open List LinkedList

inductive Grants : RwlockData → List Nat → RwlockData → List Nat → Prop where
  | done (data : RwlockData) (xs : List Nat) : Grants data xs data xs
  | read {data data' : RwlockData} {xs xs' : List Nat} {w : Nat} (mem : w ∈ xs)
      (reader : (data.waiter w).write = false) (unheld : data.writer = 0)
      (rest : Grants (grantReader data w) (xs.erase w) data' xs') : Grants data xs data' xs'
  | write {data data' : RwlockData} {xs xs' : List Nat} {w : Nat} (mem : w ∈ xs)
      (writer : (data.waiter w).write = true) (unheld : data.writer = 0) (unread : data.readers = 0)
      (rest : Grants (grantWriter data w) (xs.erase w) data' xs') : Grants data xs data' xs'

section
variable {data data' : RwlockData} {xs xs' : List Nat} {w : Nat} {s : Schedule}
theorem Grants.trans {data'' : RwlockData} {xs'' : List Nat} (first : Grants data xs data' xs')
    (second : Grants data' xs' data'' xs'') : Grants data xs data'' xs'' := by
  induction first with
  | done => exact second
  | read mem reader unheld _ ih => exact .read mem reader unheld (ih second)
  | write mem writer unheld unread _ ih => exact .write mem writer unheld unread (ih second)

theorem repr_congr (repr : Repr data xs) (head : data'.head = data.head) (tail : data'.tail = data.tail)
    (writers : data'.waitingWriters = data.waitingWriters)
    (same : ∀ w, (data'.waiter w).next = (data.waiter w).next ∧ (data'.waiter w).previous = (data.waiter w).previous ∧
      (data'.waiter w).linked = (data.waiter w).linked ∧ (data'.waiter w).write = (data.waiter w).write) :
    Repr data' xs := by
  have nexts : (fun w => (data'.waiter w).next) = fun w => (data.waiter w).next := funext fun w => (same w).1
  have previouses : (fun w => (data'.waiter w).previous) = fun w => (data.waiter w).previous := funext fun w => (same w).2.1
  have writes : (fun w => (data'.waiter w).write) = fun w => (data.waiter w).write := funext fun w => (same w).2.2.2
  refine ⟨?_, repr.nodup, fun w => ?_, ?_⟩
  · rw [nexts, previouses, head, tail]
    exact repr.dll
  · rw [(same w).2.2.1]
    exact repr.linked w
  · rw [writers, writes]
    exact repr.writers

theorem post_apply (data : RwlockData) (w y : Nat) : (post data w).waiter y =
    { data.waiter y with semaphore := if y = w then 1 else (data.waiter y).semaphore } := by
  simp only [post, RwlockData.modify, Function.update_apply]
  by_cases here : y = w
  · subst here
    simp
  · simp [here]

theorem repr_post (repr : Repr data xs) (w : Nat) : Repr (post data w) xs := by
  refine repr_congr repr rfl rfl rfl fun y => ?_
  rw [post_apply]
  exact ⟨rfl, rfl, rfl, rfl⟩

theorem repr_hold_read (repr : Repr data xs) (hold : Hold) : Repr (holdRead data hold) xs :=
  repr_congr repr rfl rfl rfl fun _ => ⟨rfl, rfl, rfl, rfl⟩

theorem repr_hold_write (repr : Repr data xs) (hold : Hold) : Repr (holdWrite data hold) xs :=
  repr_congr repr rfl rfl rfl fun _ => ⟨rfl, rfl, rfl, rfl⟩

structure Granted (data : RwlockData) (xs : List Nat) (w : Nat) (data' : RwlockData) : Prop where
  repr : Repr data' (xs.erase w)
  owner : ∀ y, (data'.waiter y).owner = (data.waiter y).owner
  write : ∀ y, (data'.waiter y).write = (data.waiter y).write
  ticket : ∀ y, (data'.waiter y).ticket = (data.waiter y).ticket
  semaphore : ∀ y, (data'.waiter y).semaphore = if y = w then 1 else (data.waiter y).semaphore
  outside : ∀ y, y ∉ xs → data'.waiter y = data.waiter y
  pshared : data'.pshared = data.pshared

theorem unlinked_granted {held : RwlockData} (waiter : held.waiter = data.waiter) (pshared : held.pshared = data.pshared)
    (repr : Repr held xs) (mem : w ∈ xs) : Granted data xs w (post (unlinkWaiter held w) w) := by
  have record := unlink_apply ((repr.linked w).mpr mem)
  refine ⟨repr_post (repr_unlink repr mem) w, fun y => ?_, fun y => ?_, fun y => ?_, fun y => ?_, fun y outside => ?_,
    (unlink_untouched held w).pshared.trans pshared⟩
  · rw [post_apply, record, ← waiter]
  · rw [post_apply, record, ← waiter]
  · rw [post_apply, record, ← waiter]
  · rw [post_apply, record, ← waiter]
  · have other : y ≠ w := fun same => outside (same ▸ mem)
    rw [post_apply, unlink_outside repr mem outside, if_neg other, waiter]

theorem reader_granted (repr : Repr data xs) (mem : w ∈ xs) : Granted data xs w (grantReader data w) :=
  unlinked_granted rfl rfl (repr_hold_read repr _) mem

theorem writer_granted (repr : Repr data xs) (mem : w ∈ xs) : Granted data xs w (grantWriter data w) :=
  unlinked_granted rfl rfl (repr_hold_write repr _) mem

theorem repr_grants (grants : Grants data xs data' xs') (repr : Repr data xs) : Repr data' xs' := by
  induction grants with
  | done => exact repr
  | read mem _ _ _ ih => exact ih (reader_granted repr mem).repr
  | write mem _ _ _ _ ih => exact ih (writer_granted repr mem).repr

theorem grant_reader_fields (data : RwlockData) (w : Nat) : (grantReader data w).writer = data.writer ∧
    (grantReader data w).readHolds = data.holdOf w :: data.readHolds ∧ (grantReader data w).writeHolds = data.writeHolds := by
  have same := unlink_untouched (holdRead data (data.holdOf w)) w
  exact ⟨same.writer, same.readHolds, same.writeHolds⟩

theorem grant_writer_fields (data : RwlockData) (w : Nat) : (grantWriter data w).writer = (data.waiter w).owner ∧
    (grantWriter data w).readHolds = data.readHolds ∧ (grantWriter data w).writeHolds = data.holdOf w :: data.writeHolds := by
  have same := unlink_untouched (holdWrite data (data.holdOf w)) w
  exact ⟨same.writer, same.readHolds, same.writeHolds⟩

def stays (s : Schedule) (maxWriter : Int) (data : RwlockData) (w : Nat) : Bool :=
  (data.waiter w).write ∨ s.priority (data.waiter w).owner ≤ maxWriter

theorem stays_grant {maxWriter : Int} (repr : Repr data xs) (mem : w ∈ xs) :
    stays s maxWriter (grantReader data w) = stays s maxWriter data := by
  funext y
  have granted := reader_granted repr mem
  simp only [stays, granted.owner, granted.write]

theorem wake_readers_grants (maxWriter : Int) (before after : List Nat) (fuel : Nat) (repr : Repr data (before ++ after))
    (unheld : data.writer = 0) (enough : after.length ≤ fuel) :
    Grants data (before ++ after) (wakeReaders s maxWriter fuel (firstOr after) data)
      (before ++ after.filter (stays s maxWriter data)) ∧
    (wakeReaders s maxWriter fuel (firstOr after) data).writer = 0 ∧
    ∀ y, ((wakeReaders s maxWriter fuel (firstOr after) data).waiter y).owner = (data.waiter y).owner ∧
      ((wakeReaders s maxWriter fuel (firstOr after) data).waiter y).write = (data.waiter y).write := by
  induction after generalizing data before fuel with
  | nil =>
    have none : wakeReaders s maxWriter fuel (firstOr []) data = data := by
      cases fuel with
      | zero => rfl
      | succ fuel => exact if_pos rfl
    rw [none]
    exact ⟨.done _ _, unheld, fun _ => ⟨rfl, rfl⟩⟩
  | cons x rest ih =>
    have mem : x ∈ before ++ x :: rest := by simp
    have real : x ≠ 0 := repr.present x mem
    have next : (data.waiter x).next = firstOr rest := chain_next repr.dll.1
    have early : x ∉ before := by
      intro inBefore
      exact (nodup_append.mp repr.nodup).2.2 x inBefore x mem_cons_self rfl
    cases fuel with
    | zero => exact absurd enough (Nat.not_succ_le_zero _)
    | succ fuel =>
      have enough := Nat.le_of_succ_le_succ enough
      change Grants _ _ (wakeReaders s maxWriter (fuel + 1) x data) _ ∧
        (wakeReaders s maxWriter (fuel + 1) x data).writer = 0 ∧
        ∀ y, ((wakeReaders s maxWriter (fuel + 1) x data).waiter y).owner = _ ∧
          ((wakeReaders s maxWriter (fuel + 1) x data).waiter y).write = _
      simp only [wakeReaders, if_neg real, next, filter_cons]
      split
      · rename_i kept
        have stay : stays s maxWriter data x = true := decide_eq_true kept
        rw [if_pos stay]
        have shifted : before ++ x :: rest = (before ++ [x]) ++ rest := by simp
        have repr' : Repr data ((before ++ [x]) ++ rest) := shifted ▸ repr
        have later := ih (before ++ [x]) fuel repr' unheld enough
        simpa only [append_assoc, singleton_append] using later
      · rename_i granted
        have go : ¬ stays s maxWriter data x = true := by
          intro stay
          exact granted (of_decide_eq_true stay)
        rw [if_neg go]
        have erased : (before ++ x :: rest).erase x = before ++ rest := by
          rw [erase_append_right _ early, erase_cons_head]
        have repr' : Repr (grantReader data x) (before ++ rest) := erased ▸ (reader_granted repr mem).repr
        have unheld' : (grantReader data x).writer = 0 := (grant_reader_fields data x).1.trans unheld
        obtain ⟨grants, still, same⟩ := ih before fuel repr' unheld' enough
        rw [stays_grant repr mem] at grants
        have reader : (data.waiter x).write = false := Bool.eq_false_iff.mpr fun write => granted (.inl write)
        refine ⟨.read mem reader unheld (erased ▸ grants), still, fun y => ?_⟩
        have granted := reader_granted repr mem
        exact ⟨(same y).1.trans (granted.owner y), (same y).2.trans (granted.write y)⟩

theorem queue_eq (repr : Repr data xs) (enough : xs.length ≤ s.fuel) : data.queue s.fuel = xs :=
  walk_chain repr.dll.1 s.fuel enough

theorem max_priority_none (repr : Repr data xs) (enough : xs.length ≤ s.fuel)
    (none : ∀ w ∈ xs, (data.waiter w).write = false) : maxWaitingWriterPriority s data = -1 := by
  rw [maxWaitingWriterPriority, queue_eq repr enough]
  clear repr enough
  induction xs with
  | nil => rfl
  | cons x xs ih =>
    have reader := none x mem_cons_self
    simp only [foldl_cons, reader, Bool.false_eq_true, false_and, if_false]
    exact ih (forall_mem_cons.mp none).2

theorem best_writer_scan (before after : List Nat) (best : Nat) (present : ∀ w ∈ after, w ≠ 0)
    (met : best = 0 ∧ (∀ w ∈ before, (data.waiter w).write = false) ∨ best ≠ 0 ∧ best ∈ before ∧ (data.waiter best).write = true)
    (some : ∃ w ∈ before ++ after, (data.waiter w).write = true) :
    let found := after.foldl (fun best w =>
      if (data.waiter w).write ∧
          (best = 0 ∨ s.priority (data.waiter best).owner < s.priority (data.waiter w).owner) then w else best) best
    found ∈ before ++ after ∧ (data.waiter found).write = true := by
  induction after generalizing before best with
  | nil =>
    obtain ⟨w, mem, write⟩ := some
    rw [append_nil] at mem
    rcases met with ⟨-, readers⟩ | ⟨-, inside, writer⟩
    · exact absurd write (Bool.eq_false_iff.mp (readers w mem))
    · exact ⟨mem_append_left [] inside, writer⟩
  | cons x after ih =>
    have shifted : before ++ x :: after = (before ++ [x]) ++ after := by simp
    have present' : ∀ w ∈ after, w ≠ 0 := (forall_mem_cons.mp present).2
    rw [shifted] at some ⊢
    rw [foldl_cons]
    refine ih (before ++ [x]) _ present' ?_ some
    split
    · rename_i better
      exact .inr ⟨present x mem_cons_self, by simp, better.1⟩
    · rename_i worse
      rcases met with ⟨null, readers⟩ | ⟨real, inside, writer⟩
      · refine .inl ⟨null, fun w mem => ?_⟩
        rcases mem_append.mp mem with early | last
        · exact readers w early
        · rw [mem_singleton.mp last]
          exact Bool.eq_false_iff.mpr fun write => worse ⟨write, .inl null⟩
      · exact .inr ⟨real, mem_append_left [x] inside, writer⟩

section
variable (repr : Repr data xs)
include repr

theorem best_writer_mem (enough : xs.length ≤ s.fuel) (some : ∃ w ∈ xs, (data.waiter w).write = true) :
    bestWriter s data ∈ xs ∧ (data.waiter (bestWriter s data)).write = true := by
  rw [bestWriter, queue_eq repr enough]
  exact best_writer_scan [] xs 0 repr.present (.inl ⟨rfl, nofun⟩) some

theorem writers_queued (queued : data.waitingWriters ≠ 0) : ∃ w ∈ xs, (data.waiter w).write = true := by
  have pos : 0 < xs.countP fun w => (data.waiter w).write := by
    rcases eq_zero_or_pos (xs.countP fun w => (data.waiter w).write) with zero | pos
    · exact absurd (repr.writers.trans (by rw [zero, Nat.zero_mod])) queued
    · exact pos
  exact countP_pos_iff.mp pos

theorem no_writer_queued (few : (xs.countP fun w => (data.waiter w).write) < 2 ^ 32)
    (zero : data.waitingWriters = 0) : ∀ w ∈ xs, (data.waiter w).write = false := by
  have none : (xs.countP fun w => (data.waiter w).write) = 0 :=
    (Nat.mod_eq_of_lt few).symm.trans (repr.writers.symm.trans zero)
  intro w mem
  exact Bool.eq_false_iff.mpr (countP_eq_zero.mp none w mem)

theorem all_readers_wake (enough : xs.length ≤ s.fuel) (none : ∀ w ∈ xs, (data.waiter w).write = false) :
    xs.filter (stays s (maxWaitingWriterPriority s data) data) = [] := by
  refine filter_eq_nil_iff.mpr fun w mem stay => ?_
  rcases of_decide_eq_true stay with write | low
  · exact Bool.eq_false_iff.mp (none w mem) write
  · rw [max_priority_none repr enough none] at low
    omega

theorem wake_grants (enough : xs.length ≤ s.fuel) : ∃ xs', Grants data xs (wakeWaiters s data) xs' ∧
      ((∀ w ∈ xs, (data.waiter w).owner ≠ 0) → (xs.countP fun w => (data.waiter w).write) < 2 ^ 32 →
        (wakeWaiters s data).writer = 0 → (wakeWaiters s data).readers = 0 → xs' = []) := by
  unfold wakeWaiters
  split
  · rename_i held
    exact ⟨xs, .done data xs, fun _ _ unheld _ => absurd unheld held⟩
  · rename_i held
    have unheld := of_not_not held
    have start : data.head = firstOr xs := chain_first repr.dll.1
    obtain ⟨grants, unheld', same⟩ :=
      wake_readers_grants (s := s) (maxWaitingWriterPriority s data) [] xs s.fuel repr unheld enough
    dsimp only
    rw [start]
    generalize wakeReaders s (maxWaitingWriterPriority s data) s.fuel (firstOr xs) data = woken at grants unheld' same ⊢
    have repr' := repr_grants grants repr
    simp only [nil_append] at grants repr'
    have sub : (xs.filter (stays s (maxWaitingWriterPriority s data) data)).Sublist xs := filter_sublist
    split
    · rename_i done
      refine ⟨_, grants, fun _ few _ unread => ?_⟩
      have zero : woken.waitingWriters = 0 := done.resolve_left fun readers => readers unread
      refine all_readers_wake repr enough fun w mem => Bool.eq_false_iff.mpr fun write => ?_
      have writes : (fun w => (woken.waiter w).write) = fun w => (data.waiter w).write := funext fun w => (same w).2
      have few' := Nat.lt_of_le_of_lt (sub.countP_le (p := fun w => (data.waiter w).write)) few
      have stay : stays s (maxWaitingWriterPriority s data) data w = true := decide_eq_true (.inl write)
      have left := mem_filter.mpr ⟨mem, stay⟩
      have reader := no_writer_queued repr' (writes ▸ few') zero w left
      exact Bool.eq_false_iff.mp reader ((same w).2.trans write)
    · rename_i more
      obtain ⟨unread, queued⟩ := not_or.mp more
      have some := writers_queued repr' queued
      obtain ⟨mem, writer⟩ := best_writer_mem (s := s) repr' (Nat.le_trans sub.length_le enough) some
      refine ⟨_, grants.trans (.write mem writer unheld' (of_not_not unread) (.done _ _)), fun owners _ unheld'' _ => ?_⟩
      have owner := (grant_writer_fields woken (bestWriter s woken)).1
      rw [(same _).1] at owner
      exact absurd (owner.symm.trans unheld'') (owners _ (sub.subset mem))

end
end

inductive Errno where
  | ebusy
  | edeadlk
  | einval
  | eagain
  | etimedout
deriving DecidableEq

inductive Outcome where
  | acquired
  | failed (error : Errno)
  | cancelled
deriving DecidableEq

structure Call where
  ticket : Nat
  write : Bool
deriving DecidableEq

-- Where a thread is in `rwlock_acquire`. The places with a record have run
-- `pthread_cleanup_push`; `timed`: there is a valid deadline.
inductive Pc where
  | idle
  | ready (call : Call) (tryOnly timed : Bool)
  | alloc (call : Call)
  | enter (call : Call) (w : Nat)
  | waiting (call : Call) (w : Nat)
  | expired (call : Call) (w : Nat)
  | cleanup (call : Call) (w : Nat) (outcome : Outcome)
  | dead
deriving DecidableEq

inductive Status where
  | ok
  | intr
  | timeout
  | error
  | cancelled
deriving DecidableEq

structure World where
  data : RwlockData
  allocated : List Nat
  priority : Nat → Nat
  nextTicket : Nat
  pc : Nat → Pc
  ended : List (Hold × Outcome)

inductive Move where
  | call (t : Nat) (write tryOnly timed : Bool)
  -- the first section, or one turn of the loop of `shared_acquire`
  | acquire (t : Nat) (late : Bool)
  -- no record when `calloc` or the semaphore fails
  | alloc (t : Nat) (record : Option Nat)
  | enter (t : Nat)
  | wait (t : Nat) (status : Status)
  | expire (t : Nat)
  | cleanup (t : Nat)
  | unlock (t : Nat)
  | setPriority (t : Nat) (priority : Nat)
deriving DecidableEq

def World.schedule (s : World) : Schedule := ⟨s.priority, s.allocated.length⟩

def World.goto (s : World) (t : Nat) (pc : Pc) : World := { s with pc := Function.update s.pc t pc }

def World.withData (s : World) (data : RwlockData) : World := { s with data := data }

def rest : Outcome → Pc
  | .cancelled => .dead
  | _ => .idle

def World.finish (s : World) (t : Nat) (call : Call) (outcome : Outcome) : World :=
  { s.goto t (rest outcome) with ended := (⟨t, call.ticket⟩, outcome) :: s.ended }

def acquireStep (s : World) (t : Nat) (call : Call) (tryOnly timed : Bool) : World :=
  match rwlockTryImmediate s.schedule s.data ⟨t, call.ticket⟩ call.write with
  | some data => (s.withData data).finish t call .acquired
  | none =>
    if s.data.writer = t then s.finish t call (.failed (if tryOnly then .ebusy else .edeadlk))
    else if tryOnly then s.finish t call (.failed .ebusy)
    else if timed then s.goto t (.alloc call)
    else s.finish t call (.failed .einval)

def callStep (s : World) (t : Nat) (write tryOnly timed : Bool) : World :=
  { s with nextTicket := s.nextTicket + 1 }.goto t (.ready ⟨s.nextTicket, write⟩ tryOnly timed)

-- The state is an `int`; the sum wraps where C leaves it undefined.
def sharedNext (state : Int) (write : Bool) : Int :=
  if write then -1 else if state + 1 = 2 ^ 31 then -2 ^ 31 else state + 1

def sharedHold (data : RwlockData) (self : Hold) (write : Bool) : RwlockData :=
  let data := { data with sharedState := sharedNext data.sharedState write }
  if write then { data with writeHolds := self :: data.writeHolds } else { data with readHolds := self :: data.readHolds }

def SharedAvailable (data : RwlockData) (write : Bool) : Prop :=
  if write then data.sharedState = 0 else 0 ≤ data.sharedState

instance (data : RwlockData) (write : Bool) : Decidable (SharedAvailable data write) :=
  inferInstanceAs (Decidable (if write then _ else _))

def sharedAcquire (s : World) (t : Nat) (call : Call) (tryOnly timed late : Bool) : World :=
  if SharedAvailable s.data call.write then
    (s.withData (sharedHold s.data ⟨t, call.ticket⟩ call.write)).finish t call .acquired
  else if tryOnly then s.finish t call (.failed .ebusy)
  else if !timed then s.finish t call (.failed .einval)
  else if late then s.finish t call (.failed .etimedout)
  else s

def record (t : Nat) (call : Call) : RwWaiter := ⟨0, 0, 0, t, call.write, false, call.ticket⟩

def allocStep (s : World) (t : Nat) (call : Call) : Option Nat → Option World
  | none => some (s.finish t call (.failed .eagain))
  | some w =>
    if w = 0 ∨ w ∈ s.allocated then none
    else
      some ({ s with
        data := s.data.modify w fun _ => record t call
        allocated := w :: s.allocated }.goto t (.enter call w))

def enterStep (s : World) (t : Nat) (call : Call) (w : Nat) : World :=
  match rwlockTryImmediate s.schedule s.data ⟨t, call.ticket⟩ call.write with
  | some data => (s.withData data).goto t (.cleanup call w .acquired)
  | none =>
    if s.data.writer = t then s.goto t (.cleanup call w (.failed .edeadlk))
    else (s.withData (enqueue s.data w)).goto t (.waiting call w)

def waitStep (s : World) (t : Nat) (call : Call) (w : Nat) : Status → Option World
  | .ok =>
    if (s.data.waiter w).semaphore = 0 then none
    else
      some ((s.withData (s.data.modify w fun r => { r with semaphore := 0 })).goto t (.cleanup call w .acquired))
  | .intr => some s
  | .timeout => some (s.goto t (.expired call w))
  | .error => some (s.goto t (.cleanup call w (.failed .einval)))
  | .cancelled => some (s.goto t (.cleanup call w .cancelled))

def giveUp (s : World) (w : Nat) : World := s.withData (wakeWaiters s.schedule (unlinkWaiter s.data w))

def expireStep (s : World) (t : Nat) (call : Call) (w : Nat) : World :=
  if (s.data.waiter w).linked then (giveUp s w).goto t (.cleanup call w (.failed .etimedout))
  else s.goto t (.cleanup call w .acquired)

def waitCleanup (s : World) (w : Nat) : World :=
  let s := if (s.data.waiter w).linked then giveUp s w else s
  { s with allocated := s.allocated.erase w }

-- An unlock by a thread that holds nothing takes the lock from a reader.
def release (holds : List Hold) (t : Nat) : List Hold :=
  match holds.find? fun hold => hold.thread = t with
  | some hold => holds.erase hold
  | none => holds.tail

def sharedUnlock (data : RwlockData) (t : Nat) : Option RwlockData :=
  if data.sharedState = 0 then none
  else if data.sharedState < 0 then some { data with sharedState := 0, writeHolds := data.writeHolds.tail }
  else some { data with sharedState := data.sharedState - 1, readHolds := release data.readHolds t }

def privateUnlock (s : Schedule) (data : RwlockData) (t : Nat) : Option RwlockData :=
  if data.writer = t then some (wakeWaiters s { data with writer := 0, writeHolds := data.writeHolds.tail })
  else if data.readers ≠ 0 then
    some (wakeWaiters s { data with readers := data.readers - 1, readHolds := release data.readHolds t })
  else none

def unlockStep (s : World) (t : Nat) : World :=
  match if s.data.pshared then sharedUnlock s.data t else privateUnlock s.schedule s.data t with
  | some data => s.withData data
  | none => s

def step (s : World) : Move → Option World
  | .call t write tryOnly timed => if t ≠ 0 ∧ s.pc t = .idle then some (callStep s t write tryOnly timed) else none
  | .acquire t late =>
    match s.pc t with
    | .ready call tryOnly timed =>
      some (if s.data.pshared then sharedAcquire s t call tryOnly timed late else acquireStep s t call tryOnly timed)
    | _ => none
  | .alloc t record =>
    match s.pc t with
    | .alloc call => allocStep s t call record
    | _ => none
  | .enter t =>
    match s.pc t with
    | .enter call w => some (enterStep s t call w)
    | _ => none
  | .wait t status =>
    match s.pc t with
    | .waiting call w => waitStep s t call w status
    | _ => none
  | .expire t =>
    match s.pc t with
    | .expired call w => some (expireStep s t call w)
    | _ => none
  | .cleanup t =>
    match s.pc t with
    | .cleanup call w outcome => some ((waitCleanup s w).finish t call outcome)
    | _ => none
  | .unlock t => if t ≠ 0 ∧ s.pc t = .idle then some (unlockStep s t) else none
  | .setPriority t priority => some { s with priority := Function.update s.priority t priority }

def initial (pshared : Bool) (priority : Nat → Nat) : World where
  data := ⟨0, 0, 0, 0, 0, pshared, 0, fun _ => ⟨0, 0, 0, 0, false, false, 0⟩, [], []⟩
  allocated := []
  priority := priority
  nextTicket := 0
  pc := fun _ => .idle
  ended := []

inductive Reach (condition : World → Move → Prop) (first : World) : World → Prop where
  | start : Reach condition first first
  | step {s s' : World} {move : Move} (before : Reach condition first s) (meets : condition s move)
      (moved : step s move = some s') : Reach condition first s'

def runs (condition : World → Move → Prop) [∀ s move, Decidable (condition s move)] : World → List Move → Option World
  | s, [] => some s
  | s, move :: moves =>
    if condition s move then
      match step s move with
      | some s' => runs condition s' moves
      | none => none
    else none

theorem reach_runs {condition : World → Move → Prop} [∀ s move, Decidable (condition s move)] {first s s' : World}
    (before : Reach condition first s) (moves : List Move) (run : runs condition s moves = some s') :
    Reach condition first s' := by
  induction moves generalizing s with
  | nil =>
    cases run
    exact before
  | cons move moves ih =>
    rw [runs] at run
    split at run
    · rename_i meets
      split at run
      · rename_i moved
        exact ih (.step before meets moved) run
      · exact nomatch run
    · exact nomatch run

end Spicule.Rwlock
