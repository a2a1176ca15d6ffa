import Spicule.Rwlock.Effects

namespace Spicule.Rwlock
open List Nat Bool LinkedList

def linkedWriters (s : World) : Nat := s.allocated.countP fun w => (s.data.waiter w).linked && (s.data.waiter w).write

def Moderate (s : World) : Prop :=
  s.data.readHolds.length < (if s.data.pshared then 2 ^ 31 else 2 ^ 32) ∧ linkedWriters s < 2 ^ 32

instance (s : World) : Decidable (Moderate s) := inferInstanceAs (Decidable (_ ∧ _))

structure Safe (s : World) : Prop where
  exclusive : s.data.writeHolds ≠ [] → s.data.readHolds = []
  single : s.data.writeHolds.length ≤ 1
  counts : if s.data.pshared then s.data.sharedState = if s.data.writeHolds = [] then (s.data.readHolds.length : Int) else -1
    else s.data.readers = s.data.readHolds.length ∧ (s.data.writer = 0 ↔ s.data.writeHolds = [])
  waiting : s.data.waitingWriters = linkedWriters s
  queue : ∃ xs, Dll (fun w => (s.data.waiter w).next) (fun w => (s.data.waiter w).previous) s.data.head s.data.tail xs ∧
    xs.Nodup ∧ ∀ w, w ∈ xs ↔ (s.data.waiter w).linked = true
  idle : s.data.writer = 0 → s.data.readers = 0 → s.data.head = 0

section
variable {data data' : RwlockData} {xs xs' : List Nat} {s s' : World}
theorem Repr.unique (one : Repr data xs) (two : Repr data xs') : xs = xs' := by
  have first := walk_chain one.dll.1 (max xs.length xs'.length) (le_max_left ..)
  have second := walk_chain two.dll.1 (max xs.length xs'.length) (le_max_right ..)
  exact first.symm.trans second

theorem linked_writers_eq (sound : Sound s xs) : linkedWriters s = xs.countP fun w => (s.data.waiter w).write := by
  have split : linkedWriters s = ((s.allocated.filter fun w => (s.data.waiter w).linked).countP
      fun w => (s.data.waiter w).write) := by
    rw [countP_filter]
    exact countP_congr fun w _ => by rw [Bool.and_comm]
  have same : (s.allocated.filter fun w => (s.data.waiter w).linked).Perm xs := by
    refine (perm_ext_iff_of_nodup (sound.nodup.filter _) sound.repr.nodup).mpr fun w => ?_
    rw [mem_filter, sound.repr.linked w]
    exact ⟨fun both => both.2, fun mem => ⟨sound.kept w mem, mem⟩⟩
  rw [split]
  exact same.countP_eq _

theorem grants_grow (grants : Grants data xs data' xs') : data.readHolds.length ≤ data'.readHolds.length := by
  induction grants with
  | done => exact le_refl _
  | @read data _ _ _ w _ _ _ _ ih =>
    rw [(grant_reader_fields data w).2.1] at ih
    exact le_of_succ_le ih
  | @write data _ _ _ w _ _ _ _ _ ih =>
    rw [(grant_writer_fields data w).2.1] at ih
    exact ih

theorem Counted.unread (counted : Counted data) (few : data.readHolds.length < 2 ^ 32) (unread : data.readers = 0) :
    data.readHolds = [] := by
  have read := counted.read
  rw [unread, mod_eq_of_lt few] at read
  exact length_eq_zero_iff.mp read.symm

theorem grants_exclusive (grants : Grants data xs data' xs') (repr : Repr data xs)
    (owners : ∀ w ∈ xs, (data.waiter w).owner ≠ 0) (counted : Counted data) (few : data'.readHolds.length < 2 ^ 32)
    (exclusive : data.writeHolds ≠ [] → data.readHolds = []) : data'.writeHolds ≠ [] → data'.readHolds = [] := by
  induction grants with
  | done => exact exclusive
  | @read data _ xs _ w mem reader unheld _ ih =>
    have one : Grants data xs (grantReader data w) (xs.erase w) := .read mem reader unheld (.done _ _)
    have granted := reader_granted repr mem
    refine ih granted.repr (granted.owners owners) (counted_grants one repr owners counted) few ?_
    rw [(grant_reader_fields data w).2.2, counted.unheld unheld]
    exact fun some => absurd rfl some
  | @write data _ xs _ w mem writer unheld unread rest ih =>
    have one : Grants data xs (grantWriter data w) (xs.erase w) := .write mem writer unheld unread (.done _ _)
    have granted := writer_granted repr mem
    refine ih granted.repr (granted.owners owners) (counted_grants one repr owners counted) few ?_
    have same := (grant_writer_fields data w).2.1
    have grow := grants_grow rest
    rw [same] at grow ⊢
    exact fun _ => counted.unread (lt_of_le_of_lt grow few) unread

theorem wake_idle (sound : Sound s xs) (grants : Grants s.data xs (wakeWaiters s.schedule s.data) xs')
    (few : (xs.countP fun w => (s.data.waiter w).write) < 2 ^ 32) (unheld : (wakeWaiters s.schedule s.data).writer = 0)
    (unread : (wakeWaiters s.schedule s.data).readers = 0) : xs' = [] := by
  obtain ⟨ys, other, idle⟩ := wake_grants sound.repr sound.enough
  have same : xs' = ys := (repr_grants grants sound.repr).unique (repr_grants other sound.repr)
  rw [same]
  exact idle sound.owners few unheld unread

variable {write : Bool} {self : Hold} {schedule : Schedule}
theorem refused_busy (repr : Repr data xs)
    (enough : xs.length ≤ schedule.fuel) (refused : rwlockTryImmediate schedule data self write = none)
    (busy : data.writer = 0 → data.readers = 0 → xs = []) (unheld : data.writer = 0) : data.readers ≠ 0 := by
  intro unread
  have queue := max_priority_none (s := schedule) repr enough (by rw [busy unheld unread]; exact nofun)
  have available : Available schedule data self.thread write := by
    unfold Available
    cases write with
    | true => exact ⟨unheld, unread⟩
    | false =>
      refine ⟨unheld, ?_⟩
      rw [queue]
      omega
  unfold rwlockTryImmediate at refused
  rw [if_pos available] at refused
  exact nomatch refused

structure SharedCounted (data : RwlockData) : Prop where
  either : data.writeHolds = [] ∧ data.sharedState = data.readHolds.length ∨
    data.writeHolds.length = 1 ∧ data.readHolds = [] ∧ data.sharedState = -1

structure Guarded (data : RwlockData) (xs : List Nat) : Prop where
  exclusive : data.pshared = false → data.writeHolds ≠ [] → data.readHolds = []
  busy : data.pshared = false → data.writer = 0 → data.readers = 0 → xs = []
  shared : data.pshared = true → SharedCounted data

theorem guarded_private (private' : data.pshared = false) (exclusive : data.writeHolds ≠ [] → data.readHolds = [])
    (busy : data.writer = 0 → data.readers = 0 → xs = []) : Guarded data xs :=
  ⟨fun _ => exclusive, fun _ => busy, fun shared => Bool.noConfusion (private'.symm.trans shared)⟩

theorem guarded_shared (shared : data.pshared = true) (counted : SharedCounted data) : Guarded data xs :=
  ⟨fun private' => Bool.noConfusion (shared.symm.trans private'),
    fun private' => Bool.noConfusion (shared.symm.trans private'), fun _ => counted⟩

theorem few_private (few : data.readHolds.length < if data.pshared then 2 ^ 31 else 2 ^ 32)
    (private' : data.pshared = false) : data.readHolds.length < 2 ^ 32 := by
  simpa only [private', false_eq_true, if_false] using few

theorem guarded_immediate (sound : Sound s xs)
    (thread : self.thread ≠ 0) (private' : s.data.pshared = false) (few : s.data.readHolds.length < 2 ^ 32)
    (few' : data'.readHolds.length < if data'.pshared then 2 ^ 31 else 2 ^ 32)
    (immediate : rwlockTryImmediate schedule s.data self write = some data') : Guarded data' xs := by
  have counted := sound.counted private'
  obtain ⟨unheld, ⟨unread, rfl⟩ | rfl⟩ := try_immediate_cases immediate
  · exact guarded_private private' (fun _ => counted.unread few unread) fun free => absurd free thread
  · refine guarded_private private' (fun some => absurd (counted.unheld unheld) some) fun _ unread => ?_
    exact nomatch (counted_hold_read counted self).unread (few_private few' private') unread

theorem guarded_grants {before : RwlockData} (sound : Sound (s.withData before) xs) (private' : before.pshared = false)
    (grants : Grants before xs (wakeWaiters s.schedule before) xs')
    (exclusive : before.writeHolds ≠ [] → before.readHolds = [])
    (few : (xs.countP fun w => (before.waiter w).write) < 2 ^ 32)
    (few' : (wakeWaiters s.schedule before).readHolds.length <
      if (wakeWaiters s.schedule before).pshared then 2 ^ 31 else 2 ^ 32) : Guarded (wakeWaiters s.schedule before) xs' := by
  have kept := (keeps_grants grants sound.repr).pshared.trans private'
  refine guarded_private kept ?_ (wake_idle sound grants few)
  exact grants_exclusive grants sound.repr sound.owners (sound.counted private') (few_private few' kept) exclusive

theorem shared_hold_counted (counted : SharedCounted data)
    (available : SharedAvailable data write) (few : (sharedHold data self write).readHolds.length < 2 ^ 31) :
    SharedCounted (sharedHold data self write) := by
  cases write with
  | true =>
    have zero : data.sharedState = 0 := available
    rcases counted.either with ⟨unheld, state⟩ | ⟨-, -, state⟩
    · have none : data.readHolds = [] := length_eq_zero_iff.mp (by omega)
      exact ⟨.inr ⟨congrArg (fun holds => (self :: holds).length) unheld, none, rfl⟩⟩
    · omega
  | false =>
    have free : 0 ≤ data.sharedState := available
    have fits : data.readHolds.length + 1 < 2 ^ 31 := few
    rcases counted.either with ⟨unheld, state⟩ | ⟨-, -, state⟩
    · refine ⟨.inl ⟨unheld, ?_⟩⟩
      change (if data.sharedState + 1 = 2 ^ 31 then (-2 ^ 31 : Int) else data.sharedState + 1) = ↑(data.readHolds.length + 1)
      rw [if_neg (by omega)]
      omega
    · omega

variable {t : Nat}
theorem shared_unlock_counted (counted : SharedCounted data) (unlocked : sharedUnlock data t = some data') :
    SharedCounted data' := by
  unfold sharedUnlock at unlocked
  split at unlocked
  · exact nomatch unlocked
  · split at unlocked <;> cases unlocked
    · rcases counted.either with ⟨-, state⟩ | ⟨one, none, -⟩
      · omega
      · refine ⟨.inl ⟨length_eq_zero_iff.mp ?_, ?_⟩⟩
        · rw [length_tail, one]
        · exact congrArg (fun holds : List Hold => (holds.length : Int)) none.symm
    · rcases counted.either with ⟨unheld, state⟩ | ⟨-, -, state⟩
      · refine ⟨.inl ⟨unheld, ?_⟩⟩
        change data.sharedState - 1 = ((release data.readHolds t).length : Int)
        rw [release_length]
        omega
      · omega

variable {released : RwlockData}
theorem released_exclusive (counted : Counted data)
    (exclusive : data.writeHolds ≠ [] → data.readHolds = []) (release : Released data t released) :
    released.writeHolds ≠ [] → released.readHolds = [] := by
  cases release with
  | writer =>
    rcases counted.written with ⟨-, none⟩ | ⟨-, ticket, one⟩
    · exact fun some => absurd (congrArg List.tail none) some
    · exact fun some => absurd (congrArg List.tail one) some
  | reader some =>
    intro held
    have read := counted.read
    rw [exclusive held] at read
    exact absurd read some

theorem released_same (release : Released data t released) :
    released.pshared = data.pshared ∧ released.waiter = data.waiter := by
  cases release <;> exact ⟨rfl, rfl⟩

theorem guarded_congr (guarded : Guarded data xs) (writer : data'.writer = data.writer) (readers : data'.readers = data.readers)
    (readHolds : data'.readHolds = data.readHolds) (writeHolds : data'.writeHolds = data.writeHolds)
    (pshared : data'.pshared = data.pshared) (sharedState : data'.sharedState = data.sharedState)
    (busy : data.pshared = false → (data.writer = 0 → data.readers = 0 → xs = []) →
      data.writer = 0 → data.readers = 0 → xs' = []) : Guarded data' xs' where
  exclusive := by
    rw [pshared, writeHolds, readHolds]
    exact guarded.exclusive
  busy := by
    rw [pshared, writer, readers]
    exact fun private' => busy private' (guarded.busy private')
  shared := by
    intro shared
    have counted := (guarded.shared (pshared.symm.trans shared)).either
    refine ⟨?_⟩
    rw [writeHolds, readHolds, sharedState]
    exact counted

theorem guarded_effect {clean : Prop} (sound : Sound s xs) (moderate : Moderate s) (guarded : Guarded s.data xs)
    (effect : Effect clean s xs s' xs')
    (few' : s'.data.readHolds.length < if s'.data.pshared then 2 ^ 31 else 2 ^ 32) : Guarded s'.data xs' := by
  have writers : (xs.countP fun w => (s.data.waiter w).write) < 2 ^ 32 := linked_writers_eq sound ▸ moderate.2
  cases effect with
  | stay | call | fail => exact guarded
  | @hold t call tryOnly timed data' here private' immediate =>
    have thread : t ≠ 0 := sound.thread (by rw [here]; exact nofun)
    exact guarded_immediate sound thread private' (few_private moderate.1 private') few' immediate
  | @sharedHold t call tryOnly timed here shared available =>
    have kept := (sharedHold_keeps sound.repr ⟨t, call.ticket⟩ call.write).pshared.trans shared
    refine guarded_shared kept (shared_hold_counted (guarded.shared shared) available ?_)
    exact lt_of_lt_of_le few' (le_of_eq (if_pos kept))
  | prepare | proceed | free | setPriority => exact guarded
  | allocate | consume => exact guarded_congr guarded rfl rfl rfl rfl rfl rfl fun _ busy => busy
  | @enterHold t call w data' here immediate =>
    have record : (s.pc t).record = some (call, w) := congrArg Pc.record here
    have private' := sound.private record
    exact guarded_immediate sound (sound.mine t call w record).thread private' (few_private moderate.1 private') few' immediate
  | @enqueue t call w here refused =>
    have other : s.data.tail ≠ w := sound.off_tail here
    have same := enqueue_untouched other
    refine guarded_congr guarded same.writer same.readers same.readHolds same.writeHolds same.pshared same.sharedState ?_
    intro _ busy unheld unread
    exact absurd unread (refused_busy sound.repr sound.enough refused busy unheld)
  | @giveUp w xs' private' mem grants =>
    have same := unlink_untouched s.data w
    refine guarded_grants (sound.unlink mem) (same.pshared.trans private') grants ?_ ?_ few'
    · rw [same.writeHolds, same.readHolds]
      exact guarded.exclusive private'
    · rw [funext same.write]
      exact lt_of_le_of_lt (erase_sublist.countP_le) writers
  | @unlock t released xs' private' release grants =>
    obtain ⟨same, waiter⟩ := released_same release
    refine guarded_grants (sound.release release) (same.trans private') grants ?_ ?_ few'
    · exact released_exclusive (sound.counted private') (guarded.exclusive private') release
    · rw [waiter]
      exact writers
  | sharedUnlock shared unlocked =>
    have kept := (sharedUnlock_keeps sound.repr unlocked).pshared.trans shared
    exact guarded_shared kept (shared_unlock_counted (guarded.shared shared) unlocked)

theorem guarded_effects {clean : Prop} (sound : Sound s xs) (moderate : Moderate s) (guarded : Guarded s.data xs)
    (effects : Effects clean s xs s' xs') (moderate' : Moderate s') : Guarded s'.data xs' := by
  cases effects with
  | one effect => exact guarded_effect sound moderate guarded effect moderate'.1
  | two first second same =>
    have between := sound_effect sound first
    have after := sound_effect between second
    have queue := (same ▸ after.repr).unique between.repr
    rw [same, queue]
    exact guarded_effect sound moderate guarded first (same ▸ moderate'.1)

theorem guarded_initial {pshared : Bool} {priority : Nat → Nat} : Guarded (initial pshared priority).data [] :=
  ⟨fun _ some => absurd rfl some, fun _ _ _ => rfl, fun _ => ⟨.inl ⟨rfl, rfl⟩⟩⟩

theorem guarded_run {pshared : Bool} {priority : Nat → Nat}
    (run : Reach (fun s _ => Moderate s) (initial pshared priority) s) (moderate : Moderate s) :
    ∃ xs, Sound s xs ∧ Guarded s.data xs := by
  induction run with
  | start => exact ⟨[], sound_initial, guarded_initial⟩
  | @step s s' move before meets moved ih =>
    obtain ⟨xs, sound, guarded⟩ := ih meets
    obtain ⟨xs', effects⟩ : ∃ xs', Effects False s xs s' xs' := step_effects sound moved False.elim
    exact ⟨xs', sound_effects sound effects, guarded_effects sound meets guarded effects moderate⟩

theorem guarded_safe (sound : Sound s xs) (guarded : Guarded s.data xs) (moderate : Moderate s) : Safe s := by
  have writers := linked_writers_eq sound
  have waiting : s.data.waitingWriters = linkedWriters s := by
    rw [sound.repr.writers, ← writers, mod_eq_of_lt moderate.2]
  have queue : ∃ xs, Dll (fun w => (s.data.waiter w).next) (fun w => (s.data.waiter w).previous) s.data.head s.data.tail xs ∧
      xs.Nodup ∧ ∀ w, w ∈ xs ↔ (s.data.waiter w).linked = true :=
    ⟨xs, sound.repr.dll, sound.repr.nodup, fun w => (sound.repr.linked w).symm⟩
  have empty : xs = [] → s.data.head = 0 := by
    rintro rfl
    exact chain_first sound.repr.dll.1
  cases shared : s.data.pshared with
  | true =>
    have alone : xs = [] := by
      refine eq_nil_iff_forall_not_mem.mpr fun w mem => ?_
      obtain ⟨t, call, record⟩ := sound.owned w mem
      exact Bool.noConfusion (shared.symm.trans (sound.private record))
    rcases (guarded.shared shared).either with ⟨unheld, state⟩ | ⟨one, none, state⟩
    · refine ⟨fun some => absurd unheld some, by rw [unheld]; exact zero_le 1, ?_, waiting, queue, fun _ _ => empty alone⟩
      rw [shared, if_pos rfl, if_pos unheld]
      exact state
    · have held : s.data.writeHolds ≠ [] := by
        intro unheld
        rw [unheld] at one
        exact nomatch one
      refine ⟨fun _ => none, le_of_eq one, ?_, waiting, queue, fun _ _ => empty alone⟩
      rw [shared, if_pos rfl, if_neg held]
      exact state
  | false =>
    have counted := sound.counted shared
    have reads : s.data.readers = s.data.readHolds.length :=
      counted.read.trans (mod_eq_of_lt (few_private moderate.1 shared))
    have idle : s.data.writer = 0 → s.data.readers = 0 → s.data.head = 0 := fun unheld unread =>
      empty (guarded.busy shared unheld unread)
    rcases counted.written with ⟨free, unheld⟩ | ⟨held, ticket, one⟩
    · refine ⟨guarded.exclusive shared, by rw [unheld]; exact zero_le 1, ?_, waiting, queue, idle⟩
      rw [shared, if_neg Bool.false_ne_true]
      exact ⟨reads, fun _ => unheld, fun _ => free⟩
    · refine ⟨guarded.exclusive shared, by rw [one]; exact le_refl 1, ?_, waiting, queue, idle⟩
      rw [shared, if_neg Bool.false_ne_true]
      exact ⟨reads, fun free => absurd free held, fun none => nomatch one.symm.trans none⟩

theorem rwlock_safety (pshared : Bool) (priority : Nat → Nat) (s : World)
    (run : Reach (fun s _ => Moderate s) (initial pshared priority) s) (moderate : Moderate s) : Safe s := by
  obtain ⟨xs, sound, guarded⟩ := guarded_run run moderate
  exact guarded_safe sound guarded moderate

-- A reader and a writer queue up behind a writer, and the reader gets the lock with the
-- unlock because its priority is higher.
def handOff : List Move :=
  [.call 1 true false true, .acquire 1 false,
   .call 2 false false true, .acquire 2 false, .alloc 2 (some 10), .enter 2,
   .call 3 true false true, .acquire 3 false, .alloc 3 (some 20), .enter 3,
   .unlock 1]

theorem rwlock_safety_hand_off : ∃ s, runs (fun s _ => Moderate s) (initial false fun t => if t = 2 then 1 else 0) handOff = some s ∧
    s.data.readHolds = [⟨2, 1⟩] ∧ s.data.head = 20 ∧ Safe s := by
  refine ⟨_, rfl, rfl, rfl, rwlock_safety false (fun t => if t = 2 then 1 else 0) _ (reach_runs .start handOff rfl) ?_⟩
  decide

structure Reading (n : Nat) (s : World) : Prop where
  held : s.data.readHolds.length = n
  readers : s.data.readers = n % 2 ^ 32
  writer : s.data.writer = 0
  head : s.data.head = 0
  pshared : s.data.pshared = false
  idle : ∀ t, s.pc t = .idle

theorem reading_lock {n : Nat} (reading : Reading n s) (t : Nat) (thread : t ≠ 0) (write : Bool)
    (free : write = true → n % 2 ^ 32 = 0) : ∃ s', runs (fun _ _ => True) s [.call t write false true, .acquire t false] = some s' ∧
      s'.data = (if write then holdWrite s.data ⟨t, s.nextTicket⟩ else holdRead s.data ⟨t, s.nextTicket⟩) ∧
      ∀ t', s'.pc t' = .idle := by
  have none : maxWaitingWriterPriority s.schedule s.data = -1 := by
    rw [maxWaitingWriterPriority, RwlockData.queue, reading.head]
    cases s.schedule.fuel with
    | zero | succ => rfl
  have available : Available s.schedule s.data t write := by
    unfold Available
    cases write with
    | true => exact ⟨reading.writer, reading.readers.trans (free rfl)⟩
    | false =>
      refine ⟨reading.writer, ?_⟩
      rw [none]
      omega
  obtain ⟨mid, called, here, data, schedule, idle⟩ : ∃ mid, step s (.call t write false true) = some mid ∧
      mid.pc t = .ready ⟨s.nextTicket, write⟩ false true ∧ mid.data = s.data ∧ mid.schedule = s.schedule ∧
      ∀ t' ≠ t, mid.pc t' = .idle := by
    refine ⟨callStep s t write false true, if_pos ⟨thread, reading.idle t⟩, goto_here _ t _, rfl, rfl, fun t' own => ?_⟩
    exact (goto_other own _ _).trans (reading.idle t')
  obtain ⟨after, immediate⟩ : ∃ after, rwlockTryImmediate mid.schedule mid.data ⟨t, s.nextTicket⟩ write = some after ∧
      after = if write then holdWrite s.data ⟨t, s.nextTicket⟩ else holdRead s.data ⟨t, s.nextTicket⟩ := by
    rw [data, schedule]
    exact ⟨_, if_pos available, rfl⟩
  have acquired : step mid (.acquire t false) = some ((mid.withData after).finish t ⟨s.nextTicket, write⟩ .acquired) := by
    have private' : mid.data.pshared = false := data ▸ reading.pshared
    simp only [step, here, private', false_eq_true, if_false, acquireStep, immediate.1]
  refine ⟨(mid.withData after).finish t ⟨s.nextTicket, write⟩ .acquired, ?_, immediate.2, fun t' => ?_⟩
  · simp only [runs, called, acquired, if_true]
  · by_cases own : t' = t
    · rw [own, finish_here]
      rfl
    · rw [finish_other own]
      exact idle t' own

theorem reading_run (n : Nat) : ∃ s, Reach (fun _ _ => True) (initial false fun _ => 0) s ∧ Reading n s := by
  induction n with
  | zero => exact ⟨_, .start, rfl, rfl, rfl, rfl, rfl, fun _ => rfl⟩
  | succ n ih =>
    obtain ⟨s, reached, reading⟩ := ih
    obtain ⟨s', run, data, idle⟩ := reading_lock reading 1 (by decide) false nofun
    refine ⟨s', reach_runs reached _ run, ?_, ?_, ?_, ?_, ?_, idle⟩
    · rw [data]
      exact congrArg (· + 1) reading.held
    · rw [data]
      exact (congrArg bump reading.readers).trans (bump_mod n)
    · rw [data]
      exact reading.writer
    · rw [data]
      exact reading.head
    · rw [data]
      exact reading.pshared

-- After 2 ^ 32 read locks the counter says that there is no reader.
theorem readers_wrap : ∃ s, Reach (fun _ _ => True) (initial false fun _ => 0) s ∧
    s.data.writer = 2 ∧ s.data.readHolds.length = 2 ^ 32 ∧ ¬ Safe s := by
  obtain ⟨s, reached, reading⟩ := reading_run (2 ^ 32)
  obtain ⟨s', run, data, idle⟩ := reading_lock reading 2 (by decide) true fun _ => mod_self _
  have length : s'.data.readHolds.length = 2 ^ 32 := by
    rw [data]
    exact reading.held
  refine ⟨s', reach_runs reached _ run, by rw [data]; rfl, length, fun safe => ?_⟩
  have none := safe.exclusive (by rw [data]; exact nofun)
  rw [none] at length
  exact nomatch length

end
end Spicule.Rwlock
