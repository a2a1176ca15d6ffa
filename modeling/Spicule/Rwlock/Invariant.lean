import Spicule.Rwlock.Protocol

namespace Spicule.Rwlock
open List

structure Keeps (data : RwlockData) (xs : List Nat) (data' : RwlockData) (xs' : List Nat) : Prop where
  repr : Repr data' xs'
  within : ∀ y ∈ xs', y ∈ xs
  owner : ∀ y, (data'.waiter y).owner = (data.waiter y).owner
  write : ∀ y, (data'.waiter y).write = (data.waiter y).write
  ticket : ∀ y, (data'.waiter y).ticket = (data.waiter y).ticket
  semaphore : ∀ y ∈ xs', (data'.waiter y).semaphore = (data.waiter y).semaphore
  outside : ∀ y, y ∉ xs → data'.waiter y = data.waiter y
  pshared : data'.pshared = data.pshared

section
variable {data data' : RwlockData} {xs xs' : List Nat} {w : Nat}
theorem Keeps.trans {data'' : RwlockData} {xs'' : List Nat} (one : Keeps data xs data' xs')
    (two : Keeps data' xs' data'' xs'') : Keeps data xs data'' xs'' where
  repr := two.repr
  within y mem := one.within y (two.within y mem)
  owner y := (two.owner y).trans (one.owner y)
  write y := (two.write y).trans (one.write y)
  ticket y := (two.ticket y).trans (one.ticket y)
  semaphore y mem := (two.semaphore y mem).trans (one.semaphore y (two.within y mem))
  outside y outside := (two.outside y fun mem => outside (one.within y mem)).trans (one.outside y outside)
  pshared := two.pshared.trans one.pshared

theorem keeps_queue (repr : Repr data xs) (head : data'.head = data.head) (tail : data'.tail = data.tail)
    (writers : data'.waitingWriters = data.waitingWriters) (waiter : data'.waiter = data.waiter)
    (pshared : data'.pshared = data.pshared) : Keeps data xs data' xs where
  repr := repr_congr repr head tail writers fun w => by rw [waiter]; exact ⟨rfl, rfl, rfl, rfl⟩
  within _ mem := mem
  owner y := by rw [waiter]
  write y := by rw [waiter]
  ticket y := by rw [waiter]
  semaphore y _ := by rw [waiter]
  outside y _ := by rw [waiter]
  pshared := pshared

theorem keeps_unlink (repr : Repr data xs) (mem : w ∈ xs) : Keeps data xs (unlinkWaiter data w) (xs.erase w) where
  repr := repr_unlink repr mem
  within _ inside := mem_of_mem_erase inside
  owner := (unlink_untouched data w).owner
  write := (unlink_untouched data w).write
  ticket := (unlink_untouched data w).ticket
  semaphore y _ := by rw [unlink_apply ((repr.linked w).mpr mem)]
  outside _ outside := unlink_outside repr mem outside
  pshared := (unlink_untouched data w).pshared

theorem Granted.keeps (granted : Granted data xs w data') (nodup : xs.Nodup) : Keeps data xs data' (xs.erase w) where
  repr := granted.repr
  within _ inside := mem_of_mem_erase inside
  owner := granted.owner
  write := granted.write
  ticket := granted.ticket
  semaphore y inside := by rw [granted.semaphore, if_neg (nodup.mem_erase_iff.mp inside).1]
  outside := granted.outside
  pshared := granted.pshared

theorem keeps_grants (grants : Grants data xs data' xs') (repr : Repr data xs) : Keeps data xs data' xs' := by
  induction grants with
  | done => exact keeps_queue repr rfl rfl rfl rfl rfl
  | read mem _ _ _ ih =>
    have granted := reader_granted repr mem
    exact (granted.keeps repr.nodup).trans (ih granted.repr)
  | write mem _ _ _ _ ih =>
    have granted := writer_granted repr mem
    exact (granted.keeps repr.nodup).trans (ih granted.repr)

structure Counted (data : RwlockData) : Prop where
  read : data.readers = data.readHolds.length % 2 ^ 32
  written : data.writer = 0 ∧ data.writeHolds = [] ∨ data.writer ≠ 0 ∧ ∃ ticket, data.writeHolds = [⟨data.writer, ticket⟩]

theorem Counted.unheld (counted : Counted data) (unheld : data.writer = 0) : data.writeHolds = [] := by
  rcases counted.written with none | one
  · exact none.2
  · exact absurd unheld one.1

theorem counted_hold_read (counted : Counted data) (hold : Hold) : Counted (holdRead data hold) where
  read := by
    rw [holdRead, length_cons, ← bump_mod, ← counted.read]
  written := counted.written

theorem counted_hold_write (counted : Counted data) (hold : Hold) (unheld : data.writer = 0) (real : hold.thread ≠ 0) :
    Counted (holdWrite data hold) where
  read := counted.read
  written := .inr ⟨real, hold.ticket, by rw [holdWrite, counted.unheld unheld]⟩

theorem counted_congr (counted : Counted data) (writer : data'.writer = data.writer) (readers : data'.readers = data.readers)
    (readHolds : data'.readHolds = data.readHolds) (writeHolds : data'.writeHolds = data.writeHolds) : Counted data' where
  read := by rw [readers, readHolds, counted.read]
  written := by
    rw [writer, writeHolds]
    exact counted.written

theorem Untouched.counted (same : Untouched data data') (counted : Counted data) : Counted data' :=
  counted_congr counted same.writer same.readers same.readHolds same.writeHolds

theorem Granted.owners (granted : Granted data xs w data') (owners : ∀ y ∈ xs, (data.waiter y).owner ≠ 0) :
    ∀ y ∈ xs.erase w, (data'.waiter y).owner ≠ 0 := by
  intro y inside
  rw [granted.owner]
  exact owners y (mem_of_mem_erase inside)

theorem counted_grants (grants : Grants data xs data' xs') (repr : Repr data xs)
    (owners : ∀ w ∈ xs, (data.waiter w).owner ≠ 0) (counted : Counted data) : Counted data' := by
  induction grants with
  | done => exact counted
  | @read data _ xs _ w mem _ _ _ ih =>
    have granted := reader_granted repr mem
    have held := (unlink_untouched _ w).counted (counted_hold_read counted (data.holdOf w))
    exact ih granted.repr (granted.owners owners) (counted_congr held rfl rfl rfl rfl)
  | @write data _ xs _ w mem _ unheld _ _ ih =>
    have granted := writer_granted repr mem
    have held := (unlink_untouched _ w).counted (counted_hold_write counted (data.holdOf w) unheld (owners w mem))
    exact ih granted.repr (granted.owners owners) (counted_congr held rfl rfl rfl rfl)

end

def Pc.record : Pc → Option (Call × Nat)
  | .enter call w => some (call, w)
  | .waiting call w => some (call, w)
  | .expired call w => some (call, w)
  | .cleanup call w _ => some (call, w)
  | _ => none

def Pc.call : Pc → Option Call
  | .ready call _ _ => some call
  | .alloc call => some call
  | .enter call _ => some call
  | .waiting call _ => some call
  | .expired call _ => some call
  | .cleanup call _ _ => some call
  | _ => none

def Pc.fits (pshared : Bool) : Pc → Prop
  | .idle => True
  | .dead => True
  | .ready _ _ _ => True
  | _ => pshared = false

structure Mine (s : World) (t : Nat) (call : Call) (w : Nat) : Prop where
  allocated : w ∈ s.allocated
  thread : t ≠ 0
  owner : (s.data.waiter w).owner = t
  ticket : (s.data.waiter w).ticket = call.ticket
  write : (s.data.waiter w).write = call.write

structure Fresh (data : RwlockData) (xs : List Nat) (w : Nat) : Prop where
  absent : w ∉ xs
  next : (data.waiter w).next = 0
  semaphore : (data.waiter w).semaphore = 0

structure Sound (s : World) (xs : List Nat) : Prop where
  repr : Repr s.data xs
  kept : ∀ w ∈ xs, w ∈ s.allocated
  nodup : s.allocated.Nodup
  real : ∀ w ∈ s.allocated, w ≠ 0
  mine : ∀ t call w, (s.pc t).record = some (call, w) → Mine s t call w
  fresh : ∀ t call w, s.pc t = .enter call w → Fresh s.data xs w
  owned : ∀ w ∈ xs, ∃ t call, (s.pc t).record = some (call, w)
  unposted : ∀ w ∈ xs, (s.data.waiter w).semaphore = 0
  fits : ∀ t, (s.pc t).fits s.data.pshared
  nobody : s.pc 0 = .idle
  counted : s.data.pshared = false → Counted s.data

section
variable {s : World} {xs : List Nat} {t : Nat} {call : Call} {w : Nat}

section
variable (sound : Sound s xs)
include sound

theorem Sound.owners : ∀ w ∈ xs, (s.data.waiter w).owner ≠ 0 := by
  intro w mem
  obtain ⟨t, call, record⟩ := sound.owned w mem
  have mine := sound.mine t call w record
  rw [mine.owner]
  exact mine.thread

theorem Sound.enough : xs.length ≤ s.schedule.fuel := (subperm_of_subset sound.repr.nodup sound.kept).length_le

theorem Sound.thread (busy : s.pc t ≠ .idle) : t ≠ 0 := by
  rintro rfl
  exact busy sound.nobody

theorem Sound.apart {other : Nat} {call' : Call} (record : (s.pc t).record = some (call, w))
    (record' : (s.pc other).record = some (call', w)) : other = t :=
  (sound.mine other call' w record').owner.symm.trans (sound.mine t call w record).owner

theorem Sound.keep {data' : RwlockData} {xs' : List Nat} (keeps : Keeps s.data xs data' xs')
    (counted : s.data.pshared = false → Counted data') : Sound (s.withData data') xs' where
  __ := sound
  repr := keeps.repr
  kept w mem := sound.kept w (keeps.within w mem)
  mine t call w record := by
    have mine := sound.mine t call w record
    exact ⟨mine.allocated, mine.thread, (keeps.owner w).trans mine.owner, (keeps.ticket w).trans mine.ticket,
      (keeps.write w).trans mine.write⟩
  fresh t call w here := by
    have fresh := sound.fresh t call w here
    have same := keeps.outside w fresh.absent
    refine ⟨fun mem => fresh.absent (keeps.within w mem), ?_, ?_⟩
    · exact same ▸ fresh.next
    · exact same ▸ fresh.semaphore
  owned w mem := sound.owned w (keeps.within w mem)
  unposted w mem := (keeps.semaphore w mem).trans (sound.unposted w (keeps.within w mem))
  fits t := by
    change (s.pc t).fits data'.pshared
    rw [keeps.pshared]
    exact sound.fits t
  counted private' := counted (keeps.pshared.symm.trans private')

end

theorem goto_here (s : World) (t : Nat) (pc : Pc) : (s.goto t pc).pc t = pc := Function.update_self ..

variable {other : Nat}
theorem goto_other (different : other ≠ t) (s : World) (pc : Pc) : (s.goto t pc).pc other = s.pc other :=
  Function.update_of_ne different ..

theorem finish_here (s : World) (t : Nat) (call : Call) (outcome : Outcome) : (s.finish t call outcome).pc t = rest outcome :=
  goto_here s t _

theorem finish_other (different : other ≠ t) (s : World) (call : Call) (outcome : Outcome) :
    (s.finish t call outcome).pc other = s.pc other := goto_other different s _

variable {pc : Pc}
theorem record_goto (same : pc.record = (s.pc t).record) : ((s.goto t pc).pc other).record = (s.pc other).record := by
  by_cases here : other = t
  · subst here
    rw [goto_here, same]
  · rw [goto_other here]

theorem fits_goto {pshared : Bool} (fits : ∀ t', (s.pc t').fits pshared) (here : pc.fits pshared) (t' : Nat) :
    ((s.goto t pc).pc t').fits pshared := by
  by_cases own : t' = t
  · rw [own, goto_here]
    exact here
  · rw [goto_other own]
    exact fits t'

theorem Sound.proceed (sound : Sound s xs) (same : pc.record = (s.pc t).record)
    (entered : ∀ call w, pc ≠ .enter call w) (fits : pc.fits s.data.pshared) (thread : t ≠ 0) :
    Sound (s.goto t pc) xs where
  __ := sound
  mine t' call w record := { sound.mine t' call w (record_goto same ▸ record) with }
  fresh t' call w here := by
    by_cases own : t' = t
    · subst own
      exact absurd ((goto_here s t' pc).symm.trans here) (entered call w)
    · exact sound.fresh t' call w ((goto_other own s pc).symm.trans here)
  owned w mem := by
    obtain ⟨t', call, record⟩ := sound.owned w mem
    exact ⟨t', call, (record_goto same).trans record⟩
  fits := fits_goto sound.fits fits
  nobody := (goto_other (Ne.symm thread) s pc).trans sound.nobody

theorem Sound.relog (sound : Sound s xs) (nextTicket : Nat) (ended : List (Hold × Outcome)) (priority : Nat → Nat) :
    Sound { s with nextTicket := nextTicket, ended := ended, priority := priority } xs :=
  { sound with mine := fun t call w record => { sound.mine t call w record with } }

variable (outcome : Outcome)
theorem rest_record : (rest outcome).record = none := by
  cases outcome <;> rfl

theorem rest_fits (pshared : Bool) : (rest outcome).fits pshared := by
  cases outcome <;> exact trivial

theorem rest_entered : ∀ call w, rest outcome ≠ .enter call w := by
  intro call w
  cases outcome <;> exact nofun

theorem Sound.finish (sound : Sound s xs) (bare : (s.pc t).record = none) (thread : t ≠ 0) (call : Call) (outcome : Outcome) :
    Sound (s.finish t call outcome) xs :=
  (sound.proceed ((rest_record outcome).trans bare.symm) (rest_entered outcome) (rest_fits outcome _) thread).relog
    s.nextTicket ((⟨t, call.ticket⟩, outcome) :: s.ended) s.priority

theorem Sound.free (sound : Sound s xs) (record : (s.pc t).record = some (call, w)) (gone : w ∉ xs) (outcome : Outcome) :
    Sound ({ s with allocated := s.allocated.erase w }.finish t call outcome) xs where
  __ := sound
  kept y mem := (sound.nodup.mem_erase_iff).mpr ⟨fun same => gone (same ▸ mem), sound.kept y mem⟩
  nodup := sound.nodup.erase w
  real y mem := sound.real y (mem_of_mem_erase mem)
  mine t' call' w' record' := by
    by_cases own : t' = t
    · subst own
      rw [finish_here, rest_record] at record'
      exact nomatch record'
    · rw [finish_other own] at record'
      have mine := sound.mine t' call' w' record'
      have other : w' ≠ w := by
        rintro rfl
        exact own (sound.apart record record')
      exact { mine with allocated := (sound.nodup.mem_erase_iff).mpr ⟨other, mine.allocated⟩ }
  fresh t' call' w' here := by
    by_cases own : t' = t
    · subst own
      rw [finish_here] at here
      exact absurd here (rest_entered outcome call' w')
    · rw [finish_other own] at here
      exact sound.fresh t' call' w' here
  owned y mem := by
    obtain ⟨t', call', record'⟩ := sound.owned y mem
    have own : t' ≠ t := by
      rintro rfl
      rw [record] at record'
      cases record'
      exact gone mem
    exact ⟨t', call', (congrArg Pc.record (finish_other own _ call outcome)).trans record'⟩
  fits := fits_goto sound.fits (rest_fits outcome _)
  nobody := by
    have thread := (sound.mine t call w record).thread
    exact (finish_other (Ne.symm thread) _ call outcome).trans sound.nobody

theorem modify_here (data : RwlockData) (w : Nat) (change : RwWaiter → RwWaiter) :
    (data.modify w change).waiter w = change (data.waiter w) := Function.update_self ..

theorem modify_other {y : Nat} (different : y ≠ w) (data : RwlockData) (change : RwWaiter → RwWaiter) :
    (data.modify w change).waiter y = data.waiter y := Function.update_of_ne different ..

theorem repr_modify {data : RwlockData} (repr : Repr data xs) (absent : w ∉ xs) (change : RwWaiter → RwWaiter)
    (unlinked : (change (data.waiter w)).linked = false) : Repr (data.modify w change) xs := by
  have same : ∀ y ∈ xs, (data.modify w change).waiter y = data.waiter y := by
    intro y mem
    have other : y ≠ w := fun here => absent (here ▸ mem)
    exact modify_other other data change
  refine ⟨⟨?_, ?_⟩, repr.nodup, fun y => ?_, ?_⟩
  · exact LinkedList.chain_congr xs _ (fun y mem => congrArg RwWaiter.next (same y mem)) repr.dll.1
  · exact LinkedList.chain_congr xs.reverse _
      (fun y mem => congrArg RwWaiter.previous (same y (mem_reverse.mp mem))) repr.dll.2
  · by_cases here : y = w
    · subst here
      rw [modify_here, unlinked]
      exact ⟨nofun, fun mem => absurd mem absent⟩
    · rw [modify_other here]
      exact repr.linked y
  · refine repr.writers.trans (congrArg (· % 2 ^ 32) (countP_congr fun y mem => ?_))
    rw [same y mem]

theorem Sound.allocate (sound : Sound s xs) (here : s.pc t = .alloc call) (null : w ≠ 0) (free : w ∉ s.allocated) :
    Sound ({ s with
      data := s.data.modify w fun _ => record t call
      allocated := w :: s.allocated }.goto t (.enter call w)) xs := by
  have absent : w ∉ xs := fun mem => free (sound.kept w mem)
  have other : ∀ y, y ∈ s.allocated → y ≠ w := fun y mem same => free (same ▸ mem)
  have same : ∀ y, y ∈ s.allocated → (s.data.modify w fun _ => record t call).waiter y = s.data.waiter y := by
    intro y mem
    exact modify_other (other y mem) _ _
  have thread : t ≠ 0 := sound.thread (by rw [here]; exact nofun)
  constructor
  case repr => exact repr_modify sound.repr absent (fun _ => record t call) rfl
  case kept => exact fun y mem => mem_cons_of_mem w (sound.kept y mem)
  case nodup => exact nodup_cons.mpr ⟨free, sound.nodup⟩
  case real =>
      intro y mem
      rcases mem_cons.mp mem with rfl | old
      · exact null
      · exact sound.real y old
  case mine =>
      intro t' call' w' record'
      by_cases own : t' = t
      · subst own
        rw [goto_here] at record'
        cases record'
        have made := modify_here s.data w fun _ => record t' call
        exact ⟨mem_cons_self, thread, congrArg RwWaiter.owner made, congrArg RwWaiter.ticket made,
          congrArg RwWaiter.write made⟩
      · rw [goto_other own] at record'
        have mine := sound.mine t' call' w' record'
        have kept := same w' mine.allocated
        exact ⟨mem_cons_of_mem w mine.allocated, mine.thread, kept ▸ mine.owner,
          kept ▸ mine.ticket, kept ▸ mine.write⟩
  case fresh =>
      intro t' call' w' here'
      by_cases own : t' = t
      · subst own
        rw [goto_here] at here'
        cases here'
        have made := modify_here s.data w fun _ => record t' call
        exact ⟨absent, congrArg RwWaiter.next made, congrArg RwWaiter.semaphore made⟩
      · rw [goto_other own] at here'
        have fresh := sound.fresh t' call' w' here'
        have mine := sound.mine t' call' w' (by rw [show s.pc t' = _ from here']; rfl)
        have kept := same w' mine.allocated
        exact ⟨fresh.absent, kept ▸ fresh.next, kept ▸ fresh.semaphore⟩
  case owned =>
      intro y mem
      obtain ⟨t', call', record'⟩ := sound.owned y mem
      have own : t' ≠ t := by
        rintro rfl
        rw [here] at record'
        exact nomatch record'
      exact ⟨t', call', (congrArg Pc.record (goto_other own _ _)).trans record'⟩
  case unposted =>
      intro y mem
      exact (congrArg RwWaiter.semaphore (same y (sound.kept y mem))).trans (sound.unposted y mem)
  case fits =>
      have fits := sound.fits t
      rw [here] at fits
      exact fits_goto sound.fits fits
  case nobody => exact (goto_other (Ne.symm thread) _ _).trans sound.nobody
  case counted => exact fun private' => counted_congr (sound.counted private') rfl rfl rfl rfl

theorem tail_member {data : RwlockData} (repr : Repr data xs) (some : data.tail ≠ 0) : data.tail ∈ xs := by
  have last : data.tail = LinkedList.firstOr xs.reverse := LinkedList.chain_first repr.dll.2
  rw [last] at some ⊢
  exact mem_reverse.mp (LinkedList.first_mem some)

theorem Sound.off_tail (sound : Sound s xs) (here : s.pc t = .enter call w) : s.data.tail ≠ w := by
  have mine := sound.mine t call w (congrArg Pc.record here)
  rintro rfl
  exact (sound.fresh t call _ here).absent (tail_member sound.repr (sound.real _ mine.allocated))

theorem Sound.enqueue (sound : Sound s xs) (here : s.pc t = .enter call w) :
    Sound ((s.withData (enqueue s.data w)).goto t (.waiting call w)) (xs ++ [w]) := by
  have record : (s.pc t).record = some (call, w) := congrArg Pc.record here
  have fresh := sound.fresh t call w here
  have mine := sound.mine t call w record
  have real := sound.real w mine.allocated
  have offTail : ∀ y, y ∉ xs → ¬ (y = s.data.tail ∧ s.data.tail ≠ 0) := by
    rintro y absent ⟨rfl, some⟩
    exact absent (tail_member sound.repr some)
  have other := sound.off_tail here
  have going : ∀ t', ((s.goto t (.waiting call w)).pc t').record = (s.pc t').record := fun t' => record_goto record.symm
  have apply := enqueue_apply s.data w
  have untouched := enqueue_untouched other
  constructor
  case repr => exact repr_enqueue sound.repr fresh.absent real fresh.next
  case kept =>
      intro y mem
      rcases mem_append.mp mem with old | last
      · exact sound.kept y old
      · exact mem_singleton.mp last ▸ mine.allocated
  case nodup => exact sound.nodup
  case real => exact sound.real
  case mine =>
      intro t' call' w' record'
      have mine := sound.mine t' call' w' ((going t').symm.trans record')
      exact ⟨mine.allocated, mine.thread, (untouched.owner w').trans mine.owner, (untouched.ticket w').trans mine.ticket,
        (untouched.write w').trans mine.write⟩
  case fresh =>
      intro t' call' w' here'
      by_cases own : t' = t
      · subst own
        rw [goto_here] at here'
        exact nomatch here'
      · rw [goto_other own] at here'
        have here' : s.pc t' = .enter call' w' := here'
        have fresh' := sound.fresh t' call' w' here'
        have apart : w' ≠ w := by
          rintro rfl
          exact own (sound.apart record (congrArg Pc.record here'))
        refine ⟨?_, ?_, ?_⟩
        · intro mem
          rcases mem_append.mp mem with old | last
          · exact fresh'.absent old
          · exact apart (mem_singleton.mp last)
        · refine (congrArg RwWaiter.next (apply w' other)).trans ?_
          exact (if_neg (offTail w' fresh'.absent)).trans fresh'.next
        · exact (congrArg RwWaiter.semaphore (apply w' other)).trans fresh'.semaphore
  case owned =>
      intro y mem
      rcases mem_append.mp mem with old | last
      · obtain ⟨t', call', record'⟩ := sound.owned y old
        exact ⟨t', call', (going t').trans record'⟩
      · rw [mem_singleton.mp last]
        exact ⟨t, call, congrArg Pc.record (goto_here _ t _)⟩
  case unposted =>
      intro y mem
      refine (congrArg RwWaiter.semaphore (apply y other)).trans ?_
      rcases mem_append.mp mem with old | last
      · exact sound.unposted y old
      · rw [mem_singleton.mp last]
        exact fresh.semaphore
  case fits =>
      have fits := sound.fits t
      rw [here] at fits
      exact untouched.pshared ▸ fits_goto sound.fits fits
  case nobody => exact (goto_other (Ne.symm mine.thread) _ _).trans sound.nobody
  case counted => exact fun private' => untouched.counted (sound.counted (untouched.pshared.symm.trans private'))

theorem Sound.consume (sound : Sound s xs) (here : s.pc t = .waiting call w) (posted : (s.data.waiter w).semaphore ≠ 0) :
    Sound ((s.withData (s.data.modify w fun r => { r with semaphore := 0 })).goto t (.cleanup call w .acquired)) xs := by
  have record : (s.pc t).record = some (call, w) := congrArg Pc.record here
  have thread := (sound.mine t call w record).thread
  have absent : w ∉ xs := fun mem => posted (sound.unposted w mem)
  have unlinked : (s.data.waiter w).linked = false :=
    Bool.eq_false_iff.mpr fun linked => absent ((sound.repr.linked w).mp linked)
  have proceeded : Sound (s.goto t (.cleanup call w .acquired)) xs := by
    refine sound.proceed record.symm nofun ?_ thread
    have fits := sound.fits t
    rw [here] at fits
    exact fits
  obtain ⟨data, isData⟩ : ∃ data, data = s.data.modify w fun r => { r with semaphore := 0 } := ⟨_, rfl⟩
  have same : ∀ y, (data.waiter y).owner = (s.data.waiter y).owner ∧ (data.waiter y).ticket = (s.data.waiter y).ticket ∧
      (data.waiter y).write = (s.data.waiter y).write ∧ (data.waiter y).next = (s.data.waiter y).next ∧
      ((s.data.waiter y).semaphore = 0 → (data.waiter y).semaphore = 0) := by
    intro y
    rw [isData]
    by_cases own : y = w
    · subst own
      rw [modify_here]
      exact ⟨rfl, rfl, rfl, rfl, fun _ => rfl⟩
    · rw [modify_other own]
      exact ⟨rfl, rfl, rfl, rfl, id⟩
  rw [← isData]
  refine { proceeded with
    repr := isData ▸ repr_modify sound.repr absent (fun r => { r with semaphore := 0 }) unlinked
    mine := fun t' call' w' record' => ?_
    fresh := fun t' call' w' here' => ?_
    unposted := fun y mem => (same y).2.2.2.2 (sound.unposted y mem)
    fits := isData ▸ proceeded.fits
    counted := isData ▸ fun private' => counted_congr (sound.counted private') rfl rfl rfl rfl }
  · have mine := proceeded.mine t' call' w' record'
    obtain ⟨owner, ticket, write, -⟩ := same w'
    exact ⟨mine.allocated, mine.thread, owner.trans mine.owner, ticket.trans mine.ticket, write.trans mine.write⟩
  · have fresh := proceeded.fresh t' call' w' here'
    obtain ⟨-, -, -, next, drained⟩ := same w'
    exact ⟨fresh.absent, next.trans fresh.next, drained fresh.semaphore⟩

variable {schedule : Schedule}

section
variable {data data' : RwlockData} {self : Hold} {write : Bool}
  (immediate : rwlockTryImmediate schedule data self write = some data')
include data data' self write immediate

theorem try_immediate_cases : data.writer = 0 ∧
      (data.readers = 0 ∧ data' = holdWrite data self ∨ data' = holdRead data self) := by
  unfold rwlockTryImmediate Available at immediate
  cases write with
  | true =>
    rcases Option.ite_some_none_eq_some.mp immediate with ⟨available, rfl⟩
    exact ⟨available.1, .inl ⟨available.2, rfl⟩⟩
  | false =>
    rcases Option.ite_some_none_eq_some.mp immediate with ⟨available, rfl⟩
    exact ⟨available.1, .inr rfl⟩

theorem keeps_immediate (repr : Repr data xs) : Keeps data xs data' xs := by
  rcases (try_immediate_cases immediate).2 with ⟨-, rfl⟩ | rfl <;> exact keeps_queue repr rfl rfl rfl rfl rfl

theorem counted_immediate (counted : Counted data) (thread : self.thread ≠ 0) : Counted data' := by
  obtain ⟨unheld, ⟨-, rfl⟩ | rfl⟩ := try_immediate_cases immediate
  · exact counted_hold_write counted self unheld thread
  · exact counted_hold_read counted self

end

theorem Sound.hold (sound : Sound s xs) {data' : RwlockData} {ticket : Nat} {write : Bool}
    (immediate : rwlockTryImmediate s.schedule s.data ⟨t, ticket⟩ write = some data') (thread : t ≠ 0) :
    Sound (s.withData data') xs :=
  sound.keep (keeps_immediate immediate sound.repr) fun private' =>
    counted_immediate immediate (sound.counted private') thread

theorem Sound.wake (sound : Sound s xs) : ∃ xs', Grants s.data xs (wakeWaiters s.schedule s.data) xs' ∧
    Sound (s.withData (wakeWaiters s.schedule s.data)) xs' := by
  obtain ⟨xs', grants, -⟩ := wake_grants sound.repr sound.enough
  refine ⟨xs', grants, sound.keep (keeps_grants grants sound.repr) fun private' => ?_⟩
  exact counted_grants grants sound.repr sound.owners (sound.counted private')

theorem Sound.unlink (sound : Sound s xs) (mem : w ∈ xs) :
    Sound (s.withData (unlinkWaiter s.data w)) (xs.erase w) :=
  sound.keep (keeps_unlink sound.repr mem) fun private' =>
    (unlink_untouched s.data w).counted (sound.counted private')

theorem Sound.giveUp (sound : Sound s xs) (mem : w ∈ xs) :
    ∃ xs', Grants (unlinkWaiter s.data w) (xs.erase w) (giveUp s w).data xs' ∧ Sound (giveUp s w) xs' :=
  (sound.unlink mem).wake

theorem grants_within {data data' : RwlockData} {xs' : List Nat} (grants : Grants data xs data' xs') : ∀ y ∈ xs', y ∈ xs := by
  induction grants with
  | done => exact fun _ mem => mem
  | read _ _ _ _ ih => exact fun y mem => mem_of_mem_erase (ih y mem)
  | write _ _ _ _ _ ih => exact fun y mem => mem_of_mem_erase (ih y mem)

variable (holds : List Hold)
theorem release_length (t : Nat) : (release holds t).length = holds.length - 1 := by
  unfold release
  split
  · rename_i found
    exact length_erase_of_mem (mem_of_find?_eq_some found)
  · exact length_tail

theorem release_subset (t : Nat) : ∀ hold ∈ release holds t, hold ∈ holds := by
  intro hold mem
  unfold release at mem
  split at mem
  · exact mem_of_mem_erase mem
  · exact mem_of_mem_tail mem

theorem counted_release_writer {data : RwlockData} (counted : Counted data) :
    Counted { data with writer := 0, writeHolds := data.writeHolds.tail } where
  read := counted.read
  written := by
    rcases counted.written with ⟨-, none⟩ | ⟨-, ticket, one⟩
    · exact .inl ⟨rfl, congrArg List.tail none⟩
    · exact .inl ⟨rfl, congrArg List.tail one⟩

theorem counted_release_reader {data : RwlockData} (counted : Counted data) (some : data.readers ≠ 0) (t : Nat) :
    Counted { data with readers := data.readers - 1, readHolds := release data.readHolds t } where
  read := by
    change data.readers - 1 = (release data.readHolds t).length % 2 ^ 32
    rw [release_length]
    have read := counted.read
    omega
  written := counted.written

inductive Released (data : RwlockData) (t : Nat) : RwlockData → Prop where
  | writer (holds : data.writer = t) : Released data t { data with writer := 0, writeHolds := data.writeHolds.tail }
  | reader (some : data.readers ≠ 0) :
      Released data t { data with readers := data.readers - 1, readHolds := release data.readHolds t }

theorem private_unlock_cases {data data' : RwlockData}
    (unlocked : privateUnlock schedule data t = some data') : ∃ released, Released data t released ∧
      data' = wakeWaiters schedule released := by
  unfold privateUnlock at unlocked
  split at unlocked
  · rename_i holds
    cases unlocked
    exact ⟨_, .writer holds, rfl⟩
  · split at unlocked
    · rename_i some
      cases unlocked
      exact ⟨_, .reader some, rfl⟩
    · exact nomatch unlocked

theorem Sound.release (sound : Sound s xs) {released : RwlockData} (release : Released s.data t released) :
    Sound (s.withData released) xs := by
  cases release with
  | writer => exact sound.keep (keeps_queue sound.repr rfl rfl rfl rfl rfl) fun p => counted_release_writer (sound.counted p)
  | reader some =>
    exact sound.keep (keeps_queue sound.repr rfl rfl rfl rfl rfl) fun p => counted_release_reader (sound.counted p) some t

end
end Spicule.Rwlock
