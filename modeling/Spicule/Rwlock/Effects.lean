import Spicule.Rwlock.Invariant

namespace Spicule.Rwlock

-- No lock has been handed to a call that is about to end without it.
def Ungranted (s : World) (t : Nat) : Prop :=
  match s.pc t with
  | .cleanup _ w outcome => outcome = .acquired ∨ (s.data.waiter w).semaphore = 0
  | _ => True

instance (s : World) (t : Nat) : Decidable (Ungranted s t) := by
  unfold Ungranted
  split <;> infer_instance

def CleanEnds (s : World) : Move → Prop
  | .cleanup t => Ungranted s t
  | _ => True

instance (s : World) (move : Move) : Decidable (CleanEnds s move) := by
  cases move <;> unfold CleanEnds <;> infer_instance

-- What a step can do, with the queue before and after it. With `clean`, `Ungranted` holds
-- wherever a call ends.
inductive Effect (clean : Prop) (s : World) (xs : List Nat) : World → List Nat → Prop where
  | stay : Effect clean s xs s xs
  | call {t : Nat} {write tryOnly timed : Bool} (idle : s.pc t = .idle) (thread : t ≠ 0) :
      Effect clean s xs (callStep s t write tryOnly timed) xs
  | fail {t : Nat} {call : Call} (error : Errno) (inside : (s.pc t).call = some call) (bare : (s.pc t).record = none) :
      Effect clean s xs (s.finish t call (.failed error)) xs
  | hold {t : Nat} {call : Call} {tryOnly timed : Bool} {data' : RwlockData} (here : s.pc t = .ready call tryOnly timed)
      (private' : s.data.pshared = false)
      (immediate : rwlockTryImmediate s.schedule s.data ⟨t, call.ticket⟩ call.write = some data') :
      Effect clean s xs ((s.withData data').finish t call .acquired) xs
  | sharedHold {t : Nat} {call : Call} {tryOnly timed : Bool} (here : s.pc t = .ready call tryOnly timed)
      (shared : s.data.pshared = true) (available : SharedAvailable s.data call.write) :
      Effect clean s xs ((s.withData (sharedHold s.data ⟨t, call.ticket⟩ call.write)).finish t call .acquired) xs
  | prepare {t : Nat} {call : Call} {tryOnly timed : Bool} (here : s.pc t = .ready call tryOnly timed)
      (private' : s.data.pshared = false) : Effect clean s xs (s.goto t (.alloc call)) xs
  | allocate {t : Nat} {call : Call} {w : Nat} (here : s.pc t = .alloc call) (null : w ≠ 0) (free : w ∉ s.allocated) :
      Effect clean s xs ({ s with
        data := s.data.modify w fun _ => record t call
        allocated := w :: s.allocated }.goto t (.enter call w)) xs
  | enterHold {t : Nat} {call : Call} {w : Nat} {data' : RwlockData} (here : s.pc t = .enter call w)
      (immediate : rwlockTryImmediate s.schedule s.data ⟨t, call.ticket⟩ call.write = some data') :
      Effect clean s xs ((s.withData data').goto t (.cleanup call w .acquired)) xs
  | enqueue {t : Nat} {call : Call} {w : Nat} (here : s.pc t = .enter call w)
      (refused : rwlockTryImmediate s.schedule s.data ⟨t, call.ticket⟩ call.write = none) :
      Effect clean s xs ((s.withData (enqueue s.data w)).goto t (.waiting call w)) (xs ++ [w])
  | proceed {t : Nat} {call : Call} {w : Nat} {pc : Pc} (inside : (s.pc t).record = some (call, w))
      (early : ∀ outcome, s.pc t ≠ .cleanup call w outcome) (same : pc.record = some (call, w))
      (entered : ∀ call w, pc ≠ .enter call w) : Effect clean s xs (s.goto t pc) xs
  | consume {t : Nat} {call : Call} {w : Nat} (here : s.pc t = .waiting call w) (posted : (s.data.waiter w).semaphore ≠ 0) :
      Effect clean s xs
        ((s.withData (s.data.modify w fun r => { r with semaphore := 0 })).goto t (.cleanup call w .acquired)) xs
  | giveUp {w : Nat} {xs' : List Nat} (private' : s.data.pshared = false) (mem : w ∈ xs)
      (grants : Grants (unlinkWaiter s.data w) (xs.erase w) (giveUp s w).data xs') : Effect clean s xs (giveUp s w) xs'
  | free {t : Nat} {call : Call} {w : Nat} {outcome : Outcome} (here : s.pc t = .cleanup call w outcome) (gone : w ∉ xs)
      (ungranted : clean → Ungranted s t) :
      Effect clean s xs ({ s with allocated := s.allocated.erase w }.finish t call outcome) xs
  | unlock {t : Nat} {released : RwlockData} {xs' : List Nat} (private' : s.data.pshared = false)
      (release : Released s.data t released) (grants : Grants released xs (wakeWaiters s.schedule released) xs') :
      Effect clean s xs (s.withData (wakeWaiters s.schedule released)) xs'
  | sharedUnlock {t : Nat} {data' : RwlockData} (shared : s.data.pshared = true)
      (unlocked : sharedUnlock s.data t = some data') : Effect clean s xs (s.withData data') xs
  | setPriority (priority : Nat → Nat) : Effect clean s xs { s with priority := priority } xs

inductive Effects (clean : Prop) (s : World) (xs : List Nat) (s' : World) (xs' : List Nat) : Prop where
  | one (effect : Effect clean s xs s' xs')
  | two {middle : World} {ys : List Nat} (first : Effect clean s xs middle ys) (second : Effect clean middle ys s' xs')
      (same : s'.data = middle.data)

section
variable {clean : Prop} {s s' : World} {xs xs' : List Nat} {t : Nat} {call : Call} {w : Nat}
theorem record_call {pc : Pc} (record : pc.record = some (call, w)) : pc.call = some call := by
  cases pc <;> cases record <;> rfl

theorem Sound.private (sound : Sound s xs) (record : (s.pc t).record = some (call, w)) : s.data.pshared = false := by
  have fits := sound.fits t
  cases here : s.pc t with
  | idle | ready | alloc | dead => rw [here] at record; exact nomatch record
  | enter | waiting | expired | cleanup => rw [here] at fits; exact fits

theorem record_fits {pc : Pc} (record : pc.record = some (call, w)) {pshared : Bool} (private' : pshared = false) :
    pc.fits pshared := by
  cases pc <;> cases record <;> exact private'

theorem sharedHold_keeps {data : RwlockData} (repr : Repr data xs) (self : Hold) (write : Bool) :
    Keeps data xs (sharedHold data self write) xs := by
  unfold sharedHold
  split <;> exact keeps_queue repr rfl rfl rfl rfl rfl

theorem sharedUnlock_keeps {data data' : RwlockData} (repr : Repr data xs) (unlocked : sharedUnlock data t = some data') :
    Keeps data xs data' xs := by
  unfold sharedUnlock at unlocked
  split at unlocked
  · exact nomatch unlocked
  · split at unlocked <;> cases unlocked <;> exact keeps_queue repr rfl rfl rfl rfl rfl

theorem sound_effect (sound : Sound s xs) (effect : Effect clean s xs s' xs') : Sound s' xs' := by
  cases effect with
  | stay => exact sound
  | @call t write tryOnly timed idle thread =>
    have bare : (Pc.ready ⟨s.nextTicket, write⟩ tryOnly timed).record = (s.pc t).record := by
      rw [idle]
      rfl
    exact (sound.proceed bare nofun trivial thread).relog (s.nextTicket + 1) s.ended s.priority
  | @fail t call error inside bare =>
    have busy : s.pc t ≠ .idle := by
      intro idle
      rw [idle] at inside
      exact nomatch inside
    exact sound.finish bare (sound.thread busy) call _
  | @hold t call tryOnly timed data' here private' immediate =>
    have thread : t ≠ 0 := sound.thread (by rw [here]; exact nofun)
    have bare : ((s.withData data').pc t).record = none := congrArg Pc.record here
    exact (sound.hold immediate thread).finish bare thread call _
  | @sharedHold t call tryOnly timed here shared available =>
    have thread : t ≠ 0 := sound.thread (by rw [here]; exact nofun)
    have held := sound.keep (sharedHold_keeps sound.repr ⟨t, call.ticket⟩ call.write) fun private' =>
      Bool.noConfusion (shared.symm.trans private')
    exact held.finish (congrArg Pc.record here) thread call _
  | @prepare t call tryOnly timed here private' =>
    have thread : t ≠ 0 := sound.thread (by rw [here]; exact nofun)
    exact sound.proceed (congrArg Pc.record here).symm nofun private' thread
  | allocate here null free => exact sound.allocate here null free
  | @enterHold t call w data' here immediate =>
    have record : (s.pc t).record = some (call, w) := congrArg Pc.record here
    have thread := (sound.mine t call w record).thread
    have held := sound.hold immediate thread
    exact held.proceed record.symm nofun (held.private record) thread
  | enqueue here refused => exact sound.enqueue here
  | @proceed t call w pc inside early same entered =>
    exact sound.proceed (same.trans inside.symm) entered (record_fits same (sound.private inside))
      (sound.mine t call w inside).thread
  | consume here posted => exact sound.consume here posted
  | @giveUp w xs' private' mem grants =>
    have unlinked := sound.unlink mem
    refine unlinked.keep (keeps_grants grants unlinked.repr) fun private' => ?_
    exact counted_grants grants unlinked.repr unlinked.owners (unlinked.counted private')
  | @free t call w outcome here gone ungranted =>
    exact sound.free (congrArg Pc.record here) gone outcome
  | @unlock t released xs' private' release grants =>
    have released := sound.release release
    refine released.keep (keeps_grants grants released.repr) fun private' => ?_
    exact counted_grants grants released.repr released.owners (released.counted private')
  | sharedUnlock shared unlocked =>
    exact sound.keep (sharedUnlock_keeps sound.repr unlocked) fun private' =>
      Bool.noConfusion (shared.symm.trans private')
  | setPriority priority => exact sound.relog s.nextTicket s.ended priority

theorem sound_effects (sound : Sound s xs) (effects : Effects clean s xs s' xs') : Sound s' xs' := by
  cases effects with
  | one effect => exact sound_effect sound effect
  | two first second => exact sound_effect (sound_effect sound first) second

theorem acquire_effect {tryOnly timed : Bool} (here : s.pc t = .ready call tryOnly timed)
    (private' : s.data.pshared = false) : Effect clean s xs (acquireStep s t call tryOnly timed) xs := by
  have inside : (s.pc t).call = some call := congrArg Pc.call here
  have bare : (s.pc t).record = none := congrArg Pc.record here
  unfold acquireStep
  split
  · rename_i immediate
    exact .hold here private' immediate
  · split
    · exact .fail _ inside bare
    · split
      · exact .fail _ inside bare
      · split
        · exact .prepare here private'
        · exact .fail _ inside bare

theorem shared_effect {tryOnly timed late : Bool} (here : s.pc t = .ready call tryOnly timed)
    (shared : s.data.pshared = true) : Effect clean s xs (sharedAcquire s t call tryOnly timed late) xs := by
  have inside : (s.pc t).call = some call := congrArg Pc.call here
  have bare : (s.pc t).record = none := congrArg Pc.record here
  unfold sharedAcquire
  split
  · rename_i available
    exact .sharedHold here shared available
  · split
    · exact .fail _ inside bare
    · split
      · exact .fail _ inside bare
      · split
        · exact .fail _ inside bare
        · exact .stay

theorem enter_effect (here : s.pc t = .enter call w) : ∃ xs', Effect clean s xs (enterStep s t call w) xs' := by
  have inside : (s.pc t).record = some (call, w) := congrArg Pc.record here
  unfold enterStep
  split
  · rename_i immediate
    exact ⟨xs, .enterHold here immediate⟩
  · rename_i refused
    split
    · exact ⟨xs, .proceed inside (by rw [here]; exact nofun) rfl nofun⟩
    · exact ⟨xs ++ [w], .enqueue here refused⟩

theorem wait_effect (here : s.pc t = .waiting call w) {status : Status} (moved : waitStep s t call w status = some s') :
    Effect clean s xs s' xs := by
  have inside : (s.pc t).record = some (call, w) := congrArg Pc.record here
  have early : ∀ outcome, s.pc t ≠ .cleanup call w outcome := by
    rw [here]
    exact nofun
  cases status with
  | ok =>
    simp only [waitStep] at moved
    split at moved
    · exact nomatch moved
    · rename_i posted
      cases moved
      exact .consume here posted
  | intr =>
    cases moved
    exact .stay
  | timeout | error | cancelled =>
    cases moved
    exact .proceed inside early rfl nofun

section
variable (sound : Sound s xs)
include sound

theorem expire_effects (here : s.pc t = .expired call w) : ∃ xs', Effects clean s xs (expireStep s t call w) xs' := by
  have inside : (s.pc t).record = some (call, w) := congrArg Pc.record here
  have early : ∀ outcome, s.pc t ≠ .cleanup call w outcome := by
    rw [here]
    exact nofun
  unfold expireStep
  split
  · rename_i linked
    have mem := (sound.repr.linked w).mp linked
    obtain ⟨xs', grants, -⟩ := sound.giveUp mem
    exact ⟨xs', .two (.giveUp (sound.private inside) mem grants) (.proceed inside early rfl nofun) rfl⟩
  · exact ⟨xs, .one (.proceed inside early rfl nofun)⟩

theorem given_up (mem : w ∈ xs) (grants : Grants (unlinkWaiter s.data w) (xs.erase w) (giveUp s w).data xs') :
    w ∉ xs' ∧ ((giveUp s w).data.waiter w).semaphore = 0 := by
  have unlinked := sound.unlink mem
  have gone : w ∉ xs.erase w := fun inside => (sound.repr.nodup.mem_erase_iff.mp inside).1 rfl
  refine ⟨fun inside => gone (grants_within grants w inside), ?_⟩
  rw [(keeps_grants grants unlinked.repr).outside w gone, unlink_apply ((sound.repr.linked w).mpr mem)]
  exact sound.unposted w mem

theorem cleanup_effects {outcome : Outcome} (here : s.pc t = .cleanup call w outcome)
    (ungranted : clean → Ungranted s t) : ∃ xs', Effects clean s xs ((waitCleanup s w).finish t call outcome) xs' := by
  unfold waitCleanup
  cases linked : (s.data.waiter w).linked with
  | true =>
    have mem := (sound.repr.linked w).mp linked
    have inside : (s.pc t).record = some (call, w) := congrArg Pc.record here
    obtain ⟨xs', grants, -⟩ := sound.giveUp mem
    obtain ⟨gone, unposted⟩ := given_up sound mem grants
    have still : Ungranted (giveUp s w) t := by
      have here' : (giveUp s w).pc t = .cleanup call w outcome := here
      rw [Ungranted, here']
      exact .inr unposted
    exact ⟨xs', .two (.giveUp (sound.private inside) mem grants) (.free here gone fun _ => still) rfl⟩
  | false =>
    have gone : w ∉ xs := by
      intro mem
      exact Bool.eq_false_iff.mp linked ((sound.repr.linked w).mpr mem)
    exact ⟨xs, .one (.free here gone ungranted)⟩

theorem unlock_effect (t : Nat) : ∃ xs', Effect clean s xs (unlockStep s t) xs' := by
  unfold unlockStep
  cases shared : s.data.pshared with
  | true =>
    rw [if_pos rfl]
    split
    · rename_i unlocked
      exact ⟨xs, .sharedUnlock shared unlocked⟩
    · exact ⟨xs, .stay⟩
  | false =>
    rw [if_neg Bool.false_ne_true]
    split
    · rename_i unlocked
      obtain ⟨released, release, rfl⟩ := private_unlock_cases unlocked
      obtain ⟨xs', grants, -⟩ := (sound.release release).wake
      exact ⟨xs', .unlock shared release grants⟩
    · exact ⟨xs, .stay⟩

theorem step_effects {move : Move} (moved : step s move = some s')
    (ends : clean → CleanEnds s move) : ∃ xs', Effects clean s xs s' xs' := by
  cases move with
  | call t write tryOnly timed =>
    simp only [step] at moved
    split at moved
    · rename_i may
      cases moved
      exact ⟨xs, .one (.call may.2 may.1)⟩
    · exact nomatch moved
  | acquire t late =>
    simp only [step] at moved
    split at moved
    · rename_i call tryOnly timed here
      cases moved
      cases shared : s.data.pshared with
      | true => exact ⟨xs, .one (shared_effect here shared)⟩
      | false => exact ⟨xs, .one (acquire_effect here shared)⟩
    · exact nomatch moved
  | alloc t made =>
    simp only [step] at moved
    split at moved
    · rename_i call here
      cases made with
      | none =>
        cases moved
        exact ⟨xs, .one (.fail .eagain (congrArg Pc.call here) (congrArg Pc.record here))⟩
      | some w =>
        simp only [allocStep] at moved
        split at moved
        · exact nomatch moved
        · rename_i fresh
          cases moved
          obtain ⟨null, free⟩ := not_or.mp fresh
          exact ⟨xs, .one (.allocate here null free)⟩
    · exact nomatch moved
  | enter t =>
    simp only [step] at moved
    split at moved
    · rename_i call w here
      cases moved
      obtain ⟨xs', effect⟩ : ∃ xs', Effect clean s xs (enterStep s t call w) xs' := enter_effect here
      exact ⟨xs', .one effect⟩
    · exact nomatch moved
  | wait t status =>
    simp only [step] at moved
    split at moved
    · rename_i call w here
      exact ⟨xs, .one (wait_effect here moved)⟩
    · exact nomatch moved
  | expire t =>
    simp only [step] at moved
    split at moved
    · rename_i call w here
      cases moved
      exact expire_effects sound here
    · exact nomatch moved
  | cleanup t =>
    simp only [step] at moved
    split at moved
    · rename_i call w outcome here
      cases moved
      exact cleanup_effects sound here ends
    · exact nomatch moved
  | unlock t =>
    simp only [step] at moved
    split at moved
    · cases moved
      obtain ⟨xs', effect⟩ : ∃ xs', Effect clean s xs (unlockStep s t) xs' := unlock_effect sound t
      exact ⟨xs', .one effect⟩
    · exact nomatch moved
  | setPriority t priority =>
    cases moved
    exact ⟨xs, .one (.setPriority _)⟩

end

theorem sound_initial {pshared : Bool} {priority : Nat → Nat} : Sound (initial pshared priority) [] where
  repr := ⟨⟨rfl, rfl⟩, List.nodup_nil, fun _ => ⟨nofun, nofun⟩, rfl⟩
  kept := nofun
  nodup := List.nodup_nil
  real := nofun
  mine := nofun
  fresh := nofun
  owned := nofun
  unposted := nofun
  fits _ := trivial
  nobody := rfl
  counted _ := ⟨rfl, .inl ⟨rfl, rfl⟩⟩

end
end Spicule.Rwlock
