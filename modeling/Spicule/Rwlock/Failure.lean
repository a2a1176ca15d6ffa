import Spicule.Rwlock.Effects

namespace Spicule.Rwlock
open List

structure Tickets (s : World) : Prop where
  below : ∀ t call, (s.pc t).call = some call → call.ticket < s.nextTicket
  pending : ∀ t call, (s.pc t).call = some call → ∀ e ∈ s.ended, e.1.ticket ≠ call.ticket
  past : ∀ e ∈ s.ended, e.1.ticket < s.nextTicket
  apart : ∀ t t' call call', (s.pc t).call = some call → (s.pc t').call = some call' → call.ticket = call'.ticket → t = t'
  once : (s.ended.map fun e => e.1.ticket).Nodup

def Justified (s : World) (hold : Hold) : Prop :=
  (hold, .acquired) ∈ s.ended ∨ ∃ call w, call.ticket = hold.ticket ∧ (s.pc hold.thread).record = some (call, w) ∧
    (s.pc hold.thread = .cleanup call w .acquired ∨ (s.data.waiter w).semaphore ≠ 0)

def RwlockData.holds (data : RwlockData) (hold : Hold) : Prop := hold ∈ data.readHolds ∨ hold ∈ data.writeHolds

section
variable {clean : Prop} {s s' : World} {data data' : RwlockData} {xs xs' : List Nat} {t : Nat} {call : Call} {w : Nat} {pc : Pc}
theorem Tickets.goto (tickets : Tickets s) (same : pc.call = (s.pc t).call) : Tickets (s.goto t pc) := by
  have calls : ∀ t', ((s.goto t pc).pc t').call = (s.pc t').call := by
    intro t'
    by_cases own : t' = t
    · rw [own, goto_here, same]
    · rw [goto_other own]
  constructor
  case below => exact fun t' call inside => tickets.below t' call ((calls t').symm.trans inside)
  case pending => exact fun t' call inside => tickets.pending t' call ((calls t').symm.trans inside)
  case past => exact tickets.past
  case apart =>
      exact fun t' t'' call call' one two => tickets.apart t' t'' call call' ((calls t').symm.trans one) ((calls t'').symm.trans two)
  case once => exact tickets.once

theorem Tickets.withData (tickets : Tickets s) (data : RwlockData) : Tickets (s.withData data) := { tickets with }

theorem rest_call (outcome : Outcome) : (rest outcome).call = none := by
  cases outcome <;> rfl

theorem Tickets.finish (tickets : Tickets s) (inside : (s.pc t).call = some call) (outcome : Outcome) :
    Tickets (s.finish t call outcome) := by
  have calls : ∀ t' call', ((s.finish t call outcome).pc t').call = some call' → t' ≠ t ∧ (s.pc t').call = some call' := by
    intro t' call' inside'
    by_cases own : t' = t
    · rw [own, finish_here, rest_call] at inside'
      exact nomatch inside'
    · rw [finish_other own] at inside'
      exact ⟨own, inside'⟩
  constructor
  case below => exact fun t' call' inside' => tickets.below t' call' (calls t' call' inside').2
  case pending =>
      intro t' call' inside' e mem
      obtain ⟨own, inside'⟩ := calls t' call' inside'
      rcases mem_cons.mp mem with rfl | old
      · exact fun same => own (tickets.apart t t' call call' inside inside' same).symm
      · exact tickets.pending t' call' inside' e old
  case past =>
      intro e mem
      rcases mem_cons.mp mem with rfl | old
      · exact tickets.below t call inside
      · exact tickets.past e old
  case apart =>
      exact fun t' t'' call' call'' one two => tickets.apart t' t'' call' call'' (calls t' call' one).2 (calls t'' call'' two).2
  case once =>
      refine nodup_cons.mpr ⟨fun mem => ?_, tickets.once⟩
      obtain ⟨e, old, same⟩ := mem_map.mp mem
      exact tickets.pending t call inside e old same

variable {write : Bool}
theorem Tickets.begin (tickets : Tickets s) {tryOnly timed : Bool} (idle : s.pc t = .idle) :
    Tickets (callStep s t write tryOnly timed) := by
  have calls : ∀ t' call', ((callStep s t write tryOnly timed).pc t').call = some call' →
      t' = t ∧ call'.ticket = s.nextTicket ∨ (s.pc t').call = some call' := by
    intro t' call' inside
    by_cases own : t' = t
    · subst own
      rw [callStep, goto_here] at inside
      cases inside
      exact .inl ⟨rfl, rfl⟩
    · rw [callStep, goto_other own] at inside
      exact .inr inside
  constructor
  case below =>
      intro t' call' inside
      rcases calls t' call' inside with ⟨-, new⟩ | old
      · exact Nat.lt_of_le_of_lt (Nat.le_of_eq new) (Nat.lt_succ_self _)
      · exact Nat.lt_succ_of_lt (tickets.below t' call' old)
  case pending =>
      intro t' call' inside e mem
      rcases calls t' call' inside with ⟨-, new⟩ | old
      · exact fun same => Nat.ne_of_lt (tickets.past e mem) (same.trans new)
      · exact tickets.pending t' call' old e mem
  case past => exact fun e mem => Nat.lt_succ_of_lt (tickets.past e mem)
  case apart =>
      intro t' t'' call' call'' one two same
      rcases calls t' call' one with ⟨here, new⟩ | old <;> rcases calls t'' call'' two with ⟨here', new'⟩ | old'
      · exact here.trans here'.symm
      · exact absurd (same.symm.trans new) (Nat.ne_of_lt (tickets.below t'' call'' old'))
      · exact absurd (same.trans new') (Nat.ne_of_lt (tickets.below t' call' old))
      · exact tickets.apart t' t'' call' call'' old old' same
  case once => exact tickets.once

theorem tickets_effect (tickets : Tickets s) (effect : Effect clean s xs s' xs') : Tickets s' := by
  cases effect with
  | stay => exact tickets
  | call idle thread => exact tickets.begin idle
  | fail error inside bare => exact tickets.finish inside _
  | @hold t call tryOnly timed data' here private' immediate =>
    have inside : ((s.withData data').pc t).call = some call := congrArg Pc.call here
    exact (tickets.withData data').finish inside _
  | @sharedHold t call tryOnly timed here shared available =>
    have inside : ((s.withData (sharedHold s.data ⟨t, call.ticket⟩ call.write)).pc t).call = some call :=
      congrArg Pc.call here
    exact (tickets.withData _).finish inside _
  | prepare here private' => exact tickets.goto (congrArg Pc.call here).symm
  | @allocate t call w here null free =>
    have gone : Tickets (s.goto t (.enter call w)) := tickets.goto (congrArg Pc.call here).symm
    exact { gone with }
  | enterHold here immediate => exact (tickets.withData _).goto (congrArg Pc.call here).symm
  | enqueue here refused => exact (tickets.withData _).goto (congrArg Pc.call here).symm
  | proceed inside early same entered => exact tickets.goto ((record_call same).trans (record_call inside).symm)
  | consume here posted => exact (tickets.withData _).goto (congrArg Pc.call here).symm
  | giveUp => exact tickets.withData _
  | @free t call w outcome here gone ungranted =>
    have ended := tickets.finish (congrArg Pc.call here) outcome
    exact { ended with }
  | unlock | sharedUnlock => exact tickets.withData _
  | setPriority => exact { tickets with }

theorem Granted.posted (granted : Granted data xs w data') (y : Nat) (posted : y = w ∨ (data.waiter y).semaphore ≠ 0) :
    (data'.waiter y).semaphore ≠ 0 := by
  rw [granted.semaphore]
  split
  · exact Nat.one_ne_zero
  · rename_i other
    exact posted.resolve_left other

theorem grants_posted (grants : Grants data xs data' xs') (repr : Repr data xs) (y : Nat)
    (posted : (data.waiter y).semaphore ≠ 0) : (data'.waiter y).semaphore ≠ 0 := by
  induction grants with
  | done => exact posted
  | read mem _ _ _ ih =>
    have granted := reader_granted repr mem
    exact ih granted.repr (granted.posted y (.inr posted))
  | write mem _ _ _ _ ih =>
    have granted := writer_granted repr mem
    exact ih granted.repr (granted.posted y (.inr posted))

theorem Granted.holds {mid : RwlockData} {hold : Hold} (granted : Granted data xs w mid) (mem : w ∈ xs)
    (rest : Grants mid (xs.erase w) data' xs') (own : mid.holds hold → hold = data.holdOf w ∨ data.holds hold)
    (later : mid.holds hold ∨ ∃ y ∈ xs.erase w, hold = mid.holdOf y ∧ (data'.waiter y).semaphore ≠ 0) :
    data.holds hold ∨ ∃ y ∈ xs, hold = data.holdOf y ∧ (data'.waiter y).semaphore ≠ 0 := by
  rcases later with held | ⟨y, inside, rfl, posted⟩
  · rcases own held with here | old
    · exact .inr ⟨w, mem, here, grants_posted rest granted.repr w (granted.posted w (.inl rfl))⟩
    · exact .inl old
  · refine .inr ⟨y, mem_of_mem_erase inside, ?_, posted⟩
    rw [RwlockData.holdOf, granted.owner, granted.ticket, RwlockData.holdOf]

theorem grants_holds (grants : Grants data xs data' xs') (repr : Repr data xs) (hold : Hold) (held : data'.holds hold) :
    data.holds hold ∨ ∃ y ∈ xs, hold = data.holdOf y ∧ (data'.waiter y).semaphore ≠ 0 := by
  induction grants with
  | done => exact .inl held
  | @read data data' xs xs' w mem _ _ rest ih =>
    have granted := reader_granted repr mem
    refine granted.holds mem rest (fun now => ?_) (ih granted.repr held)
    obtain ⟨-, reads, writes⟩ := grant_reader_fields data w
    rw [RwlockData.holds, reads, writes, mem_cons, or_assoc] at now
    exact now
  | @write data data' xs xs' w mem _ _ _ rest ih =>
    have granted := writer_granted repr mem
    refine granted.holds mem rest (fun now => ?_) (ih granted.repr held)
    obtain ⟨-, reads, writes⟩ := grant_writer_fields data w
    rw [RwlockData.holds, reads, writes, mem_cons, or_left_comm] at now
    exact now

variable {hold : Hold}

section
variable (justified : Justified s hold)
include justified

theorem Justified.mono (ended : ∀ e ∈ s.ended, e ∈ s'.ended)
    (keep : ∀ call w, call.ticket = hold.ticket → (s.pc hold.thread).record = some (call, w) →
      (s.pc hold.thread = .cleanup call w .acquired ∨ (s.data.waiter w).semaphore ≠ 0) → Justified s' hold) :
    Justified s' hold := by
  rcases justified with returned | ⟨call, w, same, record, granted⟩
  · exact .inl (ended _ returned)
  · exact keep call w same record granted

theorem Justified.leave (bare : (s.pc t).record = none) (pc : Pc) : Justified (s.goto t pc) hold := by
  refine justified.mono (fun _ mem => mem) fun call w same record granted => .inr ⟨call, w, same, ?_⟩
  have other : hold.thread ≠ t := by
    intro own
    rw [own, bare] at record
    exact nomatch record
  rw [goto_other other]
  exact ⟨record, granted⟩

theorem Justified.finish (bare : (s.pc t).record = none) (call : Call)
    (outcome : Outcome) : Justified (s.finish t call outcome) hold :=
  (justified.leave bare (rest outcome)).imp_left (mem_cons_of_mem _)

theorem Justified.proceed (inside : (s.pc t).record = some (call, w))
    (same : pc.record = some (call, w)) (granted : s.pc t = .cleanup call w .acquired ∨ (s.data.waiter w).semaphore ≠ 0 →
      pc = .cleanup call w .acquired ∨ (s.data.waiter w).semaphore ≠ 0) : Justified (s.goto t pc) hold := by
  refine justified.mono (fun _ mem => mem) fun call' w' ticket record grant => .inr ?_
  by_cases own : hold.thread = t
  · rw [own] at record grant
    cases inside.symm.trans record
    rw [own, goto_here]
    exact ⟨call, w, ticket, same, granted grant⟩
  · rw [goto_other own]
    exact ⟨call', w', ticket, record, grant⟩

theorem Justified.change (posts : ∀ t call w, (s.pc t).record = some (call, w) → s.pc t ≠ .cleanup call w .acquired →
      (s.data.waiter w).semaphore ≠ 0 → (data'.waiter w).semaphore ≠ 0) : Justified (s.withData data') hold := by
  refine justified.mono (fun _ mem => mem) fun call w ticket record granted => .inr ⟨call, w, ticket, record, ?_⟩
  by_cases done : s.pc hold.thread = .cleanup call w .acquired
  · exact .inl done
  · exact .inr (posts _ call w record done (granted.resolve_left done))

theorem Justified.keeps (same : data'.waiter = s.data.waiter) : Justified (s.withData data') hold :=
  justified.change fun _ _ w _ _ posted => by
    rw [same]
    exact posted

end

theorem immediate_holds {schedule : Schedule} {self : Hold} {hold : Hold}
    (immediate : rwlockTryImmediate schedule data self write = some data') (held : data'.holds hold) :
    (data.holds hold ∨ hold = self) ∧ data'.waiter = data.waiter := by
  obtain ⟨-, ⟨-, rfl⟩ | rfl⟩ := try_immediate_cases immediate
  · exact ⟨(held.imp_right mem_cons.mp).elim (.inl ∘ .inl) (Or.symm ∘ Or.imp_right .inr), rfl⟩
  · exact ⟨(held.imp_left mem_cons.mp).elim (Or.symm ∘ Or.imp_right .inl) (.inl ∘ .inr), rfl⟩

theorem shared_holds {self hold : Hold} (held : (sharedHold data self write).holds hold) :
    (data.holds hold ∨ hold = self) ∧ (sharedHold data self write).waiter = data.waiter := by
  cases write with
  | true => exact ⟨(held.imp_right mem_cons.mp).elim (.inl ∘ .inl) (Or.symm ∘ Or.imp_right .inr), rfl⟩
  | false => exact ⟨(held.imp_left mem_cons.mp).elim (Or.symm ∘ Or.imp_right .inl) (.inl ∘ .inr), rfl⟩

theorem shared_unlock_holds (unlocked : sharedUnlock data t = some data') (held : data'.holds hold) :
    data.holds hold ∧ data'.waiter = data.waiter := by
  unfold sharedUnlock at unlocked
  split at unlocked
  · exact nomatch unlocked
  · split at unlocked <;> cases unlocked
    · exact ⟨held.imp_right mem_of_mem_tail, rfl⟩
    · exact ⟨held.imp_left (release_subset _ t hold), rfl⟩

theorem released_holds {released : RwlockData} {hold : Hold} (release : Released data t released)
    (held : released.holds hold) : data.holds hold := by
  cases release with
  | writer => exact held.imp_right mem_of_mem_tail
  | reader some => exact held.imp_left (release_subset _ t hold)

theorem justified_grants {before : RwlockData} (sound : Sound (s.withData before) xs)
    (grants : Grants before xs data' xs')
    (justified : ∀ hold, before.holds hold → Justified s hold)
    (posts : ∀ y, (s.data.waiter y).semaphore ≠ 0 → (before.waiter y).semaphore ≠ 0) :
    ∀ hold, data'.holds hold → Justified (s.withData data') hold := by
  intro hold held
  rcases grants_holds grants sound.repr hold held with old | ⟨y, mem, rfl, posted⟩
  · refine (justified hold old).mono (fun _ mem => mem) fun call w same record granted => ?_
    exact .inr ⟨call, w, same, record, granted.imp_right fun post => grants_posted grants sound.repr w (posts w post)⟩
  · obtain ⟨t, call, record⟩ := sound.owned y mem
    have mine := sound.mine t call y record
    have owner : (before.waiter y).owner = t := mine.owner
    refine .inr ⟨call, y, mine.ticket.symm, ?_, .inr posted⟩
    change (s.pc (before.waiter y).owner).record = some (call, y)
    rw [owner]
    exact record

theorem Untouched.holds (untouched : Untouched data data') (held : data'.holds hold) : data.holds hold := by
  rw [RwlockData.holds, untouched.readHolds, untouched.writeHolds] at held
  exact held

theorem justified_effect (yes : clean) (sound : Sound s xs) (justified : ∀ hold, s.data.holds hold → Justified s hold)
    (effect : Effect clean s xs s' xs') : ∀ hold, s'.data.holds hold → Justified s' hold := by
  intro hold held
  cases effect with
  | stay | setPriority => exact justified hold held
  | @call t write tryOnly timed idle thread => exact (justified hold held).leave (congrArg Pc.record idle) _
  | @fail t call error inside bare => exact (justified hold held).finish bare call _
  | @hold t call tryOnly timed data' here private' immediate =>
    obtain ⟨old | rfl, same⟩ := immediate_holds immediate held
    · exact ((justified hold old).keeps same).finish (congrArg Pc.record here) call _
    · exact .inl mem_cons_self
  | @sharedHold t call tryOnly timed here shared available =>
    obtain ⟨old | rfl, same⟩ := shared_holds held
    · exact ((justified hold old).keeps same).finish (congrArg Pc.record here) call _
    · exact .inl mem_cons_self
  | @prepare t call tryOnly timed here private' => exact (justified hold held).leave (congrArg Pc.record here) _
  | @allocate t call w here null free =>
    have made : Justified (s.withData (s.data.modify w fun _ => record t call)) hold := by
      refine (justified hold held).change fun t' call' w' record' _ posted => ?_
      have other : w' ≠ w := fun same => free (same ▸ (sound.mine t' call' w' record').allocated)
      rw [modify_other other]
      exact posted
    exact made.leave (congrArg Pc.record here) _
  | @enterHold t call w data' here immediate =>
    obtain ⟨old | rfl, same⟩ := immediate_holds immediate held
    · exact ((justified hold old).keeps same).proceed (congrArg Pc.record here) rfl fun _ => .inl rfl
    · exact .inr ⟨call, w, rfl, congrArg Pc.record (goto_here _ t _), .inl (goto_here _ t _)⟩
  | @enqueue t call w here refused =>
    have other := sound.off_tail here
    have old := (enqueue_untouched other).holds held
    have queued : Justified (s.withData (enqueue s.data w)) hold := by
      refine (justified hold old).change fun t' call' w' _ _ posted => ?_
      rw [enqueue_apply s.data w w' other]
      exact posted
    refine queued.proceed (congrArg Pc.record here) rfl fun granted => .inr (granted.resolve_left fun done => ?_)
    exact nomatch here.symm.trans done
  | @proceed t call w pc inside early same entered =>
    exact (justified hold held).proceed inside same fun granted => .inr (granted.resolve_left (early .acquired))
  | @consume t call w here posted =>
    have inside : (s.pc t).record = some (call, w) := congrArg Pc.record here
    have passed : Justified (s.goto t (.cleanup call w .acquired)) hold :=
      (justified hold held).proceed inside rfl fun _ => .inl rfl
    refine passed.change fun t' call' w' record' going posted' => ?_
    by_cases own : t' = t
    · subst own
      rw [goto_here] at record' going
      cases record'
      exact absurd rfl going
    · rw [goto_other own] at record'
      have other : w' ≠ w := by
        rintro rfl
        exact own (sound.apart inside record')
      have kept := modify_other other s.data fun r => { r with semaphore := 0 }
      exact (congrArg RwWaiter.semaphore kept).trans_ne posted'
  | @giveUp w xs' private' mem grants =>
    have same := unlink_untouched s.data w
    refine justified_grants (sound.unlink mem) grants (fun hold held => justified hold (same.holds held))
      (fun y posted => ?_) hold held
    rw [unlink_apply ((sound.repr.linked w).mpr mem)]
    exact posted
  | @free t call w outcome here gone ungranted =>
    have inside : (s.pc t).record = some (call, w) := congrArg Pc.record here
    refine (justified hold held).mono (fun _ => mem_cons_of_mem _) fun call' w' ticket record granted => ?_
    by_cases own : hold.thread = t
    · rw [own] at record granted
      cases inside.symm.trans record
      have returned : outcome = .acquired := by
        by_contra failed
        rcases granted with done | posted
        · cases here.symm.trans done
          exact failed rfl
        · have kept := ungranted yes
          rw [Ungranted, here] at kept
          exact posted (kept.resolve_left failed)
      have whole : hold = ⟨t, call.ticket⟩ := by rw [ticket, ← own]
      rw [whole, returned]
      exact .inl mem_cons_self
    · refine .inr ⟨call', w', ticket, ?_⟩
      rw [finish_other own]
      exact ⟨record, granted⟩
  | @unlock t released xs' private' release grants =>
    refine justified_grants (sound.release release) grants (fun hold held => justified hold (released_holds release held))
      (fun y posted => ?_) hold held
    cases release <;> exact posted
  | @sharedUnlock t data' shared unlocked =>
    obtain ⟨old, same⟩ := shared_unlock_holds unlocked held
    exact (justified hold old).keeps same

structure Honest (s : World) (xs : List Nat) : Prop where
  sound : Sound s xs
  tickets : Tickets s
  justified : ∀ hold, s.data.holds hold → Justified s hold

theorem honest_effect (yes : clean) (honest : Honest s xs) (effect : Effect clean s xs s' xs') : Honest s' xs' :=
  ⟨sound_effect honest.sound effect, tickets_effect honest.tickets effect,
    justified_effect yes honest.sound honest.justified effect⟩

theorem honest_effects (yes : clean) (honest : Honest s xs) (effects : Effects clean s xs s' xs') : Honest s' xs' := by
  cases effects with
  | one effect => exact honest_effect yes honest effect
  | two first second => exact honest_effect yes (honest_effect yes honest first) second

theorem honest_run {pshared : Bool} {priority : Nat → Nat}
    (run : Reach CleanEnds (initial pshared priority) s) : ∃ xs, Honest s xs := by
  induction run with
  | start =>
    refine ⟨[], sound_initial, ⟨nofun, nofun, nofun, nofun, nodup_nil⟩, ?_⟩
    rintro hold (read | written)
    · exact nomatch read
    · exact nomatch written
  | @step s s' move before meets moved ih =>
    obtain ⟨xs, honest⟩ := ih
    obtain ⟨xs', effects⟩ : ∃ xs', Effects True s xs s' xs' := step_effects honest.sound moved fun _ => meets
    exact ⟨xs', honest_effects trivial honest effects⟩

structure Gone (s : World) (hold : Hold) : Prop where
  reader : ∀ other ∈ s.data.readHolds, other.ticket ≠ hold.ticket
  writer : ∀ other ∈ s.data.writeHolds, other.ticket ≠ hold.ticket
  counted : s.data.pshared = false → Counted s.data
  queue : ∀ w, (s.data.waiter w).linked = true → (s.data.waiter w).ticket ≠ hold.ticket

theorem ended_unique (tickets : Tickets s) {one two : Hold × Outcome} (first : one ∈ s.ended) (second : two ∈ s.ended)
    (same : one.1.ticket = two.1.ticket) : one = two :=
  inj_on_of_nodup_map tickets.once first second same

theorem honest_gone (honest : Honest s xs) {hold : Hold} {outcome : Outcome} (ended : (hold, outcome) ∈ s.ended)
    (failed : outcome ≠ .acquired) : Gone s hold := by
  have unheld : ∀ other, s.data.holds other → other.ticket ≠ hold.ticket := by
    intro other held same
    rcases honest.justified other held with returned | ⟨call, w, ticket, record, -⟩
    · cases ended_unique honest.tickets returned ended same
      exact failed rfl
    · exact honest.tickets.pending _ call (record_call record) _ ended (same.symm.trans ticket.symm)
  refine ⟨fun other read => unheld other (.inl read), fun other written => unheld other (.inr written),
    honest.sound.counted, fun w linked same => ?_⟩
  have mem := (honest.sound.repr.linked w).mp linked
  obtain ⟨t, call, record⟩ := honest.sound.owned w mem
  have ticket := (honest.sound.mine t call w record).ticket
  exact honest.tickets.pending t call (record_call record) _ ended (same.symm.trans ticket)

theorem rwlock_failure (pshared : Bool) (priority : Nat → Nat) (s : World)
    (run : Reach CleanEnds (initial pshared priority) s)
    (hold : Hold) (outcome : Outcome) (ended : (hold, outcome) ∈ s.ended) (failed : outcome ≠ .acquired) : Gone s hold := by
  obtain ⟨xs, honest⟩ := honest_run run
  exact honest_gone honest ended failed

def timeOut : List Move :=
  [.call 1 true false true, .acquire 1 false,
   .call 2 true false true, .acquire 2 false, .alloc 2 (some 10), .enter 2,
   .wait 2 .timeout, .expire 2, .cleanup 2]

theorem rwlock_failure_time_out : ∃ s, runs CleanEnds (initial false fun _ => 0) timeOut = some s ∧
    (⟨2, 1⟩, .failed .etimedout) ∈ s.ended ∧ Gone s ⟨2, 1⟩ := by
  refine ⟨_, rfl, mem_cons_self, ?_⟩
  exact rwlock_failure false (fun _ => 0) _ (reach_runs .start timeOut rfl) ⟨2, 1⟩ (.failed .etimedout)
    mem_cons_self nofun

def lateGrant : List Move :=
  [.call 1 true false true, .acquire 1 false,
   .call 2 true false true, .acquire 2 false, .alloc 2 (some 10), .enter 2,
   .wait 2 .cancelled, .unlock 1, .cleanup 2]

theorem cancelled_writer : ∃ s, Reach (fun _ _ => True) (initial false fun _ => 0) s ∧
    (⟨2, 1⟩, .cancelled) ∈ s.ended ∧ s.data.writer = 2 ∧ ¬ Gone s ⟨2, 1⟩ := by
  refine ⟨_, reach_runs (s := initial false fun _ => 0) .start lateGrant rfl, mem_cons_self, rfl, fun gone => ?_⟩
  exact gone.writer ⟨2, 1⟩ mem_cons_self rfl

end
end Spicule.Rwlock
