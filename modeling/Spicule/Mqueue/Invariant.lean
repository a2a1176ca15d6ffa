import Spicule.Mqueue.Ledger

namespace Spicule.Mqueue
open List Crowd

structure History (q : Queue) : Prop where
  once : (List.range q.sent.length).Perm (q.delivered.map (fun d => d.entry.tag) ++ q.entries.map Entry.tag)
  queued : ∀ e ∈ q.entries, q.sent[e.tag]? = some e.message
  stamped : ∀ i < q.maxmsg, (q.slot i).used ≠ 0 → (q.slot i).sequence = (q.tag i + 1) % 2 ^ 64
  taken : ∀ d ∈ q.delivered, q.sent[d.entry.tag]? = some d.entry.message ∧ d.entry ∈ d.present ∧
    ∀ e ∈ d.present, e.message.priority < d.entry.message.priority ∨
      e.message.priority = d.entry.message.priority ∧ (d.entry.tag + 1) % 2 ^ 64 ≤ (e.tag + 1) % 2 ^ 64

section
variable {q q' : Queue} {d d' : Duty} {t t' : Tally}
theorem history_fill {m : Message} {slot : Nat} (history : History q) (bound : slot < q.maxmsg)
    (unused : (q.slot slot).used = 0) (written : (q.text slot).take m.text.length = m.text)
    (stamp : q.header.sequence = (q.sent.length + 1) % 2 ^ 64) : History (q.filled m slot) := by
  have entries := entries_filled bound unused written
  have later : ∀ (i : Nat) (message : Message), q.sent[i]? = some message → (q.sent ++ [m])[i]? = some message := by
    intro i message found
    rw [List.getElem?_append_left (List.getElem?_eq_some_iff.mp found).1]
    exact found
  constructor
  · have range : List.range (q.sent ++ [m]).length = List.range q.sent.length ++ [q.sent.length] := by
      rw [length_append, length_singleton, range_succ]
    have first : (List.range (q.sent ++ [m]).length).Perm
        (q.sent.length :: (q.delivered.map (fun d => d.entry.tag) ++ q.entries.map Entry.tag)) := by
      rw [range]
      exact (perm_append_singleton _ _).trans (history.once.cons _)
    exact (first.trans perm_middle.symm).trans ((entries.map Entry.tag).symm.append_left _)
  · intro e mem
    rcases mem_cons.mp (entries.mem_iff.mp mem) with rfl | mem
    · exact List.getElem?_concat_length
    · exact later _ _ (history.queued e mem)
  · intro i below used
    by_cases same : i = slot
    · subst same
      simp only [Queue.filled, Function.update_self, newSlot]
      exact stamp
    · simp only [Queue.filled, Function.update_of_ne same] at used ⊢
      exact history.stamped i below used
  · intro d mem
    obtain ⟨found, rest⟩ := history.taken d mem
    exact ⟨later _ _ found, rest⟩

section
variable {best : MqSlot} {selected : Nat} (history : History q) (bound : selected < q.maxmsg) (used : best.used ≠ 0)
  (chosen : q.slot selected = best)
  (first : ∀ i < q.maxmsg, (q.slot i).used ≠ 0 → (q.slot i).priority < best.priority ∨
    (q.slot i).priority = best.priority ∧ best.sequence ≤ (q.slot i).sequence)
include history bound used chosen first

theorem entry_first : ∀ e ∈ q.entries, e.message.priority < best.priority ∨
      e.message.priority = best.priority ∧ (q.tag selected + 1) % 2 ^ 64 ≤ (e.tag + 1) % 2 ^ 64 := by
  intro e mem
  obtain ⟨i, below, held⟩ := Table.mem_contents.mp mem
  unfold Queue.entry at held
  split at held
  · exact nomatch held
  · rename_i busy
    obtain rfl := Option.some.inj held
    have ranked := first i below busy
    have own := history.stamped selected bound (chosen ▸ used)
    rw [chosen] at own
    rw [own, history.stamped i below busy] at ranked
    exact ranked

theorem history_clear {text : Diff.Bytes} (read : text = (q.text selected).take best.length) :
    History (q.cleared best selected text) := by
  have entries := entries_cleared bound used chosen read
  have own : (⟨q.tag selected, ⟨best.priority, text⟩⟩ : Entry) ∈ q.entries := entries.mem_iff.mpr mem_cons_self
  constructor
  · have tags : (q.entries.map Entry.tag).Perm (q.tag selected :: (q.cleared best selected text).entries.map Entry.tag) :=
      entries.map Entry.tag
    have moved := history.once.trans (tags.append_left _)
    simpa only [Queue.cleared, map_append, map_cons, map_nil, append_assoc, singleton_append] using moved
  · intro e mem
    exact history.queued e (entries.mem_iff.mpr (mem_cons_of_mem _ mem))
  · intro i below busy
    by_cases same : i = selected
    · subst same
      simp only [Queue.cleared, Function.update_self, emptySlot] at busy
      exact absurd rfl busy
    · simp only [Queue.cleared, Function.update_of_ne same] at busy ⊢
      exact history.stamped i below busy
  · intro d mem
    rcases mem_append.mp mem with earlier | here
    · exact history.taken d earlier
    · obtain rfl := mem_singleton.mp here
      exact ⟨history.queued _ own, own, entry_first history bound used chosen first⟩

end

theorem effect_history (effect : Effect q d q' d') (history : History q)
    (stamp : d.inside = true → d.counting = false → d.uncounting = false →
      q.header.sequence = (q.sent.length + 1) % 2 ^ 64) : History q' := by
  cases effect with
  | @text slot bytes unused =>
    have same := entries_text bytes unused
    exact ⟨by rw [same]; exact history.once, by rw [same]; exact history.queued, history.stamped, history.taken⟩
  | fill bound unused fits written => exact history_fill history bound unused written (stamp rfl rfl rfl)
  | clear bound used chosen read first => exact history_clear history bound used chosen first read
  | _ => exact { history with }

structure SameFile (q q' : Queue) : Prop where
  maxmsg : q'.maxmsg = q.maxmsg
  msgsize : q'.msgsize = q.msgsize
  header : q'.header = q.header
  slot : q'.slot = q.slot
  text : q'.text = q.text

theorem effect_same_file (effect : Effect q d q' d') (outside : d.inside = false) : SameFile q q' := by
  cases effect with
  | release inside => exact absurd (inside.symm.trans outside) nofun
  | makeItems | makeSpaces => exact nomatch outside
  | edit inside => exact absurd (inside.symm.trans outside) nofun
  | text | fill | count | clear | uncount => exact nomatch outside
  | _ => exact ⟨rfl, rfl, rfl, rfl, rfl⟩

structure Grown (q q' : Queue) : Prop where
  delivered : ∀ x ∈ q.delivered, x ∈ q'.delivered
  returned : ∀ x ∈ q.returned, x ∈ q'.returned

theorem Grown.took {got : Entry} (grown : Grown q q') (took : Took q got) : Took q' got := by
  obtain ⟨d, mem, same⟩ := took
  exact ⟨d, grown.delivered d mem, same⟩

theorem effect_grown (effect : Effect q d q' d') : Grown q q' := by
  cases effect with
  | clear => exact ⟨fun x mem => mem_append_left _ mem, fun x mem => mem⟩
  | postSpace => exact ⟨fun x mem => mem, fun x mem => mem_append_left _ mem⟩
  | _ => exact ⟨fun x mem => mem, fun x mem => mem⟩

theorem local_same_file {pc : Pc} (same : SameFile q q') (grown : Grown q q') (here : Local q pc) : Local q' pc := by
  obtain ⟨maxmsg, msgsize, header, slot, text⟩ := same
  cases pc
  case ready last =>
    cases last with
    | received got => exact grown.returned got here
    | _ => trivial
  case receiveCount h got => exact ⟨header ▸ here.1, grown.took here.2⟩
  case receiveGive got => exact grown.took here
  case receivePost got => exact grown.took here
  all_goals
    simp only [Local, Best, readable, maxmsg, msgsize, header, slot, text] at here ⊢
    try exact here

theorem local_outside {pc : Pc} (outside : pc.inside = false) (msgsize : q'.msgsize = q.msgsize) (grown : Grown q q')
    (here : Local q pc) : Local q' pc := by
  cases pc
  case ready last =>
    cases last with
    | received got => exact grown.returned got here
    | _ => trivial
  case receivePost got => exact grown.took here
  all_goals first
    | exact Bool.noConfusion outside
    | trivial
    | (simp only [Local, msgsize] at here ⊢; exact here)

end

structure Handles (q : Queue) (pc : Pc) : Prop where
  lock : pc.hasLock = true → q.lock ≠ none
  items : pc.hasItems = true → q.items ≠ none
  spaces : pc.hasSpaces = true → q.spaces ≠ none

def carriedBy (threads : List Pc) (i : Nat) : Option Entry := threads[i]?.bind Pc.carries

-- What was delivered is on its way in one thread or returned, not both and not twice.
structure Single (s : Sys) : Prop where
  once : (s.queue.returned.map Entry.tag).Nodup
  made : ∀ got ∈ s.queue.returned, Took s.queue got
  pending : ∀ i got, carriedBy s.threads i = some got → Took s.queue got ∧ got.tag ∉ s.queue.returned.map Entry.tag
  apart : ∀ i j got got', carriedBy s.threads i = some got → carriedBy s.threads j = some got' → got.tag = got'.tag → i = j

structure Inv (s : Sys) : Prop where
  ledger : Ledger s.queue (tally s.threads)
  handles : ∀ pc ∈ s.threads, Handles s.queue pc
  history : History s.queue
  locals : ∀ (i : Nat) (pc : Pc), s.threads[i]? = some pc → Local s.queue pc
  single : Single s

theorem inside_has_lock {pc : Pc} (inside : pc.inside = true) : pc.hasLock = true := by
  cases pc <;> first | rfl | exact Bool.noConfusion inside

theorem item_has_items {pc : Pc} (duty : pc.holdsItem = true ∨ pc.owesItem = true) : pc.hasItems = true := by
  cases pc <;> first | rfl | (rcases duty with duty | duty <;> exact Bool.noConfusion duty)

theorem space_has_spaces {pc : Pc} (duty : pc.holdsSpace = true ∨ pc.owesSpace = true) : pc.hasSpaces = true := by
  cases pc <;> first | rfl | (rcases duty with duty | duty <;> exact Bool.noConfusion duty)

theorem counting_flags (pc : Pc) : flag pc.counting + flag pc.uncounting ≤ flag pc.inside := by
  cases pc <;> first | exact Nat.zero_le _ | exact Nat.le_refl _

theorem tally_window {threads : List Pc} :
    (tally threads).counting + (tally threads).uncounting ≤ (tally threads).inside := by
  simp only [tally]
  induction threads with
  | nil => exact le_refl 0
  | cons pc rest ih =>
    have own := counting_flags pc
    simp only [countP_cons, flag] at own ⊢
    omega

section
variable {s t : Sys} {i : Nat} {pc : Pc}
theorem nobody_counts {duty : Pc → Bool} (idle : ∀ other ∈ s.threads, ¬ duty other = true) : s.threads.countP duty = 0 :=
  count_zero fun other mem => Bool.eq_false_iff.mpr (idle other mem)

theorem tally_alone (inv : Inv s) (here : s.threads[i]? = some pc) (inside : pc.inside = true)
    (counted : pc.counting = false) (uncounted : pc.uncounting = false) :
    (tally s.threads).counting = 0 ∧ (tally s.threads).uncounting = 0 := by
  have one : s.threads.countP Pc.inside ≤ 1 := by
    have lock := inv.ledger.lock
    simp only [tally] at lock
    omega
  have only : ∀ other ∈ s.threads, other.inside = true → other = pc := by
    intro other mem otherInside
    obtain ⟨j, found⟩ := mem_iff_getElem?.mp mem
    have same := count_unique one here found inside otherInside
    subst same
    exact Option.some.inj (found.symm.trans here)
  constructor
  · refine nobody_counts fun other mem busy => ?_
    cases out : other.inside with
    | false => exact Bool.eq_false_iff.mp (counting_inside out).1 busy
    | true => exact Bool.eq_false_iff.mp counted (only other mem out ▸ busy)
  · refine nobody_counts fun other mem busy => ?_
    cases out : other.inside with
    | false => exact Bool.eq_false_iff.mp (counting_inside out).2 busy
    | true => exact Bool.eq_false_iff.mp uncounted (only other mem out ▸ busy)

theorem tally_items (inv : Inv s) (gone : s.queue.items = none) :
    (tally s.threads).holdsItem = 0 ∧ (tally s.threads).owesItem = 0 :=
  ⟨nobody_counts fun other mem busy => (inv.handles other mem).items (item_has_items (.inl busy)) gone,
    nobody_counts fun other mem busy => (inv.handles other mem).items (item_has_items (.inr busy)) gone⟩

theorem tally_spaces (inv : Inv s) (gone : s.queue.spaces = none) :
    (tally s.threads).holdsSpace = 0 ∧ (tally s.threads).owesSpace = 0 :=
  ⟨nobody_counts fun other mem busy => (inv.handles other mem).spaces (space_has_spaces (.inl busy)) gone,
    nobody_counts fun other mem busy => (inv.handles other mem).spaces (space_has_spaces (.inr busy)) gone⟩

theorem sheltered (inv : Inv s) (here : s.threads[i]? = some pc) : Sheltered s.queue pc where
  readable := inv.ledger.readable
  lengths := inv.ledger.lengths
  room := by
    intro holds
    have books := inv.ledger.spaces
    have own : 0 < s.threads.countP Pc.holdsSpace := count_pos here holds
    simp only [tally] at books
    by_contra none
    have full : s.queue.used = s.queue.maxmsg := by
      apply Table.contents_full
      intro j below empty
      unfold Queue.entry at empty
      split at empty
      · rename_i unused
        exact none ⟨j, below, unused⟩
      · exact nomatch empty
    omega
  stock := by
    intro holds inside
    have books := inv.ledger.items
    have own : 0 < s.threads.countP Pc.holdsItem := count_pos here holds
    have settled := tally_alone inv here inside (holds_not_counting holds).1 (holds_not_counting holds).2
    have counted := inv.ledger.counted
    simp only [tally] at books settled counted
    refine ⟨by omega, ?_⟩
    by_contra none
    have empty : s.queue.used = 0 := by
      rw [Queue.used, Queue.entries, Table.contents_empty, length_nil]
      intro j below
      unfold Queue.entry
      split
      · rfl
      · rename_i used
        exact absurd ⟨j, below, used⟩ none
    omega

end

section
variable {q q' : Queue} {pc pc' : Pc} {label : Label}
theorem give_present {sem : Option Sem} (present : sem ≠ none) : give sem ≠ none := by
  cases sem with
  | none => exact absurd rfl present
  | some s => exact nofun

theorem effect_present {d d' : Duty} (effect : Effect q d q' d') :
    (q.lock ≠ none → q'.lock ≠ none) ∧ (q.items ≠ none → q'.items ≠ none) ∧ (q.spaces ≠ none → q'.spaces ≠ none) := by
  cases effect with
  | take => exact ⟨fun _ => nofun, id, id⟩
  | release => exact ⟨give_present, id, id⟩
  | reserve => exact ⟨id, id, fun _ => nofun⟩
  | acquire => exact ⟨id, fun _ => nofun, id⟩
  | postItem | returnItem => exact ⟨id, give_present, id⟩
  | postSpace | returnSpace => exact ⟨id, id, give_present⟩
  | makeLock =>
    refine ⟨fun present => ?_, id, id⟩
    cases held : q.lock with
    | none => exact absurd held present
    | some sem => exact nofun
  | makeItems => exact ⟨id, fun _ => nofun, id⟩
  | makeSpaces => exact ⟨id, id, fun _ => nofun⟩
  | _ => exact ⟨id, id, id⟩

structure Opens (q' : Queue) (pc pc' : Pc) : Prop where
  lock : pc'.hasLock = true → pc.hasLock = true ∨ q'.lock ≠ none
  items : pc'.hasItems = true → pc.hasItems = true ∨ q'.items ≠ none
  spaces : pc'.hasSpaces = true → pc.hasSpaces = true ∨ q'.spaces ≠ none

theorem never {p : Prop} (impossible : false = true) : p := Bool.noConfusion impossible

theorem open_opens {a : Answer} {io : Transfer} (moved : openStep q a io pc = some (q', pc')) : Opens q' pc pc' := by
  have stays : ∀ {r : Queue} {next : Pc}, some (r, next) = some (q', pc') → Opens r pc next → Opens q' pc pc' := by
    intro r next same opens
    cases same
    exact opens
  cases pc
  case openLock =>
    simp only [openStep] at moved
    split at moved
    · exact stays moved ⟨fun _ => .inr (by cases q.lock <;> simp [createSem]), never, never⟩
    · exact stays moved ⟨never, never, never⟩
  case openTake =>
    rcases take_lock_cases moved with ⟨c, k, held, rfl, rfl⟩ | ⟨rfl, rfl⟩
    · exact ⟨fun _ => .inl rfl, never, never⟩
    · exact ⟨never, never, never⟩
  case openItems h =>
    simp only [openStep] at moved
    split at moved
    · split at moved
      · exact stays moved ⟨fun _ => .inl rfl, fun _ => .inr (Option.some_ne_none _), never⟩
      · exact stays moved ⟨fun _ => .inl rfl, never, never⟩
    · exact stays moved ⟨fun _ => .inl rfl, never, never⟩
  case openSpaces h =>
    simp only [openStep] at moved
    split at moved
    · split at moved
      · exact stays moved ⟨fun _ => .inl rfl, fun _ => .inl rfl, fun _ => .inr (Option.some_ne_none _)⟩
      · exact stays moved ⟨fun _ => .inl rfl, never, never⟩
    · exact stays moved ⟨fun _ => .inl rfl, never, never⟩
  case openRead =>
    simp only [openStep] at moved
    split at moved <;> exact stays moved ⟨fun _ => .inl rfl, never, never⟩
  case openUndo | closeLock => exact stays moved ⟨never, never, never⟩
  case closeItems => exact stays moved ⟨fun _ => .inl rfl, never, never⟩
  case openGive | closeSpaces => exact ⟨fun _ => .inl rfl, fun _ => .inl rfl, fun _ => .inl rfl⟩
  all_goals cases moved

theorem act_opens (acted : act q pc label = some (q', pc')) : Opens q' pc pc' := by
  by_cases whole : pc.hasLock = true ∧ pc.hasItems = true ∧ pc.hasSpaces = true
  · exact ⟨fun _ => .inl whole.1, fun _ => .inl whole.2.1, fun _ => .inl whole.2.2⟩
  · cases label with
    | go a =>
      refine open_opens (?_ : openStep q a (rawIo a.gots (pc.ioSize q)) pc = some (q', pc'))
      cases pc <;> first | exact acted | exact absurd ⟨rfl, rfl, rfl⟩ whole
    | die =>
      simp only [act] at acted
      split at acted
      · cases acted
      · cases acted
        exact ⟨never, never, never⟩
    | «open» =>
      cases pc
      case closed =>
        cases acted
        exact ⟨never, never, never⟩
      all_goals cases acted
    | _ => cases pc <;> first | exact absurd ⟨rfl, rfl, rfl⟩ whole | cases acted

theorem act_handles {d d' : Duty} (acted : act q pc label = some (q', pc')) (effect : Effect q d q' d')
    (handles : Handles q pc) : Handles q' pc' where
  lock := by
    intro after
    cases before : pc.hasLock with
    | true => exact (effect_present effect).1 (handles.lock before)
    | false => exact ((act_opens acted).lock after).resolve_left (Bool.eq_false_iff.mp before)
  items := by
    intro after
    cases before : pc.hasItems with
    | true => exact (effect_present effect).2.1 (handles.items before)
    | false => exact ((act_opens acted).items after).resolve_left (Bool.eq_false_iff.mp before)
  spaces := by
    intro after
    cases before : pc.hasSpaces with
    | true => exact (effect_present effect).2.2 (handles.spaces before)
    | false => exact ((act_opens acted).spaces after).resolve_left (Bool.eq_false_iff.mp before)

end

section
variable {s t : Sys}
theorem effect_carries {q q' : Queue} {d d' : Duty} (effect : Effect q d q' d') :
    (q'.delivered = q.delivered ∧ q'.returned = q.returned ∧ (d'.carries = none ∨ d'.carries = d.carries)) ∨
    (∃ got, d'.carries = some got ∧ got ∈ q.entries ∧ q'.delivered = q.delivered ++ [⟨got, q.entries⟩] ∧
      q'.returned = q.returned) ∨
    ∃ got, d.carries = some got ∧ d'.carries = none ∧ q'.delivered = q.delivered ∧ q'.returned = q.returned ++ [got] := by
  cases effect with
  | clear bound used chosen read first =>
    exact .inr (.inl ⟨_, rfl, (entries_cleared bound used chosen read).mem_iff.mpr mem_cons_self, rfl, rfl⟩)
  | postSpace got => exact .inr (.inr ⟨got, rfl, rfl, rfl, rfl⟩)
  | _ => first | exact .inl ⟨rfl, rfl, .inl rfl⟩ | exact .inl ⟨rfl, rfl, .inr rfl⟩

theorem carried_set {threads : List Pc} {i j : Nat} {pc : Pc} {got : Entry}
    (found : carriedBy (threads.set i pc) j = some got) :
    j = i ∧ pc.carries = some got ∨ j ≠ i ∧ carriedBy threads j = some got := by
  obtain ⟨other, here, carries⟩ := Option.bind_eq_some_iff.mp found
  rcases get_set here with ⟨rfl, rfl⟩ | ⟨elsewhere, here⟩
  · exact .inl ⟨rfl, carries⟩
  · exact .inr ⟨elsewhere.symm, Option.bind_eq_some_iff.mpr ⟨other, here, carries⟩⟩

theorem entry_fresh {q : Queue} (history : History q) {got : Entry} (queued : got ∈ q.entries) {x : Entry}
    (took : Took q x) : x.tag ≠ got.tag := by
  obtain ⟨d, mem, rfl⟩ := took
  have distinct := history.once.nodup_iff.mp nodup_range
  exact (nodup_append.mp distinct).2.2 _ (mem_map_of_mem mem) _ (mem_map_of_mem queued)

theorem single_thread {i : Nat} {pc pc' : Pc} {q' : Queue} (history : History s.queue) (single : Single s)
    (here : s.threads[i]? = some pc) (effect : Effect s.queue pc.duty q' pc'.duty) :
    Single ⟨q', s.threads.set i pc'⟩ := by
  have grown := effect_grown effect
  have own : carriedBy s.threads i = pc.carries := by rw [carriedBy, here, Option.bind_some]
  rcases effect_carries effect with ⟨_, returned, carries⟩ | ⟨got, carries, queued, delivered, returned⟩ |
    ⟨got, carried, carries, _, returned⟩
  · have before : ∀ j x, carriedBy (s.threads.set i pc') j = some x → carriedBy s.threads j = some x := by
      intro j x found
      rcases carried_set found with ⟨rfl, now⟩ | ⟨_, found⟩
      · rcases carries with none | same
        · exact nomatch none.symm.trans now
        · exact own.trans (same.symm.trans now)
      · exact found
    refine ⟨returned ▸ single.once, fun x mem => grown.took (single.made x (returned ▸ mem)), fun j x found => ?_,
      fun j k x y first second => single.apart j k x y (before j x first) (before k y second)⟩
    obtain ⟨took, absent⟩ := single.pending j x (before j x found)
    exact ⟨grown.took took, returned ▸ absent⟩
  -- no thread carries the tag yet, and no receive has returned it
  · have fresh : ∀ x, Took s.queue x → x.tag ≠ got.tag := fun x => entry_fresh history queued
    have now : pc'.carries = some got := carries
    refine ⟨returned ▸ single.once, fun x mem => grown.took (single.made x (returned ▸ mem)), ?_, ?_⟩
    · intro j x found
      rcases carried_set found with ⟨rfl, same⟩ | ⟨_, found⟩
      · obtain rfl := Option.some.inj (now.symm.trans same)
        refine ⟨⟨_, delivered ▸ mem_append_right _ (mem_singleton_self _), rfl⟩, fun mem => ?_⟩
        obtain ⟨y, old, tags⟩ := mem_map.mp mem
        exact fresh y (single.made y (returned ▸ old)) tags
      · obtain ⟨took, absent⟩ := single.pending j x found
        exact ⟨grown.took took, returned ▸ absent⟩
    · intro j k x y first second tags
      rcases carried_set first with ⟨at_, same⟩ | ⟨_, before⟩ <;>
        rcases carried_set second with ⟨at', same'⟩ | ⟨_, before'⟩
      · exact at_.trans at'.symm
      · obtain rfl := Option.some.inj (now.symm.trans same)
        exact absurd tags.symm (fresh y (single.pending k y before').1)
      · obtain rfl := Option.some.inj (now.symm.trans same')
        exact absurd tags (fresh x (single.pending j x before).1)
      · exact single.apart j k x y before before' tags
  · obtain ⟨took, absent⟩ := single.pending i got (own.trans carried)
    have before : ∀ j x, carriedBy (s.threads.set i pc') j = some x → j ≠ i ∧ carriedBy s.threads j = some x := by
      intro j x found
      rcases carried_set found with ⟨rfl, now⟩ | found
      · exact nomatch carries.symm.trans now
      · exact found
    refine ⟨?_, ?_, ?_, fun j k x y first second =>
      single.apart j k x y (before j x first).2 (before k y second).2⟩
    · change (q'.returned.map Entry.tag).Nodup
      rw [returned, map_append]
      exact nodup_append.mpr ⟨single.once, nodup_singleton _, fun x mem y last same =>
        absent (mem_singleton.mp last ▸ same ▸ mem)⟩
    · intro x mem
      rcases mem_append.mp (returned ▸ mem) with old | last
      · exact grown.took (single.made x old)
      · exact grown.took (mem_singleton.mp last ▸ took)
    · intro j x found
      obtain ⟨elsewhere, found⟩ := before j x found
      obtain ⟨tookx, absentx⟩ := single.pending j x found
      refine ⟨grown.took tookx, fun mem => ?_⟩
      rw [show q'.returned = _ from returned, map_append] at mem
      rcases mem_append.mp mem with old | last
      · exact absentx old
      · exact elsewhere (single.apart j i x got found (own.trans carried) (mem_singleton.mp last))

theorem thread_inv {i : Nat} {label : Label} {pc pc' : Pc} {q' : Queue} (inv : Inv s) (here : s.threads[i]? = some pc)
    (flawless : ∀ a, label = .go a → rawIo a.gots (pc.ioSize s.queue) = .complete)
    (acted : act s.queue pc label = some (q', pc')) : Inv ⟨q', s.threads.set i pc'⟩ := by
  obtain ⟨effect, own⟩ := act_effect (inv.locals i pc here) (sheltered inv here) flawless acted
  have handles := inv.handles pc (mem_of_getElem? here)
  have alone := tally_alone inv here
  constructor
  · exact effect_ledger effect inv.ledger (tally_set here) alone (tally_window)
      (flag_le_count Pc.owesSpace here) (tally_items inv) (tally_spaces inv)
  · intro other mem
    rcases mem_or_eq_of_mem_set mem with earlier | rfl
    · have old := inv.handles other earlier
      have present := effect_present effect
      exact ⟨fun has => present.1 (old.lock has), fun has => present.2.1 (old.items has),
        fun has => present.2.2 (old.spaces has)⟩
    · exact act_handles acted effect handles
  · refine effect_history effect inv.history fun inside counted uncounted => ?_
    have settled := (alone inside counted uncounted).1
    have sequence := inv.ledger.sequence
    have small := inv.ledger.small
    rw [settled, Nat.add_zero, Nat.mod_eq_of_lt small] at sequence
    exact sequence
  · intro j other found
    rcases get_set found with ⟨rfl, rfl⟩ | ⟨elsewhere, found⟩
    · exact own
    · have old := inv.locals j other found
      cases inside : pc.inside with
      | false => exact local_same_file (effect_same_file effect inside) (effect_grown effect) old
      | true =>
        have outside : other.inside = false := by
          cases also : other.inside with
          | false => rfl
          | true =>
            have lock := inv.ledger.lock
            simp only [tally] at lock
            exact absurd (count_unique (by omega) here found inside also) elsewhere
        exact local_outside outside (effect_size effect).2 (effect_grown effect) old
  · exact single_thread inv.history inv.single here effect

theorem vanish_inv {kind : Kind} (inv : Inv s) (gone : vanish s kind = some t) : Inv t := by
  have unheld : ∀ {f : Pc → Bool}, ¬ s.threads.any f = true → ∀ pc ∈ s.threads, ¬ f pc = true :=
    fun none pc mem held => none (any_eq_true.mpr ⟨pc, mem, held⟩)
  have same : ∀ {q' : Queue}, SameFile s.queue q' → Grown s.queue q' →
      ∀ (i : Nat) (pc : Pc), s.threads[i]? = some pc → Local q' pc :=
    fun file grown i pc found => local_same_file file grown (inv.locals i pc found)
  obtain ⟨ledger, handles, history, -, single⟩ := inv
  have kept : Grown s.queue s.queue := ⟨fun _ => id, fun _ => id⟩
  cases kind with
  | lock =>
    obtain ⟨none, ⟨⟩⟩ := Option.ite_none_left_eq_some.mp gone
    have nobody : s.threads.countP Pc.inside = 0 :=
      nobody_counts fun pc mem inside => unheld none pc mem (inside_has_lock inside)
    refine ⟨{ ledger with lock := ?_, binary := nofun }, fun pc mem => ?_, { history with }, same ⟨rfl, rfl, rfl, rfl, rfl⟩ { kept with }, { single with }⟩
    · simp only [tally, nobody, lockFree]
    · exact { handles pc mem with lock := fun has => absurd has (unheld none pc mem) }
  | items =>
    obtain ⟨none, ⟨⟩⟩ := Option.ite_none_left_eq_some.mp gone
    refine ⟨{ ledger with items := ?_ }, fun pc mem => ?_, { history with }, same ⟨rfl, rfl, rfl, rfl, rfl⟩ { kept with }, { single with }⟩
    · have books := ledger.items
      simp only [level, used_items]
      omega
    · exact { handles pc mem with items := fun has => absurd has (unheld none pc mem) }
  | spaces =>
    obtain ⟨none, ⟨⟩⟩ := Option.ite_none_left_eq_some.mp gone
    refine ⟨{ ledger with spaces := ?_ }, fun pc mem => ?_, { history with }, same ⟨rfl, rfl, rfl, rfl, rfl⟩ { kept with }, { single with }⟩
    · have books := ledger.spaces
      simp only [level, used_spaces]
      omega
    · exact { handles pc mem with spaces := fun has => absurd has (unheld none pc mem) }

theorem step_inv {move : Move} (inv : Inv s) (flawless : Flawless s move) (stepped : step s move = some t) : Inv t := by
  cases move with
  | thread i label =>
    simp only [step, bind, Option.bind_eq_some_iff, Prod.exists, pure, Option.some.injEq] at stepped
    obtain ⟨pc, here, q', pc', acted, rfl⟩ := stepped
    refine thread_inv inv here (fun a same => ?_) acted
    subst same
    exact flawless pc here
  | vanish kind => exact vanish_inv inv stepped

theorem create_inv {maxmsg msgsize : Nat} (threads : Nat) (valid : attrValid maxmsg msgsize) :
    Inv (create maxmsg msgsize threads) := by
  have nobody : ∀ f : Pc → Bool, f .closed = false → (List.replicate threads Pc.closed).countP f = 0 := by
    intro f no
    apply count_zero
    intro pc mem
    rw [eq_of_mem_replicate mem]
    exact no
  have idle : ∀ i, carriedBy (List.replicate threads .closed) i = none := by
    intro i
    rw [carriedBy, List.getElem?_replicate]
    split <;> rfl
  have empty : (create maxmsg msgsize threads).queue.entries = [] := Table.contents_empty fun i below => rfl
  refine ⟨⟨valid, ?_, ?_, by simp [create], ?_, ?_, ?_, fun i below => Nat.zero_le _, ?_, ?_⟩, ?_, ⟨?_, ?_, ?_, by simp [create]⟩, ?_,
    ⟨nodup_nil, forall_mem_nil _, ?_, ?_⟩⟩
  · simp [readable, create]
  · simp only [tally, create, lockFree, nobody Pc.inside rfl]
  · simp only [Queue.used, empty, length_nil, tally]
    simp only [create, level, nobody Pc.holdsSpace rfl, nobody Pc.owesSpace rfl]
    omega
  · simp only [Queue.used, empty, length_nil, tally]
    simp only [create, level, nobody Pc.holdsItem rfl, nobody Pc.owesItem rfl, le_refl]
  · simp only [Queue.used, empty, length_nil, tally]
    simp only [create, nobody Pc.counting rfl, nobody Pc.uncounting rfl]
  · simp only [create]
    decide
  · simp only [create, tally, nobody Pc.counting rfl, length_nil]
  · intro pc mem
    rw [eq_of_mem_replicate mem]
    exact ⟨never, never, never⟩
  · rw [empty]
    exact List.Perm.refl _
  · rw [empty]
    exact fun e mem => absurd mem not_mem_nil
  · intro i below used
    exact absurd rfl used
  · intro i pc found
    rw [eq_of_mem_replicate (mem_of_getElem? found)]
    exact trivial
  · intro i got found
    cases (idle i).symm.trans found
  · intro i j got got' found
    cases (idle i).symm.trans found

theorem reach_inv {maxmsg msgsize threads : Nat} (valid : attrValid maxmsg msgsize)
    (reached : Reach Flawless (create maxmsg msgsize threads) s) : Inv s := by
  induction reached with
  | start => exact create_inv threads valid
  | next move _ flawless stepped ih => exact step_inv ih flawless stepped

end

end Spicule.Mqueue
