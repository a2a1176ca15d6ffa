import Spicule.Lib.LinkedList
import Spicule.Malloc.FrontDoor

namespace Spicule.Malloc
open List Function LinkedList

theorem Sound.nodup {w : World} (sound : Sound w) : (w.live.map Block.ptr).Nodup := by
  refine pairwise_map.mpr (sound.apart.imp_of_mem ?_)
  intro b c memberB memberC apart same
  have filledB := (sound.present b memberB).2
  have filledC := (sound.present c memberC).2
  unfold Block.Apart at apart
  omega

instance : Std.Symm Block.Apart := ⟨fun _ _ apart => Or.symm apart⟩

theorem Sound.holds_unique {w : World} (sound : Sound w) {b c : Block} (memberB : b ∈ w.live) (memberC : c ∈ w.live)
    {addr : Nat} (holdsB : b.Holds addr) (holdsC : c.Holds addr) : b = c := by
  by_contra different
  have apart := sound.apart.forall memberB memberC different
  unfold Block.Apart at apart
  unfold Block.Holds at holdsB holdsC
  omega

-- Every live platform block is `held` by the front door, a record, the base of a record,
-- or owned by the client, who has the carved pointer instead of a base.
structure Accounts (w : World) (plain spaced held recs : List Nat) : Prop where
  sound : Sound w
  legal : Legal w.log
  chain : Chain (fun r => (w.cells r).next) w.alignedList recs
  accounted : (w.live.map Block.ptr).Perm (held ++ (recs ++ (recs.map (fun r => (w.cells r).base) ++ plain)))
  overs : (recs.map fun r => (w.cells r).user).Perm spaced
  inside : ∀ r ∈ recs, ∃ b ∈ w.live, b.ptr = (w.cells r).base ∧ b.Holds (w.cells r).user

section
variable {w : World} {plain spaced held recs : List Nat}

section
variable (accounts : Accounts w plain spaced held recs)
include accounts

theorem Accounts.places_nodup : (held ++ (recs ++ (recs.map (fun r => (w.cells r).base) ++ plain))).Nodup :=
  accounts.accounted.nodup_iff.mp accounts.sound.nodup

variable {p : Nat}
theorem Accounts.live_of_place
    (place : p ∈ held ++ (recs ++ (recs.map (fun r => (w.cells r).base) ++ plain))) :
    ∃ b ∈ w.live, b.ptr = p ∧ b.Holds p := by
  obtain ⟨b, mem, same⟩ := mem_map.mp (accounts.accounted.mem_iff.mpr place)
  refine ⟨b, mem, same, ?_⟩
  have filled := (accounts.sound.present b mem).2
  unfold Block.Holds
  omega

theorem Accounts.logged
    (place : p ∈ held ++ (recs ++ (recs.map (fun r => (w.cells r).base) ++ plain))) : p ∈ liveOf w.log := by
  rw [accounts.sound.recorded]
  exact accounts.accounted.mem_iff.mpr place

variable {r : Nat}
theorem Accounts.user_place (mem : r ∈ recs)
    (place : (w.cells r).user ∈ held ++ (recs ++ (recs.map (fun r => (w.cells r).base) ++ plain))) :
    (w.cells r).user = (w.cells r).base := by
  obtain ⟨b, memberB, base, holds⟩ := accounts.inside r mem
  obtain ⟨c, memberC, user, holds'⟩ := accounts.live_of_place place
  rw [← base, ← user, accounts.sound.holds_unique memberB memberC holds holds']

theorem Accounts.base_not (mem : r ∈ recs)
    (place : p ∈ held ∨ p ∈ plain ∨ p ∈ recs) : (w.cells r).base ≠ p := by
  have nodup := accounts.places_nodup
  have base : (w.cells r).base ∈ recs.map fun r => (w.cells r).base := mem_map_of_mem mem
  intro same
  rw [same] at base
  simp only [nodup_append, mem_append] at nodup
  obtain ⟨-, ⟨-, ⟨-, -, noPlain⟩, noRec⟩, noHeld⟩ := nodup
  rcases place with inHeld | inPlain | inRecs
  · exact noHeld p inHeld p (.inr (.inl base)) rfl
  · exact noPlain p base p inPlain rfl
  · exact noRec p inRecs p (.inl base) rfl

theorem Accounts.user_not (mem : r ∈ recs)
    (place : p ∈ held ∨ p ∈ plain ∨ p ∈ recs) : (w.cells r).user ≠ p := by
  intro same
  have anywhere : (w.cells r).user ∈ held ++ (recs ++ (recs.map (fun r => (w.cells r).base) ++ plain)) := by
    rw [same]
    simp only [mem_append]
    tauto
  exact accounts.base_not mem place (accounts.user_place mem anywhere ▸ same)

theorem Accounts.null_not
    (place : p ∈ held ++ (recs ++ (recs.map (fun r => (w.cells r).base) ++ plain))) : p ≠ 0 := by
  obtain ⟨b, mem, same, -⟩ := accounts.live_of_place place
  exact same ▸ (accounts.sound.present b mem).1

end

theorem accounts_start {freesOnZero : Bool} {answers : List Nat} {cells : Nat → AlignedRec} :
    Accounts ⟨freesOnZero, answers, [], [], cells, 0, none⟩ [] [] [] [] where
  sound := ⟨rfl, List.Pairwise.nil, fun _ mem => absurd mem not_mem_nil⟩
  legal := trivial
  chain := rfl
  accounted := List.Perm.refl _
  overs := List.Perm.refl _
  inside := fun _ mem => absurd mem not_mem_nil

section
variable (accounts : Accounts w plain spaced held recs)
include accounts

theorem accounts_errno {errno : Option Errno} : Accounts { w with errno := errno } plain spaced held recs :=
  { accounts with sound := ⟨accounts.sound.recorded, accounts.sound.apart, accounts.sound.present⟩ }

theorem accounts_move {plain' held' : List Nat}
    (same : ∀ p, held'.count p + plain'.count p = held.count p + plain.count p) :
    Accounts w plain' spaced held' recs := by
  refine { accounts with accounted := accounts.accounted.trans (perm_iff_count.mpr fun p => ?_) }
  have balance := same p
  simp only [count_append]
  omega

theorem accounts_alloc (n : Nat) (zero : Bool) :
    ∃ p w', platAlloc w n zero = (p, w') ∧ (p = 0 ∧ Accounts w' plain spaced held recs ∨
      p ≠ 0 ∧ Accounts w' plain spaced (p :: held) recs ∧ (⟨p, max n 1⟩ : Block) ∈ w'.live ∧ p + max n 1 ≤ word) := by
  obtain ⟨recorded, apart, present⟩ := accounts.sound
  rcases plat_alloc_cases w n zero with failed | ⟨answer, fresh, made⟩
  · refine ⟨_, _, failed, .inl ⟨rfl, { accounts with sound := ⟨recorded, apart, present⟩, legal := ⟨?_, accounts.legal⟩ }⟩⟩
    intro p handed
    cases handed
  · obtain ⟨apart', present'⟩ := sound_fresh apart present fresh (Nat.le_max_right n 1)
    refine ⟨_, _, made, .inr ⟨fresh.1, ⟨⟨?_, apart', present'⟩, ⟨?_, accounts.legal⟩, accounts.chain,
      accounts.accounted.cons answer, accounts.overs, ?_⟩, mem_cons_self, fresh.2.2.1⟩⟩
    · rw [liveOf, gain, if_neg fresh.1, recorded, map_cons]
    · intro p handed
      cases handed
    · intro r mem
      obtain ⟨b, memberB, base, holds⟩ := accounts.inside r mem
      exact ⟨b, mem_cons_of_mem _ memberB, base, holds⟩

end

variable {p : Nat}
theorem without_block_keeps {b : Block} {live : List Block} (mem : b ∈ live) (other : b.ptr ≠ p) :
    b ∈ withoutBlock p live :=
  (mem_eraseP_of_neg (by simpa using Ne.symm other)).mpr mem

theorem accounts_dealloc (accounts : Accounts w plain spaced (p :: held) recs) :
    Accounts (platDealloc w p) plain spaced held recs where
  sound := by
    obtain ⟨apart, present⟩ := accounts.sound.without p
    refine ⟨?_, apart, present⟩
    rw [platDealloc, liveOf, accounts.sound.recorded, without_block_ptrs]
  legal := by
    refine ⟨fun q handed => ?_, accounts.legal⟩
    cases handed
    exact accounts.logged mem_cons_self
  chain := accounts.chain
  accounted := by
    have removed := accounts.accounted.erase p
    rw [cons_append, erase_cons_head] at removed
    rw [platDealloc, without_block_ptrs]
    exact removed
  overs := accounts.overs
  inside := by
    intro r mem
    obtain ⟨b, memberB, base, holds⟩ := accounts.inside r mem
    exact ⟨b, without_block_keeps memberB (base ▸ accounts.base_not mem (.inl mem_cons_self)), base, holds⟩

theorem accounts_size (accounts : Accounts w plain spaced held recs)
    (place : p ∈ held ++ (recs ++ (recs.map (fun r => (w.cells r).base) ++ plain))) :
    Accounts (platAllocSize w p).2 plain spaced held recs := by
  refine { accounts with sound := ⟨accounts.sound.recorded, accounts.sound.apart, accounts.sound.present⟩, legal := ⟨fun q handed => ?_, accounts.legal⟩ }
  cases handed
  exact accounts.logged place

theorem accounts_realloc (accounts : Accounts w plain spaced (p :: held) recs) (n : Nat)
    (kept : ¬ (w.freesOnZero = true ∧ n = 0)) :
    ∃ q w', platRealloc w p n = (q, w') ∧ (q = 0 ∧ Accounts w' plain spaced (p :: held) recs ∨
      q ≠ 0 ∧ Accounts w' plain spaced (q :: held) recs) := by
  have handedOver : ∀ q, handed (.realloc p n 0 false) = some q → q ∈ liveOf w.log := by
    intro q handed
    cases handed
    exact accounts.logged mem_cons_self
  rcases plat_realloc_cases w p n kept with failed | ⟨answer, fresh, made⟩
  · exact ⟨_, _, failed, .inl ⟨rfl, { accounts with sound := ⟨accounts.sound.recorded, accounts.sound.apart, accounts.sound.present⟩, legal := ⟨handedOver, accounts.legal⟩ }⟩⟩
  · -- As if the old block were released and a fresh one handed out.
    have released := accounts_dealloc accounts
    obtain ⟨apart, present⟩ := sound_fresh released.sound.apart released.sound.present fresh (Nat.le_max_right n 1)
    refine ⟨_, _, made, .inr ⟨fresh.1, ⟨⟨?_, apart, present⟩, ⟨handedOver, accounts.legal⟩, released.chain,
      released.accounted.cons answer, released.overs, ?_⟩⟩⟩
    · rw [liveOf, gain, if_neg fresh.1, if_pos rfl, accounts.sound.recorded, map_cons, without_block_ptrs]
    · intro r mem
      obtain ⟨b, memberB, base, holds⟩ := released.inside r mem
      exact ⟨b, mem_cons_of_mem _ memberB, base, holds⟩

-- The client, and the platform in memory not handed out, may write anything outside the
-- front door's own blocks.
theorem accounts_scribble (accounts : Accounts w plain spaced held recs) {addr : Nat} (value : AlignedRec)
    (outside : addr ∉ recs) : Accounts { w with cells := update w.cells addr value } plain spaced held recs := by
  have same : ∀ r ∈ recs, update w.cells addr value r = w.cells r := by
    intro r mem
    refine update_of_ne ?_ value w.cells
    rintro rfl
    exact outside mem
  refine ⟨⟨accounts.sound.recorded, accounts.sound.apart, accounts.sound.present⟩, accounts.legal, ?_, ?_, ?_, ?_⟩
  · exact chain_congr recs _ (fun r mem => congrArg AlignedRec.next (same r mem)) accounts.chain
  · rw [map_congr_left fun r mem => congrArg AlignedRec.base (same r mem)]
    exact accounts.accounted
  · rw [map_congr_left fun r mem => congrArg AlignedRec.user (same r mem)]
    exact accounts.overs
  · intro r mem
    simpa only [same r mem] using accounts.inside r mem

theorem accounts_link {r base user size : Nat} (accounts : Accounts w plain spaced (base :: r :: held) recs)
    (block : (⟨base, size⟩ : Block) ∈ w.live) (inside : base ≤ user ∧ user < base + size) :
    Accounts { w with cells := update w.cells r ⟨user, base, w.alignedList⟩, alignedList := r }
      plain (user :: spaced) held (r :: recs) := by
  have nodup := accounts.places_nodup
  have outside : r ∉ recs := by
    simp only [cons_append, nodup_cons, mem_append] at nodup
    tauto
  have present := accounts.null_not (p := r) (by simp)
  have scribbled := accounts_scribble accounts ⟨user, base, w.alignedList⟩ outside
  have here : update w.cells r ⟨user, base, w.alignedList⟩ r = ⟨user, base, w.alignedList⟩ := update_self r _ w.cells
  have link : (update w.cells r ⟨user, base, w.alignedList⟩ r).next = w.alignedList := by rw [here]
  refine ⟨⟨scribbled.sound.recorded, scribbled.sound.apart, scribbled.sound.present⟩, accounts.legal, chain_push present link (fun _ _ => rfl) scribbled.chain, ?_, ?_, ?_⟩
  · refine scribbled.accounted.trans (perm_iff_count.mpr fun p => ?_)
    simp only [map_cons, here, cons_append, count_cons, count_append]
    omega
  · simp only [map_cons, here]
    exact scribbled.overs.cons user
  · intro s mem
    rcases mem_cons.mp mem with rfl | mem
    · simp only [here]
      exact ⟨_, block, rfl, inside⟩
    · exact scribbled.inside s mem

theorem store_link_fields (pp : Option Nat) (value r : Nat) :
    ((storeLink w pp value).cells r).user = (w.cells r).user ∧ ((storeLink w pp value).cells r).base = (w.cells r).base := by
  cases pp with
  | none => exact ⟨rfl, rfl⟩
  | some prev =>
    by_cases same : r = prev
    · subst same
      simp [storeLink]
    · simp [storeLink, same]

def previous (pp : Option Nat) (before : List Nat) : Option Nat := (before.getLast?).or pp

theorem find_record_absent (xs : List Nat) (fuel : Nat) (pp : Option Nat) (enough : xs.length < fuel)
    (chain : Chain (fun r => (w.cells r).next) (loadLink w pp) xs) (others : ∀ r ∈ xs, (w.cells r).user ≠ p) :
    findRecord w p fuel pp = none := by
  induction xs generalizing fuel pp with
  | nil =>
    rcases fuel with _ | fuel
    · omega
    have stop : loadLink w pp = 0 := chain
    simp [findRecord, stop]
  | cons r xs ih =>
    rcases fuel with _ | fuel
    · omega
    obtain ⟨here, present, later⟩ := chain
    have rest := ih fuel (some r) (by simpa using enough) later
      (forall_mem_cons.mp others).2
    simp [findRecord, here, present, others r mem_cons_self, rest]

theorem find_record_present {r : Nat} (before after : List Nat) (fuel : Nat) (pp : Option Nat)
    (enough : before.length < fuel) (chain : Chain (fun r => (w.cells r).next) (loadLink w pp) (before ++ r :: after))
    (others : ∀ s ∈ before, (w.cells s).user ≠ p) (own : (w.cells r).user = p) :
    findRecord w p fuel pp = some (previous pp before, r) := by
  induction before generalizing fuel pp with
  | nil =>
    rcases fuel with _ | fuel
    · omega
    obtain ⟨here, present, -⟩ := chain
    simp [findRecord, here, present, own, previous]
  | cons s before ih =>
    rcases fuel with _ | fuel
    · omega
    obtain ⟨here, present, later⟩ := chain
    have rest := ih fuel (some s) (by simpa using enough) later
      (forall_mem_cons.mp others).2
    have last : previous (some s) before = previous pp (s :: before) := by
      cases before with
      | nil => simp [previous]
      | cons t before => simp [previous, getLast?_cons]
    simp [findRecord, here, present, others s mem_cons_self, rest, last]

theorem Accounts.records_short (accounts : Accounts w plain spaced held recs) : recs.length ≤ w.live.length := by
  have total := accounts.accounted.length_eq
  simp only [length_map, length_append] at total
  omega

theorem accounts_free_held (accounts : Accounts w plain spaced (p :: held) recs) :
    Accounts (free w p) plain spaced held recs := by
  have present := accounts.null_not (p := p) (by simp)
  have short := accounts.records_short
  have absent : findRecord w p (w.live.length + 1) none = none :=
    find_record_absent recs _ none (by omega) accounts.chain
      fun r mem => accounts.user_not mem (.inl mem_cons_self)
  rw [free, if_neg present, absent]
  exact accounts_dealloc accounts

theorem chain_store_link {r : Nat} {before after : List Nat} (nodup : (before ++ r :: after).Nodup)
    (chain : Chain (fun r => (w.cells r).next) w.alignedList (before ++ r :: after)) :
    Chain (fun s => ((storeLink w (previous none before) (w.cells r).next).cells s).next)
      (storeLink w (previous none before) (w.cells r).next).alignedList (before ++ after) := by
  rcases eq_nil_or_concat before with rfl | ⟨front, prev, rfl⟩
  · exact chain.2.2
  · have last : previous none (front ++ [prev]) = some prev := by simp [previous]
    simp only [concat_eq_append] at nodup chain ⊢
    rw [last]
    rw [append_assoc, singleton_append] at chain ⊢
    refine chain_unlink front prev r after _ ?_ ?_ chain
    · simp [storeLink]
    · intro s mem
      have other : s ≠ prev := by
        rintro rfl
        simp only [append_assoc, nodup_append, nodup_cons, mem_append, mem_cons,
          cons_append, nil_append] at nodup mem
        rcases mem with inFront | inAfter
        · exact nodup.2.2 s inFront s (.inl rfl) rfl
        · exact nodup.2.1.1 (.inr inAfter)
      simp [storeLink, other]

theorem accounts_free_over (accounts : Accounts w plain spaced held recs) (mem : p ∈ spaced) :
    ∃ recs', Accounts (free w p) plain (spaced.erase p) held recs' := by
  obtain ⟨r₀, inRecs, own₀⟩ := mem_map.mp (accounts.overs.mem_iff.mpr mem)
  obtain ⟨before, r, after, split, others, own⟩ : ∃ before r after, recs = before ++ r :: after ∧
      (∀ s ∈ before, (w.cells s).user ≠ p) ∧ (w.cells r).user = p := by
    obtain ⟨r, before, after, others, own, split, -⟩ :=
      exists_of_eraseP (p := fun r => decide ((w.cells r).user = p)) inRecs (by simpa using own₀)
    exact ⟨before, r, after, split, by simpa using others, by simpa using own⟩
  subst split
  have inList : r ∈ before ++ r :: after := by simp
  have nodup := accounts.places_nodup
  have recsNodup : (before ++ r :: after).Nodup := by
    simp only [nodup_append] at nodup ⊢
    exact nodup.2.1.1
  have short := accounts.records_short
  have found := find_record_present before after (w.live.length + 1) none
    (by simp only [length_append, length_cons] at short; omega) accounts.chain others own
  obtain ⟨b, memberB, base, holds⟩ := accounts.inside r inList
  have present : p ≠ 0 := by
    have pos := (accounts.sound.present b memberB).1
    unfold Block.Holds at holds
    omega
  have fields := store_link_fields (w := w) (previous none before) (w.cells r).next
  have unlinked : Accounts (storeLink w (previous none before) (w.cells r).next) plain (spaced.erase p)
      ((w.cells r).base :: r :: held) (before ++ after) := by
    have live : (storeLink w (previous none before) (w.cells r).next).live = w.live ∧
        (storeLink w (previous none before) (w.cells r).next).log = w.log := by
      cases previous none before <;> exact ⟨rfl, rfl⟩
    obtain ⟨live, log⟩ := live
    refine ⟨⟨?_, ?_, ?_⟩, ?_, chain_store_link recsNodup accounts.chain, ?_, ?_, ?_⟩
    · rw [log, live]
      exact accounts.sound.recorded
    · rw [live]
      exact accounts.sound.apart
    · rw [live]
      exact accounts.sound.present
    · rw [log]
      exact accounts.legal
    · rw [live]
      refine accounts.accounted.trans (perm_iff_count.mpr fun q => ?_)
      simp only [fields, map_append, map_cons, cons_append, count_cons, count_append]
      omega
    · have removed := accounts.overs.erase p
      simp only [fields, map_append]
      rw [map_append, map_cons, own, erase_append_right _ (by simpa using others),
        erase_cons_head] at removed
      exact removed
    · intro s inside
      rw [live]
      simp only [fields]
      refine accounts.inside s ?_
      simp only [mem_append, mem_cons] at inside ⊢
      tauto
  refine ⟨before ++ after, ?_⟩
  rw [free, if_neg present, found]
  simp only [fields]
  exact accounts_dealloc (accounts_dealloc unlinked)

end
end Spicule.Malloc
