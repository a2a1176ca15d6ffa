import Spicule.Patch.RoundTrip

namespace Spicule.Patch
open List
open Diff
open Splice

theorem aligned_ordered {α : Type} {xs ys : List α} {endX endY : Nat} (regions : List Region) (x y : Nat)
    (aligned : Aligned xs ys endX endY x y regions) : (∀ r ∈ regions, x ≤ r.a0 ∧ y ≤ r.b0) ∧
      regions.Pairwise (fun r s => r.a1 ≤ s.a0 ∧ r.b1 ≤ s.b0) ∧
      regions.IsChain fun r s => s.a0 - r.a1 = s.b0 - r.b1 := by
  induction regions generalizing x y with
  | nil => simp
  | cons r rest ih =>
    obtain ⟨stretch, span, later⟩ := aligned
    obtain ⟨after, ordered, gaps⟩ := ih _ _ later
    have order := stretch.order
    have order' := stretch.order_right
    refine ⟨forall_mem_cons.mpr ⟨⟨order, order'⟩, fun s mem => ?_⟩, pairwise_cons.mpr ⟨after, ordered⟩, ?_⟩
    · have bound := after s mem
      omega
    · cases rest with
      | nil => exact .singleton r
      | cons s rest =>
        have diagonal := later.1.diagonal
        exact .cons_cons (by omega) gaps

structure Grouping (a b : TextFile) (hunks : List Diff.Hunk) (groups : List Group) : Prop where
  parts : groups.flatMap Group.hunks = hunks ∧ ∀ g ∈ groups, g.hunks ≠ []
  ordered : groups.Pairwise fun g next => g.ga1 ≤ next.ga0 ∧ g.gb1 ≤ next.gb0
  bounds : ∀ g ∈ groups, Inside a b g.region
  apart : hunks.Pairwise fun h next => h.a1 ≤ next.a0 ∧ h.b1 ≤ next.b0
  gaps : hunks.IsChain fun h next => next.a0 - h.a1 = next.b0 - h.b1
  counts : ∀ g ∈ groups, ∃ hops, printUnifiedGroup a b g = some (ascii "@@ -" ++
    printUnifiedRange g.ga0 (g.ga0 + (oldLines hops).length) ++ ascii " +" ++
    printUnifiedRange g.gb0 (g.gb0 + (newLines hops).length) ++ ascii " @@\n" ++ joinLines (hops.flatMap hopText))

theorem unwrapped_of_joined {context low : Nat} (long : 2 * context < sizeMod) (h : Diff.Hunk) (rest : List Diff.Hunk)
    (parted : Parted low (h :: rest)) (joined : (joinHunks context h rest).2 = []) :
    Unwrapped context (h :: rest) := by
  induction rest generalizing h low with
  | nil => trivial
  | cons next rest ih =>
    by_cases near : next.a0 ≤ (h.a1 + 2 * context) % sizeMod
    · simp only [joinHunks, if_pos near] at joined
      refine ⟨?_, ih next parted.2.2 joined⟩
      have after := parted.2.2.1
      unfold sizeMod at *
      omega
    · simp [joinHunks, near] at joined

theorem ordered_joined {context na nb : Nat} (long : na ≤ context) (fits : na + context < sizeMod) (h : Diff.Hunk)
    (rest : List Diff.Hunk) (nonempty : ∀ s ∈ rest, 0 < s.a1)
    (inside : ∀ r ∈ h :: rest, r.a0 ≤ r.a1 ∧ r.a1 ≤ na)
    (ordered : (buildGroups (h :: rest) context na nb).Pairwise fun g next => g.ga1 ≤ next.ga0 ∧ g.gb1 ≤ next.gb0) :
    (joinHunks context h rest).2 = [] := by
  have split := join_hunks_split context h rest
  cases left : (joinHunks context h rest).2 with
  | nil => rfl
  | cons s later =>
    exfalso
    have mem : s ∈ rest := by
      rw [split, left]
      simp
    have last : (joinHunks context h rest).1.getLastD h ∈ h :: rest := by
      rw [getLastD_eq_getLast?]
      cases found : (joinHunks context h rest).1.getLast? with
      | none => exact mem_cons_self
      | some r =>
        refine mem_cons_of_mem _ ?_
        rw [split]
        exact mem_append_left _ (mem_of_getLast? found)
    obtain ⟨fuel, size⟩ : ∃ fuel, rest.length = fuel + 1 := ⟨rest.length - 1, by
      have := length_pos_of_mem mem
      omega⟩
    rw [buildGroups, length_cons, size, buildGroupsFrom] at ordered
    simp only [left, buildGroupsFrom, groupOf] at ordered
    have overlap := ((pairwise_cons.mp ordered).1 _ mem_cons_self).1
    have bound := (inside _ last).2
    have here := inside s (mem_cons_of_mem _ mem)
    have pos := nonempty s mem
    simp only [Nat.mod_eq_of_lt (show ((joinHunks context h rest).1.getLastD h).a1 + context < sizeMod by omega),
      if_neg (show ¬ s.a0 > context by omega)] at overlap
    omega

theorem parted_positive {low : Nat} (hunks : List Diff.Hunk) (parted : Parted low hunks) (above : 0 < low)
    (inside : ∀ r ∈ hunks, r.a0 ≤ r.a1) : ∀ r ∈ hunks, 0 < r.a1 := by
  induction hunks generalizing low with
  | nil => exact forall_mem_nil _
  | cons h rest ih =>
    obtain ⟨first, _, later⟩ := parted
    rw [forall_mem_cons] at inside ⊢
    exact ⟨by omega, ih later (Nat.succ_pos _) inside.2⟩

theorem unwrapped_short {context : Nat} (hunks : List Diff.Hunk) (short : ∀ r ∈ hunks, r.a1 + 2 * context < sizeMod) :
    Unwrapped context hunks := by
  induction hunks with
  | nil => trivial
  | cons h rest ih =>
    rw [forall_mem_cons] at short
    cases rest with
    | nil => trivial
    | cons next rest => exact ⟨short.1, ih short.2⟩

-- Matched lines may differ in blanks: only their number is aligned. The context is a long.
theorem build_groups_grouping (a b : TextFile) {same : Nat → Nat → Bool} {ops : List EditOp} {context : Nat}
    (script : Script a.lines.length b.lines.length same ops 0 0) (long : context < 2 ^ 63)
    (small : a.lines.length < 2 ^ 61 ∧ b.lines.length < 2 ^ 61) :
    Grouping a b (buildHunks ops) (buildGroups (buildHunks ops) context a.lines.length b.lines.length) ↔
      Unwrapped context (buildHunks ops) := by
  have aligned := @build_hunks_aligned Unit ((stored a.lines a.noeol).map fun _ => ())
    ((stored b.lines b.noeol).map fun _ => ()) same (by simp +contextual) ops (by simpa using script)
  have fits : a.lines.length + context < sizeMod ∧ b.lines.length + context < sizeMod := by
    unfold sizeMod
    omega
  constructor
  · intro grouping
    have spans : ∀ r ∈ buildHunks ops, r.a0 ≤ r.a1 ∧ r.a1 ≤ a.lines.length := by
      intro r mem
      have inside := aligned_inside _ _ _ (by simpa using aligned) r mem
      exact ⟨inside.1.1, inside.2.1⟩
    by_cases huge : a.lines.length ≤ context
    · have parted := build_hunks_parted ops
      have ordered := grouping.ordered
      revert spans parted ordered
      cases buildHunks ops with
      | nil => exact fun _ _ _ => trivial
      | cons h rest =>
        intro spans parted ordered
        have pos := parted_positive rest parted.2.2 (Nat.succ_pos _)
          fun r mem => (spans r (mem_cons_of_mem _ mem)).1
        exact unwrapped_of_joined (by unfold sizeMod; omega) h rest parted
          (ordered_joined huge fits.1 h rest pos spans ordered)
    · refine unwrapped_short _ fun r mem => ?_
      have bound := (spans r mem).2
      unfold sizeMod
      omega
  intro unwrapped
  obtain ⟨outer, inner, whole⟩ := build_groups_from_aligned _ _ context (by simpa using fits) _ _ 0 0
    (Nat.le_refl _) unwrapped (.inl ⟨rfl, rfl⟩) aligned
  simp only [length_map, stored_length] at outer inner whole
  obtain ⟨-, ordered, -⟩ := aligned_ordered _ _ _ outer
  obtain ⟨-, apart, gaps⟩ := aligned_ordered _ _ _ aligned
  have inside := forall_mem_map.mp (aligned_inside _ _ _ outer)
  refine ⟨⟨whole, fun g mem => (inner g mem).2⟩, pairwise_map.mp ordered, inside, apart, gaps, fun g mem => ?_⟩
  obtain ⟨⟨spanA, spanB⟩, boundA, boundB⟩ : (g.ga0 ≤ g.ga1 ∧ g.gb0 ≤ g.gb1) ∧ g.ga1 ≤ a.lines.length ∧
    g.gb1 ≤ b.lines.length := inside g mem
  have body := print_unified_hunks_join a b boundA boundB _ _ _ (inner g mem).1
  obtain ⟨-, olds, news⟩ := group_hops_images a b _ _ _ _ (inner g mem).1
  refine ⟨groupHops a b g.ga1 g.hunks g.ga0, ?_⟩
  have count := congrArg List.length news
  rw [length_map, slice_length _ (by simpa using boundB)] at count
  rw [olds, count, slice_length _ (by simpa using boundA), Nat.add_sub_of_le spanA, Nat.add_sub_of_le spanB,
    printUnifiedGroup, body]
  rfl

theorem build_groups_two : Grouping ⟨[[0], [1], [2], [3]], false⟩ ⟨[[2]], false⟩ [⟨0, 2, 0, 0⟩, ⟨3, 4, 1, 1⟩]
    (buildGroups [⟨0, 2, 0, 0⟩, ⟨3, 4, 1, 1⟩] 0 4 1) :=
  (@build_groups_grouping ⟨[[0], [1], [2], [3]], false⟩ ⟨[[2]], false⟩ (fun x _ => x == 2)
    [⟨.opDel, 0, 0⟩, ⟨.opDel, 1, 0⟩, ⟨.opMatch, 2, 0⟩, ⟨.opDel, 3, 1⟩] 0 (by simp [Script])
    (by decide) (by decide)).mpr ⟨by decide, trivial⟩

theorem long_context_overlaps : ∃ ops, Script 4 1 (fun x _ => x == 2) ops 0 0 ∧
    ¬Grouping ⟨[[0], [1], [2], [3]], false⟩ ⟨[[2]], false⟩ (buildHunks ops)
      (buildGroups (buildHunks ops) (2 ^ 63 - 1) 4 1) := by
  refine ⟨[⟨.opDel, 0, 0⟩, ⟨.opDel, 1, 0⟩, ⟨.opMatch, 2, 0⟩, ⟨.opDel, 3, 1⟩], by simp [Script], fun grouping => ?_⟩
  exact absurd grouping.ordered (by decide)

end Spicule.Patch
