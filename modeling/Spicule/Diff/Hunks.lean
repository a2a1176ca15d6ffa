import Spicule.Lib.Splice
import Spicule.Diff.Backtrack

namespace Spicule.Diff
open List Nat Splice

abbrev Hunk := Region

-- `start` is where the hunk being collected began, if the loop is inside one.
def buildHunksFrom : List EditOp → Nat → Nat → Option (Nat × Nat) → List Hunk
  | [], _, _, none => []
  | [], ai, bi, some (hstartA, hstartB) => [⟨hstartA, ai, hstartB, bi⟩]
  | op :: rest, ai, bi, start =>
    match op.type, start with
    | .opMatch, none => buildHunksFrom rest (ai + 1) (bi + 1) none
    | .opMatch, some (hstartA, hstartB) =>
      ⟨hstartA, ai, hstartB, bi⟩ :: buildHunksFrom rest (ai + 1) (bi + 1) none
    | .opDel, start => buildHunksFrom rest (ai + 1) bi (some (start.getD (ai, bi)))
    | .opIns, start => buildHunksFrom rest ai (bi + 1) (some (start.getD (ai, bi)))

def buildHunks (ops : List EditOp) : List Hunk := buildHunksFrom ops 0 0 none

-- A size_t of 64 bits.
def sizeMod : Nat := 2 ^ 64

structure Group where
  hunks : List Hunk
  ga0 : Nat
  ga1 : Nat
  gb0 : Nat
  gb1 : Nat
deriving DecidableEq, Repr

def joinHunks (context : Nat) : Hunk → List Hunk → List Hunk × List Hunk
  | _, [] => ([], [])
  | prev, h :: rest =>
    if h.a0 ≤ (prev.a1 + 2 * context) % sizeMod then
      let (joined, left) := joinHunks context h rest
      (h :: joined, left)
    else ([], h :: rest)

def groupOf (context na nb : Nat) (h : Hunk) (joined : List Hunk) : Group :=
  let last := joined.getLastD h
  { hunks := h :: joined
    ga0 := if h.a0 > context then h.a0 - context else 0
    gb0 := if h.b0 > context then h.b0 - context else 0
    ga1 := min ((last.a1 + context) % sizeMod) na
    gb1 := min ((last.b1 + context) % sizeMod) nb }

def buildGroupsFrom (context na nb : Nat) : Nat → List Hunk → List Group
  | 0, _ => []
  | _, [] => []
  | fuel + 1, h :: rest =>
    let (joined, left) := joinHunks context h rest
    groupOf context na nb h joined :: buildGroupsFrom context na nb fuel left

def buildGroups (hunks : List Hunk) (context na nb : Nat) : List Group :=
  buildGroupsFrom context na nb hunks.length hunks

def Group.region (g : Group) : Region := ⟨g.ga0, g.ga1, g.gb0, g.gb1⟩

section
variable {α : Type} {xs ys : List α} {same : Nat → Nat → Bool}
theorem slice_one (zs : List α) (i : Nat) : slice zs i (i + 1) = zs[i]?.toList := by
  simp only [slice, Nat.add_sub_cancel_left, take_one, head?_drop]

structure Collecting (xs ys : List α) (x0 y0 ai bi : Nat) (start : Nat × Nat) : Prop where
  stretch : Stretch xs ys x0 y0 start.1 start.2
  insideA : start.1 ≤ ai
  insideB : start.2 ≤ bi

theorem stretch_next {x0 y0 ai bi : Nat} (stretch : Stretch xs ys x0 y0 ai bi) (equal : xs[ai]? = ys[bi]?) :
    Stretch xs ys x0 y0 (ai + 1) (bi + 1) where
  order := le_succ_of_le stretch.order
  diagonal := by
    have diagonal := stretch.diagonal
    omega
  equal := by
    rw [← slice_append xs stretch.order (le_succ ai), ← slice_append ys stretch.order_right (le_succ bi),
      stretch.equal, slice_one, slice_one, equal]

theorem build_hunks_from_aligned
    (agree : ∀ x y, x < xs.length → y < ys.length → same x y = true → xs[x]? = ys[y]?) (ops : List EditOp)
    (ai bi x0 y0 : Nat) (start : Option (Nat × Nat)) (script : Script xs.length ys.length same ops ai bi)
    (now : Collecting xs ys x0 y0 ai bi (start.getD (ai, bi))) :
    Aligned xs ys xs.length ys.length x0 y0 (buildHunksFrom ops ai bi start) := by
  induction ops generalizing ai bi x0 y0 start with
  | nil =>
    obtain ⟨rfl, rfl⟩ := script
    cases start with
    | none => exact now.stretch
    | some began => exact ⟨now.stretch, ⟨now.insideA, now.insideB⟩, stretch_empty xs ys _ _⟩
  | cons op rest ih =>
    obtain ⟨type, oa, ob⟩ := op
    simp only [Script] at script
    obtain ⟨rfl, rfl, script⟩ := script
    cases type with
    | opMatch =>
      obtain ⟨left, right, equal, script⟩ := script
      have line := agree _ _ left right equal
      cases start with
      | none => exact ih _ _ _ _ none script ⟨stretch_next now.stretch line, le_refl _, le_refl _⟩
      | some began =>
        have fresh := stretch_next (stretch_empty xs ys oa ob) line
        exact ⟨now.stretch, ⟨now.insideA, now.insideB⟩, ih _ _ _ _ none script ⟨fresh, le_refl _, le_refl _⟩⟩
    | opDel => exact ih _ _ _ _ (some _) script.2 ⟨now.stretch, le_succ_of_le now.insideA, now.insideB⟩
    | opIns => exact ih _ _ _ _ (some _) script.2 ⟨now.stretch, now.insideA, le_succ_of_le now.insideB⟩

theorem build_hunks_aligned {xs ys : List α} {same : Nat → Nat → Bool}
    (agree : ∀ x y, x < xs.length → y < ys.length → same x y = true → xs[x]? = ys[y]?) (ops : List EditOp)
    (script : Script xs.length ys.length same ops 0 0) :
    Aligned xs ys xs.length ys.length 0 0 (buildHunks ops) :=
  build_hunks_from_aligned agree ops 0 0 0 0 none script ⟨stretch_empty xs ys 0 0, le_refl 0, le_refl 0⟩

end

def Parted (low : Nat) : List Hunk → Prop
  | [] => True
  | h :: rest => low ≤ h.a0 ∧ (h.a0 < h.a1 ∨ h.b0 < h.b1) ∧ Parted (h.a1 + 1) rest

theorem parted_weaken {low high : Nat} (order : low ≤ high) {hunks : List Hunk} (parted : Parted high hunks) :
    Parted low hunks := by
  cases hunks with
  | nil => trivial
  | cons h rest => exact ⟨le_trans order parted.1, parted.2⟩

theorem build_hunks_from_parted (ops : List EditOp) (ai bi : Nat) : Parted ai (buildHunksFrom ops ai bi none) ∧
      ∀ ha hb, ha ≤ ai → hb ≤ bi → ha < ai ∨ hb < bi → Parted ha (buildHunksFrom ops ai bi (some (ha, hb))) := by
  induction ops generalizing ai bi with
  | nil => exact ⟨trivial, fun ha hb _ _ nonempty => ⟨le_refl ha, nonempty, trivial⟩⟩
  | cons op rest ih =>
    obtain ⟨type, oa, ob⟩ := op
    cases type with
    | opMatch =>
      have later := (ih (ai + 1) (bi + 1)).1
      exact ⟨parted_weaken (le_succ ai) later, fun ha hb _ _ nonempty => ⟨le_refl ha, nonempty, later⟩⟩
    | opDel =>
      have later := (ih (ai + 1) bi).2
      exact ⟨later ai bi (by omega) (by omega) (by omega),
        fun ha hb left right _ => later ha hb (by omega) right (by omega)⟩
    | opIns =>
      have later := (ih ai (bi + 1)).2
      exact ⟨later ai bi (by omega) (by omega) (by omega),
        fun ha hb left right _ => later ha hb left (by omega) (by omega)⟩

theorem build_hunks_parted (ops : List EditOp) : Parted 0 (buildHunks ops) := (build_hunks_from_parted ops 0 0).1

def Unwrapped (context : Nat) : List Hunk → Prop
  | [] => True
  | [_] => True
  | h :: next :: rest => h.a1 + 2 * context < sizeMod ∧ Unwrapped context (next :: rest)

theorem join_hunks_split (context : Nat) (prev : Hunk) (rest : List Hunk) :
    rest = (joinHunks context prev rest).1 ++ (joinHunks context prev rest).2 := by
  induction rest generalizing prev with
  | nil => rfl
  | cons h rest ih =>
    by_cases near : h.a0 ≤ (prev.a1 + 2 * context) % sizeMod
    · simp only [joinHunks, if_pos near, cons_append]
      rw [← ih h]
    · simp [joinHunks, near]

theorem join_hunks_far (context : Nat) (prev : Hunk) (rest : List Hunk) (fits : Unwrapped context (prev :: rest)) :
    (∀ s ∈ (joinHunks context prev rest).2.head?,
      ((joinHunks context prev rest).1.getLastD prev).a1 + 2 * context < s.a0) ∧
      Unwrapped context (joinHunks context prev rest).2 := by
  induction rest generalizing prev with
  | nil => exact ⟨fun s mem => absurd mem (by simp [joinHunks]), trivial⟩
  | cons h rest ih =>
    obtain ⟨room, fits⟩ := fits
    by_cases near : h.a0 ≤ (prev.a1 + 2 * context) % sizeMod
    · simp only [joinHunks, if_pos near, getLastD_cons]
      exact ih h fits
    · simp only [joinHunks, if_neg near]
      rw [mod_eq_of_lt room] at near
      refine ⟨fun s mem => ?_, fits⟩
      obtain rfl : h = s := by simpa using mem
      simpa using near

section
variable {α : Type} {xs ys : List α}
theorem aligned_trailing {context u v : Nat} (left : List Hunk)
    (aligned : Aligned xs ys xs.length ys.length u v left) (far : ∀ s ∈ left.head?, u + 2 * context < s.a0) :
    Stretch xs ys u v (min (u + context) xs.length) (min (v + context) ys.length) ∧
      Aligned xs ys xs.length ys.length (min (u + context) xs.length) (min (v + context) ys.length) left ∧
      ∀ s ∈ left.head?, min (u + context) xs.length + context ≤ s.a0 := by
  obtain ⟨inX, inY⟩ := aligned_bounds left u v aligned
  cases left with
  | nil =>
    have diagonal := aligned.diagonal
    obtain ⟨first, second⟩ := aligned.cut (by omega : u ≤ min (u + context) xs.length) (min_le_right _ _)
      (by omega : min (u + context) xs.length + v = min (v + context) ys.length + u)
    exact ⟨first, second, fun s mem => absurd mem (by simp)⟩
  | cons s rest =>
    obtain ⟨stretch, inside, later⟩ := aligned
    have gap := far s rfl
    have diagonal := stretch.diagonal
    obtain ⟨boundX, boundY⟩ := aligned_bounds rest _ _ later
    rw [min_eq_left (by omega), min_eq_left (by omega)]
    obtain ⟨first, second⟩ := stretch.cut (by omega : u ≤ u + context) (by omega) (by omega : u + context + v = v + context + u)
    refine ⟨first, ⟨second, inside, later⟩, fun t mem => ?_⟩
    obtain rfl : s = t := by simpa using mem
    omega

theorem build_groups_from_aligned (xs ys : List α) (context : Nat)
    (small : xs.length + context < sizeMod ∧ ys.length + context < sizeMod) (fuel : Nat)
    (hunks : List Hunk) (x y : Nat) (enough : hunks.length ≤ fuel) (fits : Unwrapped context hunks)
    (room : x = 0 ∧ y = 0 ∨ ∀ h ∈ hunks.head?, x + context ≤ h.a0)
    (aligned : Aligned xs ys xs.length ys.length x y hunks) :
    Aligned xs ys xs.length ys.length x y ((buildGroupsFrom context xs.length ys.length fuel hunks).map Group.region) ∧
      (∀ g ∈ buildGroupsFrom context xs.length ys.length fuel hunks,
        Aligned xs ys g.ga1 g.gb1 g.ga0 g.gb0 g.hunks ∧ g.hunks ≠ []) ∧
      (buildGroupsFrom context xs.length ys.length fuel hunks).flatMap Group.hunks = hunks := by
  induction fuel generalizing hunks x y with
  | zero =>
    obtain rfl : hunks = [] := eq_nil_of_length_eq_zero (by omega)
    exact ⟨aligned, forall_mem_nil _, rfl⟩
  | succ fuel ih =>
    cases hunks with
    | nil => exact ⟨aligned, forall_mem_nil _, rfl⟩
    | cons h rest =>
      have split := join_hunks_split context h rest
      obtain ⟨far, fitsLeft⟩ := join_hunks_far context h rest fits
      generalize joined_eq : (joinHunks context h rest).1 = joined at split far
      generalize left_eq : (joinHunks context h rest).2 = left at split far fitsLeft
      obtain ⟨stretch, inside, later⟩ := aligned
      rw [split] at later
      obtain ⟨after, within⟩ := aligned_split joined left h.a1 h.b1 later
      rw [finish_last] at after within
      obtain ⟨boundX, boundY⟩ := aligned_bounds left _ _ after
      obtain ⟨trailing, tail, far'⟩ := aligned_trailing left after far
      obtain ⟨before, leading⟩ : Stretch xs ys x y (h.a0 - context) (h.b0 - context) ∧
          Stretch xs ys (h.a0 - context) (h.b0 - context) h.a0 h.b0 := by
        have order := stretch.order
        have diagonal := stretch.diagonal
        rcases room with ⟨rfl, rfl⟩ | room
        · exact stretch.cut (by omega) (by omega) (by omega)
        · have bound := room h rfl
          exact stretch.cut (by omega) (by omega) (by omega)
      have lead : groupOf context xs.length ys.length h joined =
          ⟨h :: joined, h.a0 - context, min ((joined.getLastD h).a1 + context) xs.length, h.b0 - context,
            min ((joined.getLastD h).b1 + context) ys.length⟩ := by
        simp only [groupOf, mod_eq_of_lt (show (joined.getLastD h).a1 + context < sizeMod by omega),
          mod_eq_of_lt (show (joined.getLastD h).b1 + context < sizeMod by omega), Group.mk.injEq, true_and, and_true]
        exact ⟨by split <;> omega, by split <;> omega⟩
      have shorter : left.length ≤ fuel := by
        have total := congrArg List.length split
        simp only [length_append, length_cons] at total enough
        omega
      obtain ⟨outer, inner, whole⟩ := ih left _ _ shorter fitsLeft (.inr far') tail
      simp only [buildGroupsFrom, joined_eq, left_eq, lead, map_cons, Group.region, mem_cons, forall_eq_or_imp,
        flatMap_cons, whole]
      obtain ⟨chain, chain'⟩ := aligned_bounds joined h.a1 h.b1 (within _ _ (stretch_empty xs ys _ _))
      have spanA := leading.order.trans (inside.1.trans (chain.trans trailing.order))
      have spanB := leading.order_right.trans (inside.2.trans (chain'.trans trailing.order_right))
      exact ⟨⟨before, ⟨spanA, spanB⟩, outer⟩, ⟨⟨⟨leading, inside, within _ _ trailing⟩, cons_ne_nil _ _⟩, inner⟩,
        congrArg (h :: ·) split.symm⟩

end
end Spicule.Diff
