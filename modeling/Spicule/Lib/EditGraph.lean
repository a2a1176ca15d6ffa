import Mathlib

namespace Spicule.EditGraph
open List Nat

-- Only a diagonal edge knows the two sizes: a path outside the rectangle counts its moves.
inductive Path (n m : Nat) (same : Nat → Nat → Bool) : Nat → Nat → Nat → Prop where
  | start : Path n m same 0 0 0
  | diag (d x y : Nat) (previous : Path n m same d x y) (left : x < n) (right : y < m)
      (equal : same x y = true) : Path n m same d (x + 1) (y + 1)
  | right (d x y : Nat) (previous : Path n m same d x y) : Path n m same (d + 1) (x + 1) y
  | down (d x y : Nat) (previous : Path n m same d x y) : Path n m same (d + 1) x (y + 1)

def Slide (n m : Nat) (same : Nat → Nat → Bool) (x y count : Nat) : Prop :=
  ∀ i < count, x + i < n ∧ y + i < m ∧ same (x + i) (y + i) = true

def Reaches (n m : Nat) (same : Nat → Nat → Bool) (d : Nat) (k : Int) (x : Nat) : Prop :=
  ∃ y : Nat, (x : Int) - y = k ∧ Path n m same d x y

def Furthest (n m : Nat) (same : Nat → Nat → Bool) (d : Nat) (k : Int) (x : Nat) : Prop :=
  Reaches n m same d k x ∧ ∀ other, Reaches n m same d k other → other ≤ x

section
variable {n m : Nat} {same : Nat → Nat → Bool}
variable {d x y : Nat}
theorem path_diagonal_bound (path : Path n m same d x y) : -(d : Int) ≤ (x : Int) - y ∧ (x : Int) - y ≤ d := by
  induction path with
  | start => simp
  | diag | right | down => omega

theorem path_diagonal_parity (path : Path n m same d x y) : (x + y) % 2 = d % 2 := by
  induction path with
  | start => rfl
  | diag | right | down => omega

variable {count : Nat}
theorem path_slide (path : Path n m same d x y)
    (slide : Slide n m same x y count) : Path n m same d (x + count) (y + count) := by
  induction count with
  | zero => exact path
  | succ count ih =>
    have here := slide count (lt_succ_self count)
    exact .diag d (x + count) (y + count) (ih fun i bound => slide i (lt_succ_of_lt bound))
      here.1 here.2.1 here.2.2

theorem slide_extend (slide : Slide n m same x y count)
    (left : x + count < n) (right : y + count < m) (equal : same (x + count) (y + count) = true) :
    Slide n m same x y (count + 1) := by
  intro i bound
  rcases Nat.lt_succ_iff_lt_or_eq.mp bound with before | last
  · exact slide i before
  · subst last
    exact ⟨left, right, equal⟩

theorem exists_slide (n m : Nat) (same : Nat → Nat → Bool) (x y : Nat) : ∃ count, Slide n m same x y count ∧
      ¬ (x + count < n ∧ y + count < m ∧ same (x + count) (y + count) = true) := by
  by_cases here : x < n ∧ y < m ∧ same x y = true
  · obtain ⟨count, slide, stopped⟩ := exists_slide n m same (x + 1) (y + 1)
    refine ⟨count + 1, ?_, by rwa [show x + (count + 1) = x + 1 + count by omega,
      show y + (count + 1) = y + 1 + count by omega]⟩
    intro i bound
    cases i with
    | zero => exact here
    | succ i =>
      have next := slide i (by omega)
      rwa [show x + (i + 1) = x + 1 + i by omega, show y + (i + 1) = y + 1 + i by omega]
  · exact ⟨0, fun i bound => absurd bound (not_lt_zero i), here⟩
termination_by n - x

theorem path_zero_slide (path : Path n m same d x y) (flat : d = 0) : x = y ∧ Slide n m same 0 0 x := by
  induction path with
  | start => exact ⟨rfl, fun i bound => absurd bound (not_lt_zero i)⟩
  | diag d x y _ left right equal ih =>
    obtain ⟨level, slide⟩ := ih flat
    subst level
    exact ⟨rfl, slide_extend slide (by simpa using left) (by simpa using right) (by simpa using equal)⟩
  | right | down => omega

theorem path_last_move (path : Path n m same d x y) (moved : 0 < d) : ∃ x₀ y₀ count, Path n m same (d - 1) x₀ y₀ ∧
      ((x = x₀ + 1 + count ∧ y = y₀ + count ∧ Slide n m same (x₀ + 1) y₀ count) ∨
        (x = x₀ + count ∧ y = y₀ + 1 + count ∧ Slide n m same x₀ (y₀ + 1) count)) := by
  induction path with
  | start => omega
  | diag d x y _ left right equal ih =>
    obtain ⟨x₀, y₀, count, previous, sideways | downward⟩ := ih moved
    · obtain ⟨atX, atY, slide⟩ := sideways
      subst atX atY
      exact ⟨x₀, y₀, count + 1, previous, .inl ⟨rfl, rfl, slide_extend slide left right equal⟩⟩
    · obtain ⟨atX, atY, slide⟩ := downward
      subst atX atY
      exact ⟨x₀, y₀, count + 1, previous, .inr ⟨rfl, rfl, slide_extend slide left right equal⟩⟩
  | right d x y previous _ =>
    exact ⟨x, y, 0, previous, .inl ⟨rfl, rfl, fun i bound => absurd bound (not_lt_zero i)⟩⟩
  | down d x y previous _ =>
    exact ⟨x, y, 0, previous, .inr ⟨rfl, rfl, fun i bound => absurd bound (not_lt_zero i)⟩⟩

theorem slide_monotone (x y : Nat) {x₀ y₀ : Nat} (count : Nat) {count₀ : Nat} (diagonal : (x₀ : Int) - y₀ = (x : Int) - y)
    (earlier : x₀ ≤ x) (slide : Slide n m same x₀ y₀ count₀)
    (stopped : ¬ (x + count < n ∧ y + count < m ∧ same (x + count) (y + count) = true)) :
    x₀ + count₀ ≤ x + count := by
  by_contra passed
  have inside : x + count - x₀ < count₀ := by omega
  have here := slide (x + count - x₀) inside
  have atX : x₀ + (x + count - x₀) = x + count := by omega
  have atY : y₀ + (x + count - x₀) = y + count := by omega
  rw [atX, atY] at here
  exact stopped here

theorem furthest_zero (slide : Slide n m same 0 0 count)
    (stopped : ¬ (count < n ∧ count < m ∧ same count count = true)) : Furthest n m same 0 0 count := by
  refine ⟨⟨count, by omega, by
    simpa using path_slide (.start : Path n m same 0 0 0) slide⟩, ?_⟩
  rintro other ⟨y, _, path⟩
  have flat := (path_zero_slide path rfl).2
  simpa using slide_monotone 0 0 count rfl (le_refl 0) flat (by simpa using stopped)

theorem furthest_next {k : Int} (diagonal : (x : Int) - y = k) (reached : Path n m same (d + 1) x y)
    (fromLeft : ∀ other, Reaches n m same d (k - 1) other → other + 1 ≤ x)
    (fromRight : ∀ other, Reaches n m same d (k + 1) other → other ≤ x)
    (slide : Slide n m same x y count)
    (stopped : ¬ (x + count < n ∧ y + count < m ∧ same (x + count) (y + count) = true)) :
    Furthest n m same (d + 1) k (x + count) := by
  refine ⟨⟨y + count, by push_cast; omega, path_slide reached slide⟩, ?_⟩
  rintro other ⟨otherY, otherDiagonal, path⟩
  obtain ⟨x₀, y₀, count₀, previous, sideways | downward⟩ := path_last_move path (succ_pos d)
  · obtain ⟨atX, atY, otherSlide⟩ := sideways
    have bound := fromLeft x₀ ⟨y₀, by push_cast at *; omega, previous⟩
    have monotone := slide_monotone x y count (by push_cast at *; omega) bound otherSlide stopped
    omega
  · obtain ⟨atX, atY, otherSlide⟩ := downward
    have bound := fromRight x₀ ⟨y₀, by push_cast at *; omega, previous⟩
    have monotone := slide_monotone x y count (by push_cast at *; omega) bound otherSlide stopped
    omega

theorem reaches_unique_furthest {other : Nat} {k : Int} (first : Furthest n m same d k x)
    (second : Furthest n m same d k other) : x = other :=
  le_antisymm (second.2 x first.1) (first.2 other second.1)

theorem path_clip (path : Path n m same d x y) :
    ∃ inner, Path n m same inner (min x n) (min y m) ∧ inner + (x - n) + (y - m) = d := by
  induction path with
  | start => exact ⟨0, by simpa using Path.start, by omega⟩
  | diag d x y _ left right equal ih =>
    obtain ⟨inner, clipped, count⟩ := ih
    rw [min_eq_left (by omega), min_eq_left (by omega)] at clipped
    refine ⟨inner, ?_, by omega⟩
    rw [min_eq_left (by omega), min_eq_left (by omega)]
    exact .diag inner x y clipped left right equal
  | right d x y _ ih =>
    obtain ⟨inner, clipped, count⟩ := ih
    by_cases within : x < n
    · rw [min_eq_left (by omega : x ≤ n)] at clipped
      refine ⟨inner + 1, ?_, by omega⟩
      rw [min_eq_left (by omega : x + 1 ≤ n)]
      exact .right inner x _ clipped
    · rw [min_eq_right (by omega : n ≤ x)] at clipped
      refine ⟨inner, ?_, by omega⟩
      rwa [min_eq_right (by omega : n ≤ x + 1)]
  | down d x y _ ih =>
    obtain ⟨inner, clipped, count⟩ := ih
    by_cases within : y < m
    · rw [min_eq_left (by omega : y ≤ m)] at clipped
      refine ⟨inner + 1, ?_, by omega⟩
      rw [min_eq_left (by omega : y + 1 ≤ m)]
      exact .down inner _ y clipped
    · rw [min_eq_right (by omega : m ≤ y)] at clipped
      refine ⟨inner, ?_, by omega⟩
      rwa [min_eq_right (by omega : m ≤ y + 1)]

theorem path_without_diagonals : ∀ x y : Nat, Path n m same (x + y) x y
  | 0, 0 => .start
  | x + 1, y => by
      have moved : Path n m same (x + y + 1) (x + 1) y := .right _ _ _ (path_without_diagonals x y)
      rwa [show x + y + 1 = x + 1 + y by omega] at moved
  | 0, y + 1 => .down _ _ _ (path_without_diagonals 0 y)

def Matching (n m : Nat) (same : Nat → Nat → Bool) (pairs : List (Nat × Nat)) : Prop :=
  pairs.Pairwise (fun p q => p.1 < q.1 ∧ p.2 < q.2) ∧
    ∀ p ∈ pairs, p.1 < n ∧ p.2 < m ∧ same p.1 p.2 = true

def IsLcsLength (n m : Nat) (same : Nat → Nat → Bool) (length : Nat) : Prop :=
  (∃ pairs, Matching n m same pairs ∧ pairs.length = length) ∧
    ∀ pairs, Matching n m same pairs → pairs.length ≤ length

theorem path_matching (path : Path n m same d x y) :
    ∃ pairs, Matching n m same pairs ∧ (∀ p ∈ pairs, p.1 < x ∧ p.2 < y) ∧ d + 2 * pairs.length = x + y := by
  induction path with
  | start => exact ⟨[], ⟨.nil, by simp⟩, by simp, rfl⟩
  | diag d x y _ left right equal ih =>
    obtain ⟨pairs, ⟨sorted, valid⟩, bounded, count⟩ := ih
    refine ⟨pairs ++ [(x, y)], ⟨pairwise_append.mpr ⟨sorted, by simp, ?_⟩, ?_⟩, ?_, ?_⟩
    · intro p mem q last
      rw [mem_singleton.mp last]
      exact bounded p mem
    · intro p mem
      rcases mem_append.mp mem with earlier | last
      · exact valid p earlier
      · rw [mem_singleton.mp last]
        exact ⟨left, right, equal⟩
    · intro p mem
      rcases mem_append.mp mem with earlier | last
      · have before := bounded p earlier
        omega
      · rw [mem_singleton.mp last]
        omega
    · rw [length_append, length_singleton]
      omega
  | right d x y _ ih | down d x y _ ih =>
    obtain ⟨pairs, valid, bounded, count⟩ := ih
    exact ⟨pairs, valid, fun p mem => by have before := bounded p mem; omega, by omega⟩

theorem path_extend (path : Path n m same d x y) (across along : Nat) :
    Path n m same (d + across + along) (x + across) (y + along) := by
  induction along with
  | zero =>
    induction across with
    | zero => exact path
    | succ across ih => exact .right _ _ _ ih
  | succ along ih => exact .down _ _ _ ih

theorem matching_path {pairs : List (Nat × Nat)} (valid : Matching n m same pairs) (x y : Nat)
    (bounded : ∀ p ∈ pairs, p.1 < x ∧ p.2 < y) :
    ∃ d, Path n m same d x y ∧ d + 2 * pairs.length = x + y := by
  induction pairs using List.reverseRecOn generalizing x y with
  | nil => exact ⟨x + y, path_without_diagonals x y, rfl⟩
  | append_singleton pairs last ih =>
    obtain ⟨sorted, equal⟩ := valid
    obtain ⟨sortedInit, -, ordered⟩ := pairwise_append.mp sorted
    have here := equal last (by simp)
    have corner := bounded last (by simp)
    obtain ⟨d, path, count⟩ := ih ⟨sortedInit, fun p mem => equal p (by simp [mem])⟩ last.1 last.2
      (fun p mem => ordered p mem last (by simp))
    have reached := path_extend (.diag d last.1 last.2 path here.1 here.2.1 here.2.2)
      (x - (last.1 + 1)) (y - (last.2 + 1))
    rw [show last.1 + 1 + (x - (last.1 + 1)) = x by omega,
      show last.2 + 1 + (y - (last.2 + 1)) = y by omega] at reached
    exact ⟨_, reached, by rw [length_append, length_singleton]; omega⟩

theorem shortest_path_lcs (path : Path n m same d n m) (shortest : ∀ other, Path n m same other n m → d ≤ other) :
    ∃ length, IsLcsLength n m same length ∧ d + 2 * length = n + m := by
  obtain ⟨pairs, valid, -, count⟩ := path_matching path
  refine ⟨pairs.length, ⟨⟨pairs, valid, rfl⟩, ?_⟩, count⟩
  intro other otherValid
  obtain ⟨moves, otherPath, otherCount⟩ := matching_path otherValid n m
    (fun p mem => ⟨(otherValid.2 p mem).1, (otherValid.2 p mem).2.1⟩)
  have bound := shortest moves otherPath
  omega

end
end Spicule.EditGraph
