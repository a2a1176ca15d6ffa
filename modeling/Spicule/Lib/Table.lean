import Mathlib

namespace Spicule.Table

variable {A : Type}
def contents (n : Nat) (place : Nat → Option A) : List A := (List.range n).filterMap place

theorem contents_succ (n : Nat) (place : Nat → Option A) :
    contents (n + 1) place = contents n place ++ (place n).toList := by
  unfold contents
  rw [List.range_succ, List.filterMap_append]
  cases held : place n <;> simp [held]

variable {place : Nat → Option A} {n : Nat} {a : A}
theorem mem_contents : a ∈ contents n place ↔ ∃ i < n, place i = some a := by
  simp [contents]

variable {place' : Nat → Option A}
theorem contents_congr (same : ∀ i < n, place' i = place i) : contents n place' = contents n place := by
  induction n with
  | zero => rfl
  | succ n ih =>
    rw [contents_succ, contents_succ, same n (Nat.lt_succ_self n), ih fun i below => same i (Nat.lt_succ_of_lt below)]

theorem contents_fill {j : Nat} (bound : j < n) (empty : place j = none)
    (filled : place' j = some a) (same : ∀ i, i ≠ j → place' i = place i) :
    (contents n place').Perm (a :: contents n place) := by
  induction n with
  | zero => exact absurd bound (Nat.not_lt_zero j)
  | succ n ih =>
    rw [contents_succ, contents_succ]
    by_cases last : j = n
    · subst last
      rw [contents_congr fun i below => same i (Nat.ne_of_lt below), empty, filled]
      simp
    · rw [same n fun equal => last equal.symm]
      exact (ih (by omega)).append_right _

theorem contents_clear {j : Nat} (bound : j < n) (held : place j = some a)
    (cleared : place' j = none) (same : ∀ i, i ≠ j → place' i = place i) :
    (contents n place).Perm (a :: contents n place') :=
  contents_fill bound cleared held fun i other => (same i other).symm

theorem contents_full (full : ∀ i < n, place i ≠ none) : (contents n place).length = n := by
  induction n with
  | zero => rfl
  | succ n ih =>
    obtain ⟨a, held⟩ := Option.ne_none_iff_exists'.mp (full n (Nat.lt_succ_self n))
    rw [contents_succ, List.length_append, ih fun i below => full i (Nat.lt_succ_of_lt below), held]
    rfl

theorem contents_empty (empty : ∀ i < n, place i = none) : contents n place = [] := by
  rw [List.eq_nil_iff_forall_not_mem]
  intro a mem
  obtain ⟨i, below, held⟩ := mem_contents.mp mem
  rw [empty i below] at held
  exact nomatch held

end Spicule.Table
