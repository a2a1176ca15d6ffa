import Mathlib

namespace Spicule.Splice
open List Nat

section
variable {α β : Type}
def slice (xs : List α) (i j : Nat) : List α := (xs.drop i).take (j - i)

@[simp] theorem slice_self (xs : List α) (i : Nat) : slice xs i i = [] := by
  simp [slice]

theorem slice_length (xs : List α) {i j : Nat} (bound : j ≤ xs.length) : (slice xs i j).length = j - i := by
  simp only [slice, length_take, length_drop]
  omega

theorem slice_map (f : α → β) (xs : List α) (i j : Nat) : (slice xs i j).map f = slice (xs.map f) i j := by
  simp [slice, map_take, map_drop]

theorem slice_append (xs : List α) {i j k : Nat} (first : i ≤ j) (second : j ≤ k) :
    slice xs i j ++ slice xs j k = slice xs i k := by
  obtain ⟨p, rfl⟩ := Nat.exists_eq_add_of_le first
  obtain ⟨q, rfl⟩ := Nat.exists_eq_add_of_le second
  simp only [slice, Nat.add_sub_cancel_left, show i + p + q - i = p + q by omega]
  rw [take_add, drop_drop]

section
variable (xs : List α) {i j : Nat}
include xs i j

theorem slice_drop (order : i ≤ j) : slice xs i j ++ xs.drop j = xs.drop i := by
  obtain ⟨p, rfl⟩ := Nat.exists_eq_add_of_le order
  simp only [slice, Nat.add_sub_cancel_left]
  rw [← drop_drop, take_append_drop]

theorem take_slice (order : i ≤ j) : xs.take i ++ slice xs i j = xs.take j := by
  rw [slice, ← take_add, Nat.add_sub_cancel' order]

theorem slice_to_end (past : xs.length ≤ j) : slice xs i j = xs.drop i := by
  rw [slice, take_of_length_le]
  simp only [length_drop]
  omega

theorem slice_cons (order : i < j) (bound : i < xs.length) : slice xs i j = xs[i] :: slice xs (i + 1) j := by
  rw [slice, drop_eq_getElem_cons bound, show j - i = j - (i + 1) + 1 by omega, take_succ_cons, slice]

end

theorem slice_slice (xs : List α) {i j p q : Nat} (inside : i + q ≤ j) :
    slice (slice xs i j) p q = slice xs (i + p) (i + q) := by
  simp only [slice, drop_take, drop_drop, take_take]
  congr 1
  omega

theorem slice_shift {xs ys : List α} {i j k l : Nat} (same : slice xs i j = slice ys k l) {p q : Nat}
    (left : i + q ≤ j) (right : k + q ≤ l) : slice xs (i + p) (i + q) = slice ys (k + p) (k + q) := by
  rw [← slice_slice xs left, ← slice_slice ys right, same]

end

structure Region where
  a0 : Nat
  a1 : Nat
  b0 : Nat
  b1 : Nat
deriving DecidableEq, Repr

section
variable {α : Type} {xs ys : List α}

structure Stretch (xs ys : List α) (x y x' y' : Nat) : Prop where
  order : x ≤ x'
  diagonal : x' + y = y' + x
  equal : slice xs x x' = slice ys y y'

theorem stretch_empty (xs ys : List α) (x y : Nat) : Stretch xs ys x y x y :=
  ⟨le_refl x, add_comm x y, by rw [slice_self, slice_self]⟩

variable {x y x' y' : Nat}
theorem Stretch.order_right (stretch : Stretch xs ys x y x' y') : y ≤ y' := by
  have order := stretch.order
  have diagonal := stretch.diagonal
  omega

theorem Stretch.part (stretch : Stretch xs ys x y x' y') {p q : Nat} (order : p ≤ q)
    (inside : x + q ≤ x') : Stretch xs ys (x + p) (y + p) (x + q) (y + q) := by
  have diagonal := stretch.diagonal
  exact ⟨by omega, by omega, slice_shift stretch.equal inside (by omega)⟩

theorem Stretch.cut (stretch : Stretch xs ys x y x' y') {x₁ y₁ : Nat} (after : x ≤ x₁)
    (inside : x₁ ≤ x') (diagonal : x₁ + y = y₁ + x) : Stretch xs ys x y x₁ y₁ ∧ Stretch xs ys x₁ y₁ x' y' := by
  have whole := stretch.diagonal
  obtain ⟨p, rfl⟩ := Nat.exists_eq_add_of_le after
  obtain ⟨q, rfl⟩ := Nat.exists_eq_add_of_le inside
  obtain rfl : y₁ = y + p := by omega
  obtain rfl : y' = y + (p + q) := by omega
  have first := stretch.part (zero_le p) (by omega)
  have second := stretch.part (le_add_right p q) (by omega)
  simp only [add_zero] at first
  rw [← add_assoc] at second
  exact ⟨first, second⟩

def Aligned (xs ys : List α) (endX endY : Nat) : Nat → Nat → List Region → Prop
  | x, y, [] => Stretch xs ys x y endX endY
  | x, y, r :: rest =>
    Stretch xs ys x y r.a0 r.b0 ∧ (r.a0 ≤ r.a1 ∧ r.b0 ≤ r.b1) ∧ Aligned xs ys endX endY r.a1 r.b1 rest

variable (regions : List Region)
theorem aligned_bounds {endX endY : Nat} (x y : Nat)
    (aligned : Aligned xs ys endX endY x y regions) : x ≤ endX ∧ y ≤ endY := by
  induction regions generalizing x y with
  | nil => exact ⟨aligned.order, aligned.order_right⟩
  | cons r rest ih =>
    obtain ⟨stretch, inside, later⟩ := aligned
    obtain ⟨left, right⟩ := ih _ _ later
    have order := stretch.order
    have order' := stretch.order_right
    omega

def finish : Nat → Nat → List Region → Nat × Nat
  | x, y, [] => (x, y)
  | _, _, r :: rest => finish r.a1 r.b1 rest

theorem finish_last (r : Region) (rest : List Region) :
    finish r.a1 r.b1 rest = ((rest.getLastD r).a1, (rest.getLastD r).b1) := by
  induction rest generalizing r with
  | nil => rfl
  | cons s rest ih => rw [finish, ih s, getLastD_cons]

theorem aligned_split {endX endY : Nat} (first second : List Region) (x y : Nat)
    (aligned : Aligned xs ys endX endY x y (first ++ second)) :
    Aligned xs ys endX endY (finish x y first).1 (finish x y first).2 second ∧
      ∀ x' y', Stretch xs ys (finish x y first).1 (finish x y first).2 x' y' → Aligned xs ys x' y' x y first := by
  induction first generalizing x y with
  | nil => exact ⟨aligned, fun x' y' stretch => stretch⟩
  | cons r rest ih =>
    obtain ⟨stretch, inside, later⟩ := aligned
    obtain ⟨after, cut⟩ := ih _ _ later
    exact ⟨after, fun x' y' tail => ⟨stretch, inside, cut x' y' tail⟩⟩

def splice (xs ys : List α) : Nat → List Region → List α
  | src, [] => xs.drop src
  | src, r :: rest => slice xs src r.a0 ++ (slice ys r.b0 r.b1 ++ splice xs ys r.a1 rest)

theorem aligned_splice (x y : Nat)
    (aligned : Aligned xs ys xs.length ys.length x y regions) : splice xs ys x regions = ys.drop y := by
  induction regions generalizing x y with
  | nil =>
    have equal := aligned.equal
    rwa [slice_to_end xs (le_refl _), slice_to_end ys (le_refl _)] at equal
  | cons r rest ih =>
    obtain ⟨stretch, ⟨-, inside⟩, later⟩ := aligned
    rw [splice, ih _ _ later, slice_drop ys inside, stretch.equal, slice_drop ys stretch.order_right]

-- Where an outward search from `start`, ahead first, meets `pos` earlier than `own`.
def Sooner (start pos own : Nat) : Prop :=
  (pos - start) + (start - pos) < (own - start) + (start - own) ∨
    ((pos - start) + (start - pos) = (own - start) + (start - own) ∧ own < pos)

instance (start pos own : Nat) : Decidable (Sooner start pos own) := inferInstanceAs (Decidable (_ ∨ _))

end
end Spicule.Splice
