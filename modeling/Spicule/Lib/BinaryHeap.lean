import Mathlib

-- Binary heaps in an array, a function of the index, with the largest value on top.
namespace Spicule.BinaryHeap

def Child (i j : Nat) : Prop := j = 2 * i + 1 ∨ j = 2 * i + 2

section
variable {β : Type} (ge : β → β → Prop)

-- Of the first `n` values, those from `low` on stand above their children.
def Heap (low n : Nat) (f : Nat → β) : Prop := ∀ i j, low ≤ i → Child i j → j < n → ge (f i) (f j)

-- A heap but for the value in the hole, which may have to go down.
structure Sifting (low n hole : Nat) (f : Nat → β) : Prop where
  apart : ∀ i j, low ≤ i → i ≠ hole → Child i j → j < n → ge (f i) (f j)
  across : ∀ i j, low ≤ i → Child i hole → Child hole j → j < n → ge (f i) (f j)

variable {ge} {low n hole c : Nat} {f : Nat → β}
theorem Heap.sifting (heap : Heap ge (hole + 1) n f) : Sifting ge hole n hole f where
  apart i j from_ differs child inside := heap i j (by omega) child inside
  across i j from_ above := by
    unfold Child at above
    omega

theorem Sifting.done (sifting : Sifting ge low n hole f) (stop : ∀ j, Child hole j → j < n → ge (f hole) (f j)) :
    Heap ge low n f := by
  intro i j from_ child inside
  by_cases here : i = hole
  · subst here
    exact stop j child inside
  · exact sifting.apart i j from_ here child inside

theorem Sifting.move (sifting : Sifting ge low n hole f) (child : Child hole c) (inside : c < n) (above : ge (f c) (f hole))
    (most : ∀ j, Child hole j → j < n → ge (f c) (f j)) (reached : low ≤ hole) :
    Sifting ge low n c (f ∘ Equiv.swap hole c) := by
  have apart : c ≠ hole := by
    unfold Child at child
    omega
  have other : ∀ k, k ≠ hole → k ≠ c → (f ∘ Equiv.swap hole c) k = f k := fun k first second =>
    congrArg f (Equiv.swap_apply_of_ne_of_ne first second)
  have up : (f ∘ Equiv.swap hole c) hole = f c := congrArg f (Equiv.swap_apply_left hole c)
  have down : (f ∘ Equiv.swap hole c) c = f hole := congrArg f (Equiv.swap_apply_right hole c)
  constructor
  · intro i j from_ differs next bound
    by_cases here : i = hole
    · subst here
      rw [up]
      by_cases own : j = c
      · rw [own, down]
        exact above
      · rw [other j (by unfold Child at next; omega) own]
        exact most j next bound
    · rw [other i here differs]
      by_cases own : j = hole
      · rw [own, up]
        exact sifting.across i c from_ (own ▸ next) child inside
      · rw [other j own (by unfold Child at next child; omega)]
        exact sifting.apart i j from_ here next bound
  · intro i j from_ first second bound
    obtain rfl : i = hole := by
      unfold Child at first child
      omega
    rw [up, other j (by unfold Child at first second; omega) (by unfold Child at second; omega)]
    exact sifting.apart c j (by unfold Child at child; omega) apart second bound

theorem Heap.top (heap : Heap ge 0 n f) (refl : ∀ x, ge x x) (trans : ∀ x y z, ge x y → ge y z → ge x z) (j : Nat)
    (inside : j < n) : ge (f 0) (f j) := by
  induction j using Nat.strongRecOn with
  | ind j ih =>
    cases j with
    | zero => exact refl _
    | succ j =>
      have parent := ih (j / 2) (by omega) (by omega)
      exact trans _ _ _ parent (heap (j / 2) (j + 1) (Nat.zero_le _) (by unfold Child; omega) inside)

end
end Spicule.BinaryHeap
