import Mathlib

namespace Spicule.Crowd
open List

variable {A : Type}
def flag (b : Bool) : Nat := if b then 1 else 0

@[simp] theorem flag_true : flag true = 1 := rfl

@[simp] theorem flag_false : flag false = 0 := rfl

variable {i : Nat}
theorem count_set (p : A → Bool) {crowd : List A} {old : A} (new : A) (here : crowd[i]? = some old) :
    (crowd.set i new).countP p + flag (p old) = crowd.countP p + flag (p new) := by
  induction crowd generalizing i with
  | nil => exact nomatch here
  | cons head rest ih =>
    cases i with
    | zero =>
      obtain rfl : head = old := Option.some.inj here
      rw [set_cons_zero, countP_cons, countP_cons]
      unfold flag
      omega
    | succ i =>
      have step := ih (i := i) (by simpa using here)
      rw [set_cons_succ, countP_cons, countP_cons]
      omega

variable {p : A → Bool} {crowd : List A} {a : A}
theorem count_pos (here : crowd[i]? = some a) (holds : p a = true) : 0 < crowd.countP p :=
  countP_pos_iff.mpr ⟨a, mem_of_getElem? here, holds⟩

theorem flag_le_count (p : A → Bool) {crowd : List A} (here : crowd[i]? = some a) : flag (p a) ≤ crowd.countP p := by
  cases holds : p a with
  | false => exact Nat.zero_le _
  | true => exact count_pos here holds

theorem count_unique (one : crowd.countP p ≤ 1) {j : Nat} {b : A}
    (first : crowd[i]? = some a) (second : crowd[j]? = some b) (holdsFirst : p a = true) (holdsSecond : p b = true) :
    i = j := by
  induction crowd generalizing i j with
  | nil => exact nomatch first
  | cons head rest ih =>
    rw [countP_cons] at one
    cases i with
    | zero =>
      obtain rfl : head = a := Option.some.inj first
      cases j with
      | zero => rfl
      | succ j =>
        have more : 0 < rest.countP p := count_pos (i := j) (by simpa using second) holdsSecond
        rw [if_pos holdsFirst] at one
        omega
    | succ i =>
      have more : 0 < rest.countP p := count_pos (i := i) (by simpa using first) holdsFirst
      cases j with
      | zero =>
        obtain rfl : head = b := Option.some.inj second
        rw [if_pos holdsSecond] at one
        omega
      | succ j =>
        have same := ih (by omega) (i := i) (j := j) (by simpa using first) (by simpa using second)
        rw [same]

theorem count_zero (none : ∀ a ∈ crowd, p a = false) : crowd.countP p = 0 := by
  rw [countP_eq_zero]
  intro a mem
  rw [none a mem]
  exact Bool.false_ne_true

theorem get_set {j : Nat} {new : A} (here : (crowd.set i new)[j]? = some a) :
    a = new ∧ i = j ∨ i ≠ j ∧ crowd[j]? = some a := by
  rw [List.getElem?_set] at here
  split at here
  · rename_i same
    split at here
    · exact .inl ⟨(Option.some.inj here).symm, same⟩
    · exact nomatch here
  · rename_i other
    exact .inr ⟨other, here⟩

end Spicule.Crowd
