import Mathlib

-- Writing into a sequence at a position, with filler in front where it is short.
namespace Spicule.Overwrite
open List

variable {α : Type} (fill : α)
def overwrite (xs : List α) (position : Nat) (ys : List α) : List α :=
  if ys = [] then xs
  else xs.take position ++ List.replicate (position - xs.length) fill ++ ys ++ xs.drop (position + ys.length)

@[simp] theorem overwrite_nil (xs : List α) (position : Nat) : overwrite fill xs position [] = xs := if_pos rfl

variable (xs ys : List α) (position : Nat)
theorem overwrite_some (filled : ys ≠ []) : overwrite fill xs position ys =
    (xs.take position ++ List.replicate (position - xs.length) fill ++ ys) ++ xs.drop (position + ys.length) :=
  if_neg filled

theorem front_length :
    (xs.take position ++ List.replicate (position - xs.length) fill ++ ys).length = position + ys.length := by
  simp only [length_append, length_take, length_replicate]
  omega

theorem overwrite_length (filled : ys ≠ []) :
    (overwrite fill xs position ys).length = max xs.length (position + ys.length) := by
  rw [overwrite_some fill xs ys position filled, length_append, front_length, length_drop]
  omega

theorem overwrite_append (zs : List α) (position : Nat) :
    overwrite fill (overwrite fill xs position ys) (position + ys.length) zs = overwrite fill xs position (ys ++ zs) := by
  by_cases first : ys = []
  · rw [first, overwrite_nil, length_nil, Nat.add_zero, nil_append]
  by_cases second : zs = []
  · rw [second, overwrite_nil, append_nil]
  have both : ys ++ zs ≠ [] := fun empty => first (append_eq_nil_iff.mp empty).1
  have front := front_length fill xs ys position
  have longer := overwrite_length fill xs ys position first
  have reached : position + ys.length - (overwrite fill xs position ys).length = 0 := by omega
  rw [overwrite_some fill _ zs _ second, reached, replicate_zero, append_nil,
    overwrite_some fill xs ys position first, take_left' front, drop_append, front,
    drop_eq_nil_of_le (by omega), nil_append, overwrite_some fill xs _ position both, length_append,
    append_assoc _ ys zs, drop_drop]
  congr 2
  omega

theorem overwrite_end : overwrite fill xs xs.length ys = xs ++ ys := by
  by_cases empty : ys = []
  · rw [empty, overwrite_nil, append_nil]
  · rw [overwrite_some fill xs ys _ empty, take_length, Nat.sub_self, replicate_zero, append_nil,
      drop_eq_nil_of_le (by omega), append_nil]

theorem filled_take {block : List α} {length position : Nat} (held : length ≤ block.length) (inside : position ≤ block.length)
    (gap : ∀ j, length ≤ j → j < position → block[j]? = some fill) :
    (block.take length).take position ++ List.replicate (position - (block.take length).length) fill = block.take position := by
  rw [length_take, Nat.min_eq_left held]
  by_cases short : position ≤ length
  · rw [take_take, Nat.min_eq_left short, Nat.sub_eq_zero_of_le short, replicate_zero, append_nil]
  · have between : List.replicate (position - length) fill = (block.drop length).take (position - length) := by
      refine (eq_replicate_iff.mpr ⟨?_, fun x mem => ?_⟩).symm
      · rw [length_take, length_drop]
        omega
      · obtain ⟨j, found⟩ := mem_iff_getElem?.mp mem
        have below := (List.getElem?_eq_some_iff.mp found).1
        rw [length_take] at below
        rw [List.getElem?_take_of_lt (by omega), List.getElem?_drop, gap _ (Nat.le_add_right _ _) (by omega)] at found
        exact (Option.some.inj found).symm
    rw [take_take, Nat.min_eq_right (by omega), between, ← take_add, Nat.add_sub_of_le (by omega)]

theorem overwrite_block {block ys : List α} {length position : Nat} (filled : ys ≠ []) (held : length ≤ block.length)
    (inside : position ≤ block.length) (gap : ∀ j, length ≤ j → j < position → block[j]? = some fill) :
    (block.take position ++ ys ++ block.drop (position + ys.length)).take (max length (position + ys.length)) =
      overwrite fill (block.take length) position ys := by
  have front : (block.take position ++ ys).length = position + ys.length := by
    rw [length_append, length_take, Nat.min_eq_left inside]
  have beyond : max length (position + ys.length) - (position + ys.length) = length - (position + ys.length) := by omega
  rw [overwrite_some fill _ ys position filled, filled_take fill held inside gap, take_append, front,
    beyond, take_of_length_le (by rw [front]; exact Nat.le_max_right _ _), drop_take]

end Spicule.Overwrite
