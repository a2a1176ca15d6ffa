import Mathlib

namespace Spicule.Comparator

structure TotalPreorder {κ : Type} (compar : κ → κ → Int) : Prop where
  flip : ∀ a b, 0 < compar a b ↔ compar b a < 0
  trans : ∀ a b c, compar a b ≤ 0 → compar b c ≤ 0 → compar a c ≤ 0

namespace TotalPreorder

variable {κ : Type} {compar : κ → κ → Int} (order : TotalPreorder compar) {a b c : κ}
include order

theorem flip_le (ge : 0 ≤ compar a b) : compar b a ≤ 0 :=
  Int.not_lt.mp fun above => Int.not_lt.mpr ge ((order.flip b a).mp above)

theorem refl (a : κ) : 0 ≤ compar a a := by
  have flipped := order.flip a a
  omega

theorem ge_trans (first : 0 ≤ compar a b) (second : 0 ≤ compar b c) : 0 ≤ compar a c := by
  have back := order.trans c b a (order.flip_le second) (order.flip_le first)
  exact Int.not_lt.mp fun less => Int.not_lt.mpr back ((order.flip c a).mpr less)

theorem lt_of_le_of_lt (le : compar a b ≤ 0) (lt : compar b c < 0) : compar a c < 0 := by
  refine Int.not_le.mp fun ge => ?_
  have reached := order.trans c a b (order.flip_le ge) le
  exact Int.not_lt.mpr reached ((order.flip c b).mpr lt)

theorem lt_of_lt_of_le (lt : compar a b < 0) (le : compar b c ≤ 0) : compar a c < 0 := by
  refine Int.not_le.mp fun ge => ?_
  have reached := order.trans b c a le (order.flip_le ge)
  exact Int.not_lt.mpr reached ((order.flip b a).mpr lt)

end TotalPreorder
end Spicule.Comparator
