import Mathlib

-- Rounding to the nearest, ties to even, to p significant bits with least exponent emin
-- and no bound above.
namespace Spicule.Rounding
open Nat
open Nat Prod

def value (q : ℕ) (g : ℤ) : ℚ := q * 2 ^ g

structure Canonical (p : ℕ) (emin : ℤ) (q : ℕ) (g : ℤ) : Prop where
  fits : q < 2 ^ p
  least : emin ≤ g
  full : 2 ^ (p - 1) ≤ q ∨ g = emin

structure NearestEven (p : ℕ) (emin : ℤ) (x : ℚ) (q : ℕ) (g : ℤ) : Prop where
  canonical : Canonical p emin q g
  nearest : ∀ q' g', Canonical p emin q' g' → |x - value q g| ≤ |x - value q' g'|
  even : ∀ q' g', Canonical p emin q' g' → (q', g') ≠ (q, g) → |x - value q g| = |x - value q' g'| → q % 2 = 0

theorem unit_pos (g : ℤ) : (0 : ℚ) < 2 ^ g := zpow_pos (by norm_num) g

theorem value_nonneg (q : ℕ) (g : ℤ) : 0 ≤ value q g := mul_nonneg (cast_nonneg q) (unit_pos g).le

theorem value_mono (q q' : ℕ) (g : ℤ) (le : q ≤ q') : value q g ≤ value q' g :=
  mul_le_mul_of_nonneg_right (cast_le.mpr le) (unit_pos g).le

theorem value_succ (q : ℕ) (g : ℤ) : value (q + 1) g = value q g + 2 ^ g := by
  unfold value
  push_cast
  ring

theorem value_rescale (q : ℕ) (g : ℤ) (k : ℕ) : value q (g + k) = value (q * 2 ^ k) g := by
  unfold value
  rw [zpow_add₀ (by norm_num), zpow_natCast]
  push_cast
  ring

theorem value_lt (q p : ℕ) (g : ℤ) (fits : q < 2 ^ p) : value q g < 2 ^ (g + p) := by
  have cast : (q : ℚ) < 2 ^ p := by exact_mod_cast fits
  rw [add_comm, zpow_add₀ (by norm_num), zpow_natCast]
  exact mul_lt_mul_of_pos_right cast (unit_pos g)

theorem value_inj {q q' : ℕ} {g : ℤ} (same : value q g = value q' g) : q = q' :=
  cast_injective (mul_right_cancel₀ (unit_pos g).ne' same)

section
variable {p : ℕ} {emin : ℤ}
variable (q q' : ℕ) (g g' : ℤ)

section
variable (here : Canonical p emin q g) (there : Canonical p emin q' g')
include here there

theorem canonical_unique_le
    (ordered : g ≤ g') (pos : 0 < p) (same : value q g = value q' g') : (q, g) = (q', g') := by
  obtain ⟨k, shifted⟩ := Int.le.dest ordered
  rw [← shifted, value_rescale] at same
  have scaled := value_inj same
  rcases Nat.eq_zero_or_pos k with zero | moved
  · rw [zero] at scaled shifted
    rw [pow_zero, mul_one] at scaled
    rw [scaled, ← shifted, cast_zero, add_zero]
  · have above : g' ≠ emin := by
      have := here.least
      omega
    have large := there.full.resolve_right above
    have fits := here.fits
    have twice : 2 ≤ 2 ^ k := le_self_pow (by omega) 2
    have power : 2 ^ p = 2 ^ (p - 1) * 2 := by rw [← pow_succ]; congr 1; omega
    have grown : 2 ^ (p - 1) * 2 ≤ q' * 2 ^ k := Nat.mul_le_mul large twice
    omega

theorem canonical_unique (pos : 0 < p) (same : value q g = value q' g') : (q, g) = (q', g') := by
  rcases le_total g g' with ordered | ordered
  · exact canonical_unique_le q q' g g' here there ordered pos same
  · exact (canonical_unique_le q' q g' g there here ordered pos same.symm).symm

theorem canonical_gap (pos : 0 < p) : value q' g' ≤ value q g ∨ value (q + 1) g ≤ value q' g' := by
  rcases le_or_gt g g' with ordered | below
  · obtain ⟨k, shifted⟩ := Int.le.dest ordered
    rw [← shifted, value_rescale]
    rcases lt_or_ge q (q' * 2 ^ k) with less | more
    · exact Or.inr (value_mono _ _ g less)
    · exact Or.inl (value_mono _ _ g more)
  · left
    have above : g ≠ emin := by
      have := there.least
      omega
    obtain ⟨k, shifted⟩ := Int.le.dest (show g' + 1 ≤ g by omega)
    have power : 2 ^ p = 2 ^ (p - 1) * 2 := by rw [← pow_succ]; congr 1; omega
    rw [show g = g' + ((k + 1 : ℕ) : ℤ) by push_cast; omega, value_rescale]
    apply value_mono
    have large := here.full.resolve_right above
    have fits := there.fits
    have one : 1 ≤ 2 ^ k := Nat.one_le_two_pow
    calc q' ≤ 2 ^ (p - 1) * 2 := by omega
      _ ≤ q * (2 ^ k * 2) := Nat.mul_le_mul large (by omega)
      _ = q * 2 ^ (k + 1) := by rw [pow_succ]

end

def above (p : ℕ) (q : ℕ) (g : ℤ) : ℕ × ℤ := if q + 1 = 2 ^ p then (2 ^ (p - 1), g + 1) else (q + 1, g)

theorem above_value (pos : 0 < p) : value (above p q g).1 (above p q g).2 = value (q + 1) g := by
  unfold above
  split
  · rename_i full
    have power : 2 ^ (p - 1) * 2 ^ 1 = 2 ^ p := by rw [← pow_add]; congr 1; omega
    have shifted := value_rescale (2 ^ (p - 1)) g 1
    rw [power] at shifted
    rw [full, ← shifted, cast_one]
  · rfl

variable {q}
theorem above_canonical (here : Canonical p emin q g) (pos : 0 < p) :
    Canonical p emin (above p q g).1 (above p q g).2 := by
  have fits := here.fits
  have least := here.least
  unfold above
  split
  · exact ⟨Nat.pow_lt_pow_right (by norm_num) (by omega), by simp only; omega, Or.inl (le_refl _)⟩
  · rename_i room
    refine ⟨by simp only; omega, least, ?_⟩
    rcases here.full with full | bottom
    · exact Or.inl (by simp only; omega)
    · exact Or.inr bottom

theorem above_even (several : 2 ≤ p) (odd : q % 2 = 1) : (above p q g).1 % 2 = 0 := by
  unfold above
  split
  · obtain ⟨k, shape⟩ : ∃ k, p - 1 = k + 1 := ⟨p - 2, by omega⟩
    simp only [shape, pow_succ, mul_mod_left]
  · simp only
    omega

variable (x : ℚ)
variable {g}
theorem nearest_below (here : Canonical p emin q g) (several : 2 ≤ p) (floor : value q g ≤ x)
    (low : x ≤ value q g + 2 ^ g / 2) (tie : x = value q g + 2 ^ g / 2 → q % 2 = 0) : NearestEven p emin x q g := by
  have step := value_succ q g
  have unit := unit_pos g
  have distance : |x - value q g| = x - value q g := abs_of_nonneg (by linarith)
  refine ⟨here, ?_, ?_⟩
  · intro q' g' there
    rw [distance]
    rcases canonical_gap q q' g g' here there (by omega) with below | beyond
    · rw [abs_of_nonneg (by linarith)]
      linarith
    · rw [abs_of_nonpos (by linarith)]
      linarith
  · intro q' g' there differs same
    rw [distance] at same
    rcases canonical_gap q q' g g' here there (by omega) with below | beyond
    · rw [abs_of_nonneg (by linarith)] at same
      exact absurd (canonical_unique q' q g' g there here (by omega) (by linarith)) differs
    · rw [abs_of_nonpos (by linarith)] at same
      exact tie (by linarith)

theorem nearest_above (here : Canonical p emin q g) (several : 2 ≤ p)
    (ceiling : x ≤ value (q + 1) g) (high : value q g + 2 ^ g / 2 ≤ x) (tie : x = value q g + 2 ^ g / 2 → q % 2 = 1) :
    NearestEven p emin x (above p q g).1 (above p q g).2 := by
  have step := value_succ q g
  have unit := unit_pos g
  have there₀ := above_canonical g here (by omega)
  have upper := above_value (p := p) q g (by omega)
  have distance : |x - value (above p q g).1 (above p q g).2| = value (q + 1) g - x := by
    rw [upper, abs_of_nonpos (by linarith)]
    ring
  refine ⟨there₀, ?_, ?_⟩
  · intro q' g' there
    rw [distance]
    rcases canonical_gap q q' g g' here there (by omega) with below | beyond
    · rw [abs_of_nonneg (by linarith)]
      linarith
    · rw [abs_of_nonpos (by linarith)]
      linarith
  · intro q' g' there differs same
    rw [distance] at same
    rcases canonical_gap q q' g g' here there (by omega) with below | beyond
    · rw [abs_of_nonneg (by linarith)] at same
      exact above_even g several (tie (by linarith))
    · rw [abs_of_nonpos (by linarith)] at same
      exact absurd (canonical_unique q' _ g' _ there there₀ (by omega) (by linarith)) differs

theorem nearest_ge (rounded : NearestEven p emin x q g) (there : Canonical p emin q' g')
    (le : value q' g' ≤ x) : value q' g' ≤ value q g := by
  by_contra below
  rw [not_le] at below
  have nearest := rounded.nearest q' g' there
  rw [abs_of_nonneg (by linarith), abs_of_nonneg (by linarith)] at nearest
  linarith

theorem nearest_le (rounded : NearestEven p emin x q g) (there : Canonical p emin q' g')
    (le : x ≤ value q' g') : value q g ≤ value q' g' := by
  by_contra beyond
  rw [not_le] at beyond
  have nearest := rounded.nearest q' g' there
  rw [abs_of_nonpos (by linarith), abs_of_nonpos (by linarith)] at nearest
  linarith

variable {q₀ : ℕ}
theorem beyond_of_middle {g g₀ : ℤ} {x : ℚ} (rounded : NearestEven p emin x q g)
    (here : Canonical p emin q₀ g₀) (pos : 0 < p) (high : value q₀ g₀ + 2 ^ g₀ / 2 < x) :
    value q₀ g₀ < value q g := by
  have step := value_succ q₀ g₀
  have unit := unit_pos g₀
  have next := above_canonical g₀ here pos
  have upper := above_value q₀ g₀ pos
  by_contra below
  rw [not_lt] at below
  rcases le_total (value (q₀ + 1) g₀) x with overs | under
  · have reach := nearest_ge _ _ x rounded next (by rw [upper]; exact overs)
    rw [upper] at reach
    linarith
  · have nearest := rounded.nearest _ _ next
    rw [upper, abs_of_nonneg (by linarith), abs_of_nonpos (by linarith)] at nearest
    linarith

theorem middle_of_beyond {g g₀ : ℤ} {x : ℚ} (rounded : NearestEven p emin x q g)
    (here : Canonical p emin q₀ g₀) (pos : 0 < p) (beyond : value q₀ g₀ < value q g) :
    value q₀ g₀ + 2 ^ g₀ / 2 ≤ x := by
  have step := value_succ q₀ g₀
  by_contra low
  rw [not_le] at low
  have far := (canonical_gap q₀ q g₀ g here rounded.canonical pos).resolve_left beyond.not_ge
  have nearest := rounded.nearest q₀ g₀ here
  rw [abs_of_nonpos (by linarith)] at nearest
  rcases le_total x (value q₀ g₀) with under | overs
  · exact beyond.not_ge (nearest_le q₀ g₀ x rounded here under)
  · rw [abs_of_nonneg (by linarith)] at nearest
    linarith

theorem beyond_iff_odd {g g₀ : ℤ} {x : ℚ} (rounded : NearestEven p emin x q g)
    (here : Canonical p emin q₀ g₀) (pos : 0 < p) (odd : q₀ % 2 = 1) :
    value q₀ g₀ < value q g ↔ value q₀ g₀ + 2 ^ g₀ / 2 ≤ x := by
  refine ⟨middle_of_beyond rounded here pos, fun high => ?_⟩
  rcases high.lt_or_eq with overs | middle
  · exact beyond_of_middle rounded here pos overs
  · have unit := unit_pos g₀
    have upper := above_value q₀ g₀ pos
    rw [value_succ] at upper
    have next := above_canonical g₀ here pos
    by_contra below
    rw [not_lt] at below
    have nearest := rounded.nearest _ _ next
    rw [upper, abs_of_nonneg (by linarith), abs_of_nonpos (by linarith)] at nearest
    have same := canonical_unique q q₀ g g₀ rounded.canonical here pos (by linarith)
    have tie : |x - value q g| = |x - value (above p q₀ g₀).1 (above p q₀ g₀).2| := by
      rw [upper, abs_of_nonneg (by linarith), abs_of_nonpos (by linarith)]
      linarith
    have apart : ((above p q₀ g₀).1, (above p q₀ g₀).2) ≠ (q, g) := by
      intro equal
      rw [mk.injEq] at equal
      rw [equal.1, equal.2] at upper
      linarith
    have even := rounded.even _ _ next apart tie
    rw [(mk.inj same).1] at even
    omega

theorem beyond_iff_even {g g₀ : ℤ} {x : ℚ} (rounded : NearestEven p emin x q g)
    (here : Canonical p emin q₀ g₀) (pos : 0 < p) (even : q₀ % 2 = 0) :
    value q₀ g₀ < value q g ↔ value q₀ g₀ + 2 ^ g₀ / 2 < x := by
  refine ⟨fun beyond => ?_, beyond_of_middle rounded here pos⟩
  apply (middle_of_beyond rounded here pos beyond).lt_of_ne
  intro middle
  have unit := unit_pos g₀
  have upper := above_value q₀ g₀ pos
  have room : q₀ + 1 ≠ 2 ^ p := by
    have power : 2 ^ p = 2 ^ (p - 1) * 2 := by rw [← pow_succ]; congr 1; omega
    omega
  have shape : above p q₀ g₀ = (q₀ + 1, g₀) := if_neg room
  have far := (canonical_gap q₀ q g₀ g here rounded.canonical pos).resolve_left beyond.not_ge
  rw [value_succ] at far upper
  have nearest := rounded.nearest q₀ g₀ here
  have next := above_canonical g₀ here pos
  rw [abs_of_nonpos (by linarith), abs_of_nonneg (by linarith)] at nearest
  have same := canonical_unique q _ g _ rounded.canonical next pos (by rw [upper]; linarith)
  have tie : |x - value q g| = |x - value q₀ g₀| := by
    rw [abs_of_nonpos (by linarith), abs_of_nonneg (by linarith)]
    linarith
  have apart : (q₀, g₀) ≠ (q, g) := by
    intro equal
    rw [(mk.inj equal).1, (mk.inj equal).2] at beyond
    exact lt_irrefl _ beyond
  have parity := rounded.even q₀ g₀ here apart tie
  rw [(mk.inj same).1, shape] at parity
  simp only at parity
  omega

theorem nearest_le_twice (rounded : NearestEven p emin x q g) (nonneg : 0 ≤ x) : value q g ≤ 2 * x := by
  have zero : Canonical p emin 0 emin := ⟨Nat.two_pow_pos p, le_refl _, Or.inr rfl⟩
  have nearest := rounded.nearest 0 emin zero
  have origin : value 0 emin = 0 := by simp [value]
  rw [origin, sub_zero, abs_of_nonneg nonneg] at nearest
  linarith [neg_abs_le (x - value q g)]

theorem lt_twice_nearest (rounded : NearestEven p emin x q g) (pos : 0 < p)
    (nonzero : 0 < value q g) : x < 2 * value q g := by
  have here := rounded.canonical
  have fits := here.fits
  have least := here.least
  by_contra far
  rw [not_lt] at far
  have power : 2 ^ p = 2 ^ (p - 1) * 2 := by rw [← pow_succ]; congr 1; omega
  have double : ∃ q' g', Canonical p emin q' g' ∧ value q' g' = 2 * value q g := by
    by_cases large : 2 ^ (p - 1) ≤ q
    · refine ⟨q, g + 1, ⟨fits, by omega, Or.inl large⟩, ?_⟩
      unfold value
      rw [zpow_add_one₀ (by norm_num)]
      ring
    · refine ⟨2 * q, g, ⟨by omega, least, Or.inr (here.full.resolve_left large)⟩, ?_⟩
      unfold value
      push_cast
      ring
  obtain ⟨q', g', there, twice⟩ := double
  have nearest := rounded.nearest q' g' there
  rw [twice, abs_of_nonneg (by linarith), abs_of_nonneg (by linarith)] at nearest
  linarith

theorem canonical_apart (here : Canonical p emin q g) (there : Canonical p emin q' g')
    (pos : 0 < p) (differ : value q' g' ≠ value q g) : value q g ≤ 2 ^ p * |value q' g' - value q g| := by
  have size : value q g ≤ 2 ^ p * 2 ^ g := by
    have fits : (q : ℚ) ≤ 2 ^ p := by exact_mod_cast here.fits.le
    exact mul_le_mul_of_nonneg_right fits (unit_pos g).le
  have power : (0 : ℚ) < 2 ^ p := by positivity
  rcases canonical_gap q q' g g' here there pos with below | above
  · have less : value q' g' < value q g := below.lt_of_ne differ
    rw [abs_of_neg (by linarith)]
    have gap := (canonical_gap q' q g' g there here pos).resolve_left less.not_ge
    rw [value_succ] at gap
    rcases le_or_gt g g' with ordered | lower
    · have unit : (2 : ℚ) ^ g ≤ 2 ^ g' := zpow_le_zpow_right₀ (by norm_num) ordered
      calc value q g ≤ 2 ^ p * 2 ^ g := size
        _ ≤ 2 ^ p * -(value q' g' - value q g) := mul_le_mul_of_nonneg_left (by linarith) power.le
    · obtain ⟨k, shifted⟩ := Int.le.dest (show g' + 1 ≤ g by omega)
      have full := here.full.resolve_right (by have := there.least; omega)
      have scaled : value q g = value (q * 2 ^ (k + 1)) g' := by
        rw [← value_rescale]
        congr 1
        push_cast
        omega
      have wide : 2 ^ p ≤ q * 2 ^ (k + 1) := by
        calc 2 ^ p = 2 ^ (p - 1) * 2 ^ 1 := by rw [← pow_add]; congr 1; omega
          _ ≤ q * 2 ^ (k + 1) := Nat.mul_le_mul full (Nat.pow_le_pow_right (by norm_num) (by omega))
      have low : (q' : ℚ) + 1 ≤ 2 ^ p := by exact_mod_cast there.fits
      have high : (2 : ℚ) ^ p ≤ (q * 2 ^ (k + 1) : ℕ) := by exact_mod_cast wide
      have ratio : ((q * 2 ^ (k + 1) : ℕ) : ℚ) ≤ 2 ^ p * ((q * 2 ^ (k + 1) : ℕ) - q') := by nlinarith
      rw [scaled]
      unfold value
      calc ((q * 2 ^ (k + 1) : ℕ) : ℚ) * 2 ^ g' ≤ 2 ^ p * ((q * 2 ^ (k + 1) : ℕ) - q') * 2 ^ g' :=
            mul_le_mul_of_nonneg_right ratio (unit_pos g').le
        _ = 2 ^ p * -(q' * 2 ^ g' - (q * 2 ^ (k + 1) : ℕ) * 2 ^ g') := by ring
  · rw [value_succ] at above
    rw [abs_of_pos (by linarith [unit_pos g])]
    calc value q g ≤ 2 ^ p * 2 ^ g := size
      _ ≤ 2 ^ p * (value q' g' - value q g) := mul_le_mul_of_nonneg_left (by linarith) power.le

theorem floor_exists (nonneg : 0 ≤ x) (pos : 0 < p) :
    ∃ q g, Canonical p emin q g ∧ value q g ≤ x ∧ x < value (q + 1) g := by
  rcases nonneg.eq_or_lt with zero | nonzero
  · refine ⟨0, emin, ⟨Nat.two_pow_pos p, le_refl _, Or.inr rfl⟩, ?_, ?_⟩
    · rw [← zero]
      simp [value]
    · rw [← zero]
      simp only [value, zero_add, cast_one, one_mul]
      exact unit_pos emin
  · obtain ⟨g, shape⟩ : ∃ g, g = max emin (Int.log 2 x - (p - 1 : ℕ)) := ⟨_, rfl⟩
    have unit := unit_pos g
    have below : x < 2 ^ (Int.log 2 x + 1) := Int.lt_zpow_succ_log_self (by norm_num) x
    have reach : (2 : ℚ) ^ Int.log 2 x ≤ x := Int.zpow_log_le_self (by norm_num) nonzero
    have floor := floor_le (show 0 ≤ x / 2 ^ g by positivity)
    have ceiling := lt_floor_add_one (x / 2 ^ g)
    refine ⟨⌊x / 2 ^ g⌋₊, g, ⟨?_, by omega, ?_⟩, ?_, ?_⟩
    · apply floor_lt' (Nat.two_pow_pos p).ne' |>.mpr
      rw [div_lt_iff₀ unit]
      apply lt_of_lt_of_le below
      push_cast
      rw [← zpow_natCast, ← zpow_add₀ (by norm_num)]
      exact zpow_le_zpow_right₀ (by norm_num) (by omega)
    · by_cases bottom : g = emin
      · exact Or.inr bottom
      · left
        apply le_floor
        rw [le_div_iff₀ unit]
        apply le_trans _ reach
        push_cast
        rw [← zpow_natCast, ← zpow_add₀ (by norm_num)]
        exact zpow_le_zpow_right₀ (by norm_num) (by omega)
    · exact (le_div_iff₀ unit).mp floor
    · have lifted := (div_lt_iff₀ unit).mp ceiling
      unfold value
      push_cast
      exact lifted

theorem nearest_exists (nonneg : 0 ≤ x) (several : 2 ≤ p) : ∃ q g, NearestEven p emin x q g := by
  obtain ⟨q, g, here, floor, ceiling⟩ := @floor_exists p emin x nonneg (by omega)
  rcases lt_trichotomy x (value q g + 2 ^ g / 2) with low | middle | high
  · exact ⟨q, g, nearest_below x here several floor low.le fun equal => absurd equal low.ne⟩
  · rcases mod_two_eq_zero_or_one q with even | odd
    · exact ⟨q, g, nearest_below x here several floor middle.le fun _ => even⟩
    · exact ⟨_, _, nearest_above x here several ceiling.le middle.ge fun _ => odd⟩
  · exact ⟨_, _, nearest_above x here several ceiling.le high.le fun equal => absurd equal high.ne'⟩

end
end Spicule.Rounding
