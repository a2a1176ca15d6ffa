import Spicule.Lib.Rounding
import Spicule.Strtod.Bignum

-- A quotient of big integers rounded to the significand of the destination format.
namespace Spicule.Strtod
open Nat Rounding

-- An int after a signed operation; overflow is taken to wrap.
def int32 (x : Int) : Int := Int.bmod x (2 ^ 32)

theorem int32_small {x : Int} (low : -2 ^ 31 ≤ x) (high : x < 2 ^ 31) : int32 x = x := by
  unfold int32
  exact Int.bmod_eq_of_le (by omega) (by omega)

-- A double without its sign: HUGE_VAL is the top. The product is exact where it fits.
def scalbn (q : Nat) (g : Int) : WithTop ℚ := if value q g < 2 ^ 1024 then (value q g : ℚ) else ⊤

def scaleLoop (N D : Bn) (e2 : Int) (p : Nat) (emin : Int) : Nat → Int → Option (Int × Bn × Bn)
  | 0, _ => none
  | fuel + 1, g =>
    let t := e2 - g
    let A := if t > 0 then bnShl N t.toNat else N
    let B := if t > 0 then D else bnShl D (-t).toNat
    if bnCmp A (bnShl B p) ≠ .lt then scaleLoop N D e2 p emin fuel (g + 1)
    else if g > emin ∧ bnCmp A (bnShl B (p - 1)) = .lt then scaleLoop N D e2 p emin fuel (g - 1)
    else some (g, A, B)

-- Restoring long division: the remainder and the quotient's low bits.
def longDivide : Nat → Bn → Bn → Nat → Bn × Nat
  | 0, A, _, q => (A, q)
  | i + 1, A, T, q =>
    if bnCmp A T ≠ .lt then longDivide i (bnSub A T) (bnShr1 T) (q ||| 1 <<< i)
    else longDivide i A (bnShr1 T) q

def bnScaleRound (N D : Bn) (e2 : Int) (sticky : Bool) (p : Nat) (emin : Int) : Option (WithTop ℚ) :=
  let k := int32 (bnBits N - bnBits D + e2)
  if k ≥ 1025 then some ⊤
  else if k ≤ emin - 2 then some 0
  else
    match scaleLoop N D e2 p emin 3 (if k - p < emin then emin else k - p) with
    | none => none
    | some (g, A, B) =>
      let (A, q) := longDivide p A (bnShl B (p - 1)) 0
      let c := bnCmp (bnShl A 1) B
      if c = .gt ∨ (c = .eq ∧ (sticky = true ∨ q % 2 = 1)) then
        if (q + 1) >>> p ≠ 0 then some (scalbn ((q + 1) >>> 1) (g + 1)) else some (scalbn (q + 1) g)
      else some (scalbn q g)

theorem long_divide_spec (i A B T q : Nat) (pos : 0 < B) (small : A < B * 2 ^ i) (aligned : q % 2 ^ i = 0)
    (shifted : ∀ j, i = j + 1 → T = B * 2 ^ j) :
    longDivide i (ofNat A) (ofNat T) q = (ofNat (A % B), q + A / B) := by
  induction i generalizing A T q with
  | zero =>
    rw [pow_zero, mul_one] at small
    rw [longDivide, mod_eq_of_lt small, div_eq_of_lt small, add_zero]
  | succ i ih =>
    have top := shifted i rfl
    have half : ∀ j, i = j + 1 → T / 2 = B * 2 ^ j := by
      intro j next
      rw [top, next, Nat.pow_succ, ← Nat.mul_assoc, Nat.mul_div_cancel _ (by decide)]
    have lower : q % 2 ^ i = 0 :=
      mod_eq_zero_of_dvd (dvd_trans (pow_dvd_pow 2 (le_succ i)) (dvd_of_mod_eq_zero aligned))
    rw [longDivide, bn_cmp_spec, bn_shr1_spec]
    by_cases less : A < T
    · rw [if_neg (by rw [Nat.compare_eq_lt.mpr less]; simp)]
      exact ih A (T / 2) q (top ▸ less) lower half
    · have joined : q ||| 1 <<< i = q + 2 ^ i := by
        obtain ⟨n, shape⟩ := dvd_of_mod_eq_zero aligned
        rw [shiftLeft_eq, one_mul, shape]
        exact (two_pow_add_eq_or_of_lt (Nat.pow_lt_pow_right (by decide) (lt_succ_self i)) n).symm
      have bitAligned : (q + 2 ^ i) % 2 ^ i = 0 := by rw [add_mod_right, lower]
      obtain ⟨R, rfl⟩ : ∃ R, A = R + B * 2 ^ i := ⟨A - B * 2 ^ i, by omega⟩
      have rest : R < B * 2 ^ i := by
        rw [pow_succ, ← mul_assoc] at small
        omega
      rw [if_pos (by rw [Nat.compare_ne_lt]; omega), bn_sub_spec _ T (Nat.le_of_not_lt less), joined, top,
        Nat.add_sub_cancel, ← top, ih R (T / 2) (q + 2 ^ i) rest bitAligned half, top, add_mul_mod_self_left,
        add_mul_div_left _ _ pos, add_assoc, add_comm (2 ^ i)]

section
variable (N D : Nat) (e2 : Int)
def quotient : ℚ := N / D * 2 ^ e2

def numerator (g : Int) : Nat := if e2 - g > 0 then N * 2 ^ (e2 - g).toNat else N

def denominator (g : Int) : Nat := if e2 - g > 0 then D else D * 2 ^ (-(e2 - g)).toNat

variable (g : Int)
variable {D}
theorem denominator_pos (pos : 0 < D) : 0 < denominator D e2 g := by
  unfold denominator
  split
  · exact pos
  · exact Nat.mul_pos pos (Nat.two_pow_pos _)

theorem scaled_quotient (pos : 0 < D) :
    (numerator N e2 g : ℚ) / denominator D e2 g * 2 ^ g = quotient N D e2 := by
  have nonzero : (D : ℚ) ≠ 0 := cast_ne_zero.mpr (ne_of_gt pos)
  unfold numerator denominator quotient
  by_cases up : e2 - g > 0
  · have power : (2 : ℚ) ^ e2 = 2 ^ (e2 - g).toNat * 2 ^ g := by
      rw [← zpow_natCast, ← zpow_add₀ (by norm_num)]
      congr 1
      omega
    rw [if_pos up, if_pos up, power]
    push_cast
    ring
  · have power : (2 : ℚ) ^ g = 2 ^ e2 * 2 ^ (-(e2 - g)).toNat := by
      rw [← zpow_natCast, ← zpow_add₀ (by norm_num)]
      congr 1
      omega
    rw [if_neg up, if_neg up, power]
    push_cast
    field_simp

theorem size_bounds {n : Nat} (pos : 0 < n) :
    (2 : ℚ) ^ ((n.size : Int) - 1) ≤ n ∧ (n : ℚ) < 2 ^ (n.size : Int) := by
  have nonzero : 0 < n.size := size_pos.mpr pos
  have low : 2 ^ (n.size - 1) ≤ n := lt_size.mp (by omega)
  have high : n < 2 ^ n.size := lt_size_self n
  constructor
  · rw [show (n.size : Int) - 1 = ((n.size - 1 : ℕ) : Int) by omega, zpow_natCast]
    exact_mod_cast low
  · rw [zpow_natCast]
    exact_mod_cast high

theorem quotient_bounds (positiveN : 0 < N) (positiveD : 0 < D) :
    (2 : ℚ) ^ ((N.size : Int) - D.size + e2 - 1) < quotient N D e2 ∧
      quotient N D e2 < 2 ^ ((N.size : Int) - D.size + e2 + 1) := by
  obtain ⟨lowN, highN⟩ := size_bounds positiveN
  obtain ⟨lowD, highD⟩ := size_bounds positiveD
  have castN : (0 : ℚ) < N := cast_pos.mpr positiveN
  have castD : (0 : ℚ) < D := cast_pos.mpr positiveD
  have low : (2 : ℚ) ^ ((N.size : Int) - D.size + e2 - 1) = 2 ^ ((N.size : Int) - 1) / 2 ^ (D.size : Int) * 2 ^ e2 := by
    rw [← zpow_sub₀ (by norm_num), ← zpow_add₀ (by norm_num)]
    congr 1
    omega
  have high : (2 : ℚ) ^ ((N.size : Int) - D.size + e2 + 1) = 2 ^ (N.size : Int) / 2 ^ ((D.size : Int) - 1) * 2 ^ e2 := by
    rw [← zpow_sub₀ (by norm_num), ← zpow_add₀ (by norm_num)]
    congr 1
    omega
  unfold quotient
  rw [low, high]
  constructor
  · apply mul_lt_mul_of_pos_right _ (unit_pos e2)
    rw [div_lt_div_iff₀ (unit_pos _) castD]
    calc (2 : ℚ) ^ ((N.size : Int) - 1) * D ≤ N * D := mul_le_mul_of_nonneg_right lowN castD.le
      _ < N * 2 ^ (D.size : Int) := mul_lt_mul_of_pos_left highD castN
  · apply mul_lt_mul_of_pos_right _ (unit_pos e2)
    rw [div_lt_div_iff₀ castD (unit_pos _)]
    calc (N : ℚ) * 2 ^ ((D.size : Int) - 1) ≤ N * D := mul_le_mul_of_nonneg_left lowD castN.le
      _ < 2 ^ (N.size : Int) * D := mul_lt_mul_of_pos_right highN castD

theorem power_le_quotient (j : Nat) (pos : 0 < D) :
    denominator D e2 g * 2 ^ j ≤ numerator N e2 g ↔ (2 : ℚ) ^ (g + j) ≤ quotient N D e2 := by
  have below : (0 : ℚ) < denominator D e2 g := cast_pos.mpr (denominator_pos e2 g pos)
  rw [← scaled_quotient N e2 g pos, add_comm g, zpow_add₀ (by norm_num), zpow_natCast,
    mul_le_mul_iff_left₀ (unit_pos g), le_div_iff₀ below, mul_comm]
  exact_mod_cast Iff.rfl

theorem operands_fit {p : Nat} (roomN : N.size ≤ 5600) (roomD : D.size ≤ 5600) (narrow : p ≤ 64)
    (low : (N.size : Int) - D.size + e2 - p ≤ g) (high : g ≤ (N.size : Int) - D.size + e2 + 2) :
    numerator N e2 g < capacity ∧ denominator D e2 g * 2 ^ p < capacity := by
  have whole : capacity = 2 ^ 5760 := by rw [capacity, bnLimbs, ← pow_mul]
  have fits : ∀ n m s, n.size ≤ s → s + m ≤ 5760 → n * 2 ^ m < capacity := by
    intro n m s small total
    rw [whole]
    calc n * 2 ^ m < 2 ^ s * 2 ^ m := Nat.mul_lt_mul_of_pos_right (Nat.size_le.mp small) (Nat.two_pow_pos m)
      _ = 2 ^ (s + m) := (pow_add 2 s m).symm
      _ ≤ 2 ^ 5760 := Nat.pow_le_pow_right (by decide) total
  unfold numerator denominator
  by_cases up : e2 - g > 0
  · rw [if_pos up, if_pos up]
    exact ⟨fits N _ N.size (le_refl _) (by omega), fits D p D.size (le_refl _) (by omega)⟩
  · rw [if_neg up, if_neg up]
    refine ⟨?_, ?_⟩
    · have plain := fits N 0 N.size (le_refl _) (by omega)
      rwa [pow_zero, mul_one] at plain
    · rw [mul_assoc, ← pow_add]
      exact fits D _ D.size (le_refl _) (by omega)

theorem scale_loop_step {p : Nat} {emin : Int} {fuel : Nat} {g : Int} (pos : 0 < D)
    (fits : numerator N e2 g < capacity ∧ denominator D e2 g * 2 ^ p < capacity) :
    scaleLoop (ofNat N) (ofNat D) e2 p emin (fuel + 1) g =
      if (2 : ℚ) ^ (g + p) ≤ quotient N D e2 then scaleLoop (ofNat N) (ofNat D) e2 p emin fuel (g + 1)
      else if g > emin ∧ quotient N D e2 < 2 ^ (g + (p - 1 : ℕ)) then scaleLoop (ofNat N) (ofNat D) e2 p emin fuel (g - 1)
      else some (g, ofNat (numerator N e2 g), ofNat (denominator D e2 g)) := by
  have shorter : denominator D e2 g * 2 ^ (p - 1) < capacity := by
    apply lt_of_le_of_lt _ fits.2
    exact Nat.mul_le_mul_left _ (Nat.pow_le_pow_right (by decide) (by omega))
  have plain : denominator D e2 g < capacity :=
    Nat.lt_of_le_of_lt (Nat.le_mul_of_pos_right _ (Nat.two_pow_pos p)) fits.2
  have top : (if e2 - g > 0 then bnShl (ofNat N) (e2 - g).toNat else ofNat N) = ofNat (numerator N e2 g) := by
    have room := fits.1
    unfold numerator at room ⊢
    split
    · rename_i up
      rw [if_pos up] at room
      exact bn_shl_spec N room
    · rfl
  have bottom : (if e2 - g > 0 then ofNat D else bnShl (ofNat D) (-(e2 - g)).toNat) = ofNat (denominator D e2 g) := by
    unfold denominator at plain ⊢
    split
    · rfl
    · rename_i up
      rw [if_neg up] at plain
      exact bn_shl_spec D plain
  have wide : compare (numerator N e2 g) (denominator D e2 g * 2 ^ p) ≠ .lt ↔ (2 : ℚ) ^ (g + p) ≤ quotient N D e2 := by
    rw [← power_le_quotient N e2 g p pos, Nat.compare_ne_lt]
  have slim : compare (numerator N e2 g) (denominator D e2 g * 2 ^ (p - 1)) = .lt ↔
      quotient N D e2 < 2 ^ (g + (p - 1 : ℕ)) := by
    rw [← not_le, ← power_le_quotient N e2 g (p - 1) pos, Nat.compare_eq_lt, not_le]
  rw [scaleLoop]
  simp only [top, bottom, bn_shl_spec _ fits.2, bn_shl_spec _ shorter, bn_cmp_spec, wide, slim]

theorem scale_loop_spec (p : Nat) (emin : Int) (positiveN : 0 < N) (positiveD : 0 < D) (roomN : N.size ≤ 5600)
    (roomD : D.size ≤ 5600) (narrow : p ≤ 64) (several : 0 < p) (reach : emin - 2 < (N.size : Int) - D.size + e2) :
    ∃ g, scaleLoop (ofNat N) (ofNat D) e2 p emin 3
        (if (N.size : Int) - D.size + e2 - p < emin then emin else (N.size : Int) - D.size + e2 - p) =
          some (g, ofNat (numerator N e2 g), ofNat (denominator D e2 g)) ∧
      emin ≤ g ∧ quotient N D e2 < 2 ^ (g + p) ∧ (2 ^ (g + (p - 1 : ℕ)) ≤ quotient N D e2 ∨ g = emin) ∧
      numerator N e2 g < capacity ∧ denominator D e2 g * 2 ^ p < capacity := by
  obtain ⟨low, high⟩ := quotient_bounds N e2 positiveN positiveD
  have monotone : ∀ a b : Int, a ≤ b → (2 : ℚ) ^ a ≤ 2 ^ b := fun a b le => zpow_le_zpow_right₀ (by norm_num) le
  by_cases bottom : (N.size : Int) - D.size + e2 - p < emin
  · rw [if_pos bottom]
    have fits := operands_fit N e2 emin roomN roomD narrow (by omega) (by omega)
    have below : quotient N D e2 < 2 ^ (emin + p) := lt_of_lt_of_le high (monotone _ _ (by omega))
    refine ⟨emin, ?_, le_refl _, below, Or.inr rfl, fits⟩
    rw [scale_loop_step N e2 positiveD fits, if_neg (not_le.mpr below), if_neg (fun both => lt_irrefl _ both.1)]
  · rw [if_neg bottom]
    obtain ⟨g, first⟩ : ∃ g, g = (N.size : Int) - D.size + e2 - p := ⟨_, rfl⟩
    have fits := operands_fit N e2 g roomN roomD narrow (by omega) (by omega)
    have enough : (2 : ℚ) ^ (g + (p - 1 : ℕ)) ≤ quotient N D e2 := le_trans (monotone _ _ (by omega)) low.le
    rw [← first, scale_loop_step N e2 positiveD fits]
    by_cases more : (2 : ℚ) ^ (g + p) ≤ quotient N D e2
    · have fits' := operands_fit N e2 (g + 1) roomN roomD narrow (by omega) (by omega)
      have below : quotient N D e2 < 2 ^ (g + 1 + p) := lt_of_lt_of_le high (monotone _ _ (by omega))
      have enough' : (2 : ℚ) ^ (g + 1 + (p - 1 : ℕ)) ≤ quotient N D e2 := le_trans (monotone _ _ (by omega)) more
      refine ⟨g + 1, ?_, by omega, below, Or.inl enough', fits'⟩
      rw [if_pos more, scale_loop_step N e2 positiveD fits', if_neg (not_le.mpr below),
        if_neg (fun both => not_lt.mpr enough' both.2)]
    · refine ⟨g, ?_, by omega, not_le.mp more, Or.inl enough, fits⟩
      rw [if_neg more, if_neg (fun both => not_lt.mpr enough both.2)]

end

-- The quotient and the value lie on the same side of every bound of a rounding, and at a
-- bound the sticky flag tells which side is meant.
structure Tail (p : Nat) (emin : Int) (base x : ℚ) (sticky : Bool) : Prop where
  below : ∀ (j : Nat) (h : Int), j ≤ 2 ^ (p + 1) → emin - 1 ≤ h → base < value j h → x < value j h
  above : ∀ (j : Nat) (h : Int), j ≤ 2 ^ (p + 1) → emin - 1 ≤ h → value j h < base → value j h < x
  met : ∀ (j : Nat) (h : Int), j ≤ 2 ^ (p + 1) → emin - 1 ≤ h → value j h = base →
    if sticky = true then value j h < x else x = value j h

variable (p : Nat) (emin : Int) (x : ℚ)
theorem tail_none : Tail p emin x x false :=
  ⟨fun _ _ _ _ less => less, fun _ _ _ _ less => less, fun _ _ _ _ same => same.symm⟩

variable {sticky : Bool}
theorem tail_le {base x : ℚ} (tail : Tail p emin base x sticky) (j : Nat) (h : Int)
    (few : j ≤ 2 ^ (p + 1)) (least : emin - 1 ≤ h) (le : value j h ≤ base) : value j h ≤ x := by
  rcases le.lt_or_eq with less | same
  · exact (tail.above j h few least less).le
  · have met := tail.met j h few least same
    cases sticky with
    | false => exact met.ge
    | true => exact met.le

def Delivers (p : Nat) (emin : Int) (x : ℚ) (v : WithTop ℚ) : Prop := ∃ q g, NearestEven p emin x q g ∧ v = scalbn q g

theorem huge_delivers (several : 2 ≤ p) (format : emin + p ≤ 1024) (large : 2 ^ 1024 ≤ x) : Delivers p emin x ⊤ := by
  obtain ⟨q, g, rounded⟩ := @nearest_exists p emin x (le_trans (by norm_num) large) several
  have power : value (2 ^ (p - 1)) (1024 - (p - 1 : ℕ)) = 2 ^ 1024 := by
    unfold value
    push_cast
    rw [← zpow_natCast, ← zpow_add₀ (by norm_num), ← zpow_natCast]
    congr 1
    push_cast
    omega
  have full : Canonical p emin (2 ^ (p - 1)) (1024 - (p - 1 : ℕ)) :=
    ⟨Nat.pow_lt_pow_right (by decide) (by omega), by omega, Or.inl (le_refl _)⟩
  have overs := nearest_ge _ _ x rounded full (by rw [power]; exact large)
  rw [power] at overs
  exact ⟨q, g, rounded, by rw [scalbn, if_neg (not_lt.mpr overs)]⟩

theorem zero_delivers (several : 2 ≤ p) (nonneg : 0 ≤ x) (small : x ≤ 2 ^ (emin - 1)) : Delivers p emin x 0 := by
  have bottom : Canonical p emin 0 emin := ⟨Nat.two_pow_pos p, le_refl _, Or.inr rfl⟩
  have none : value 0 emin = 0 := by simp [value]
  have half : (2 : ℚ) ^ (emin - 1) = 2 ^ emin / 2 := by rw [zpow_sub_one₀ (by norm_num)]; ring
  refine ⟨0, emin, nearest_below x bottom several (by rw [none]; exact nonneg) ?_ fun _ => rfl, ?_⟩
  · rw [none, zero_add, ← half]
    exact small
  · rw [scalbn, none, if_pos (by norm_num)]
    rfl

theorem above_scalbn (q : Nat) (g : Int) (fits : q < 2 ^ p) (pos : 0 < p) :
    (if (q + 1) >>> p ≠ 0 then some (scalbn ((q + 1) >>> 1) (g + 1)) else some (scalbn (q + 1) g)) =
      some (scalbn (above p q g).1 (above p q g).2) := by
  unfold above
  by_cases full : q + 1 = 2 ^ p
  · have halved : 2 ^ p / 2 = 2 ^ (p - 1) := by
      rw [show p = p - 1 + 1 by omega, Nat.pow_succ, Nat.mul_div_cancel _ (by decide), Nat.add_sub_cancel]
    have overflow : 2 ^ p / 2 ^ p ≠ 0 := by rw [Nat.div_self (Nat.two_pow_pos p)]; decide
    simp only [full, shiftRight_eq_div_pow, pow_one, halved, overflow, ne_eq, not_false_eq_true, if_true]
  · have inside : (q + 1) / 2 ^ p = 0 := div_eq_of_lt (by omega)
    simp only [full, shiftRight_eq_div_pow, inside, ne_eq, not_true_eq_false, if_false]

theorem division_delivers {A B : Nat} {g : Int} {x : ℚ} (several : 2 ≤ p)
    (pos : 0 < B) (canonical : Canonical p emin (A / B) g) (tail : Tail p emin (A / B * 2 ^ g) x sticky) :
    Delivers p emin x
      (if compare (A % B * 2 ^ 1) B = .gt ∨ (compare (A % B * 2 ^ 1) B = .eq ∧ (sticky = true ∨ A / B % 2 = 1)) then
        scalbn (above p (A / B) g).1 (above p (A / B) g).2 else scalbn (A / B) g) := by
  obtain ⟨q, quot⟩ : ∃ q, q = A / B := ⟨_, rfl⟩
  obtain ⟨r, remd⟩ : ∃ r, r = A % B := ⟨_, rfl⟩
  have small : r < B := remd ▸ mod_lt A pos
  have castB : (0 : ℚ) < B := cast_pos.mpr pos
  have castR : (0 : ℚ) ≤ r := cast_nonneg r
  have unit := unit_pos g
  have base : (A : ℚ) / B * 2 ^ g = value q g + r / B * 2 ^ g := by
    have whole : (A : ℚ) = B * q + r := by
      rw [quot, remd]
      exact_mod_cast (div_add_mod A B).symm
    rw [whole, value]
    field_simp
  have half : (2 : ℚ) ^ g = 2 ^ (g - 1) * 2 := by
    rw [← zpow_add_one₀ (by norm_num)]
    congr 1
    omega
  have middle : value (2 * q + 1) (g - 1) = value q g + 2 ^ g / 2 := by
    rw [value, value, half]
    push_cast
    ring
  have ceiling : value (2 * q + 2) (g - 1) = value (q + 1) g := by
    rw [value, value, half]
    push_cast
    ring
  have fits := canonical.fits
  have least := canonical.least
  have fraction : (r : ℚ) / B < 1 := (div_lt_one castB).mpr (cast_lt.mpr small)
  have fraction₀ : 0 ≤ (r : ℚ) / B := div_nonneg castR castB.le
  have bottom : value (2 * q) (g - 1) = value q g := by
    rw [value, value, half]
    push_cast
    ring
  rw [← quot] at canonical fits ⊢
  rw [← remd, pow_one]
  rw [base] at tail
  have floor : value q g ≤ x := by
    rw [← bottom]
    apply tail_le p emin tail _ _ (by omega) (by omega)
    rw [bottom]
    nlinarith
  have roof : x < value (q + 1) g := by
    rw [← ceiling]
    apply tail.below _ _ (by omega) (by omega)
    rw [ceiling, value, value]
    push_cast
    nlinarith
  rcases lt_trichotomy (r * 2) B with below | equal | beyond
  · have under : x < value q g + 2 ^ g / 2 := by
      rw [← middle]
      apply tail.below _ _ (by omega) (by omega)
      have less : (r : ℚ) / B < 1 / 2 := by
        rw [div_lt_div_iff₀ castB (by norm_num)]
        exact_mod_cast (by omega : r * 2 < 1 * B)
      rw [middle]
      nlinarith
    rw [if_neg (by rw [Nat.compare_eq_lt.mpr below]; simp)]
    exact ⟨q, g, nearest_below x canonical several floor under.le fun same => absurd same under.ne, rfl⟩
  · have exactly : (r : ℚ) / B * 2 ^ g = 2 ^ g / 2 := by
      have share : (r : ℚ) / B = 1 / 2 := by
        rw [div_eq_div_iff castB.ne' (by norm_num)]
        exact_mod_cast (by omega : r * 2 = 1 * B)
      rw [share]
      ring
    rw [exactly, ← middle] at tail
    have met := tail.met (2 * q + 1) (g - 1) (by omega) (by omega) rfl
    rw [middle] at met
    by_cases up : sticky = true ∨ q % 2 = 1
    · rw [if_pos (Or.inr ⟨Nat.compare_eq_eq.mpr equal, up⟩)]
      cases sticky with
      | true =>
        rw [if_pos rfl] at met
        exact ⟨_, _, nearest_above x canonical several roof.le met.le fun same => absurd same met.ne', rfl⟩
      | false =>
        rw [if_neg Bool.false_ne_true] at met
        have odd := up.resolve_left Bool.false_ne_true
        exact ⟨_, _, nearest_above x canonical several roof.le met.ge fun _ => odd, rfl⟩
    · rw [not_or, Bool.not_eq_true] at up
      rw [up.1, if_neg Bool.false_ne_true] at met
      rw [if_neg (by rw [Nat.compare_eq_eq.mpr equal]; simp [up.1, up.2])]
      refine ⟨q, g, nearest_below x canonical several floor met.le fun _ => ?_, rfl⟩
      exact (mod_two_eq_zero_or_one q).resolve_right up.2
  · have overs : value q g + 2 ^ g / 2 < x := by
      rw [← middle]
      apply tail.above _ _ (by omega) (by omega)
      rw [middle]
      have more : 1 / 2 < (r : ℚ) / B := by
        rw [div_lt_div_iff₀ (by norm_num) castB]
        exact_mod_cast (by omega : 1 * B < r * 2)
      nlinarith
    rw [if_pos (Or.inl (Nat.compare_eq_gt.mpr beyond))]
    exact ⟨_, _, nearest_above x canonical several roof.le overs.le fun same => absurd same overs.ne', rfl⟩

theorem bn_scale_round_delivers {N D : Nat} {e2 : Int} {p : Nat} {emin : Int} {x : ℚ} (positiveN : 0 < N)
    (positiveD : 0 < D) (roomN : N.size ≤ 5600) (roomD : D.size ≤ 5600) (several : 2 ≤ p) (narrow : p ≤ 64)
    (format : emin + p ≤ 1024) (low : -2 ^ 31 ≤ (N.size : Int) - D.size + e2) (high : (N.size : Int) - D.size + e2 < 2 ^ 31)
    (tail : Tail p emin (quotient N D e2) x sticky) :
    ∃ v, bnScaleRound (ofNat N) (ofNat D) e2 sticky p emin = some v ∧ Delivers p emin x v := by
  obtain ⟨above, below⟩ := quotient_bounds N e2 positiveN positiveD
  have wrapped := int32_small low high
  unfold bnScaleRound
  rw [bn_bits_spec, bn_bits_spec, wrapped]
  by_cases huge : (N.size : Int) - D.size + e2 ≥ 1025
  · refine ⟨⊤, by simp only [if_pos huge], huge_delivers p emin x several format ?_⟩
    have full : value (2 ^ p) (1024 - p) = 2 ^ 1024 := by
      rw [value]
      push_cast
      rw [← zpow_natCast, ← zpow_add₀ (by norm_num), ← zpow_natCast]
      congr 1
      push_cast
      omega
    have power : (2 : ℚ) ^ 1024 ≤ 2 ^ ((N.size : Int) - D.size + e2 - 1) := by
      rw [← zpow_natCast]
      exact zpow_le_zpow_right₀ (by norm_num) (by push_cast; omega)
    rw [← full] at power ⊢
    exact tail_le p emin tail _ _ (Nat.pow_le_pow_right (by decide) (le_succ p)) (by omega) (by linarith)
  · by_cases tiny : (N.size : Int) - D.size + e2 ≤ emin - 2
    · refine ⟨0, by simp only [if_neg huge, if_pos tiny], ?_⟩
      have power : (2 : ℚ) ^ ((N.size : Int) - D.size + e2 + 1) ≤ 2 ^ (emin - 1) :=
        zpow_le_zpow_right₀ (by norm_num) (by omega)
      have half : value 1 (emin - 1) = 2 ^ (emin - 1) := by rw [value, cast_one, one_mul]
      have under := tail.below 1 (emin - 1) Nat.one_le_two_pow (le_refl _) (by rw [half]; linarith)
      rw [half] at under
      have none : value 0 (emin - 1) = 0 := by rw [value, cast_zero, zero_mul]
      have unit := unit_pos ((N.size : Int) - D.size + e2 - 1)
      have overs := tail.above 0 (emin - 1) (zero_le _) (le_refl _) (by rw [none]; linarith)
      rw [none] at overs
      exact zero_delivers p emin x several overs.le under.le
    · obtain ⟨g, found, least, short, full, fitsA, fitsB⟩ := scale_loop_spec N e2 p emin positiveN positiveD roomN roomD
        narrow (by omega) (by omega)
      have positiveB := denominator_pos e2 g positiveD
      have short' : numerator N e2 g < denominator D e2 g * 2 ^ p := by
        rw [← not_le] at short
        exact Nat.lt_of_not_le fun le => short ((power_le_quotient N e2 g p positiveD).mp le)
      have canonical : Canonical p emin (numerator N e2 g / denominator D e2 g) g := by
        refine ⟨Nat.div_lt_of_lt_mul short', least, ?_⟩
        rcases full with enough | bottom
        · left
          rw [le_div_iff_mul_le positiveB, mul_comm]
          exact (power_le_quotient N e2 g (p - 1) positiveD).mpr enough
        · exact Or.inr bottom
      have shifted : denominator D e2 g * 2 ^ (p - 1) < capacity := by
        apply lt_of_le_of_lt _ fitsB
        exact Nat.mul_le_mul_left _ (Nat.pow_le_pow_right (by decide) (by omega))
      have remainder : numerator N e2 g % denominator D e2 g * 2 ^ 1 < capacity := by
        apply lt_of_le_of_lt _ fitsB
        exact Nat.mul_le_mul (Nat.le_of_lt (mod_lt _ positiveB)) (Nat.pow_le_pow_right (by decide) (by omega))
      have divided := long_divide_spec p (numerator N e2 g) (denominator D e2 g) (denominator D e2 g * 2 ^ (p - 1)) 0 positiveB
        short' (zero_mod _) fun j next => by rw [next, Nat.add_sub_cancel]
      rw [← scaled_quotient N e2 g positiveD] at tail
      refine ⟨_, ?_, division_delivers p emin several positiveB canonical tail⟩
      simp only [if_neg huge, if_neg tiny, found, bn_shl_spec _ shifted, divided, zero_add, bn_shl_spec _ remainder,
        bn_cmp_spec, above_scalbn p _ g canonical.fits (by omega : 0 < p)]
      split <;> rfl

end Spicule.Strtod
