import Spicule.Strtod.Scan

namespace Spicule.Strtod
open List Numeral Rounding Nat

theorem ten_pos (e : Int) : (0 : ℚ) < 10 ^ e := zpow_pos (by norm_num) e

theorem two_zpow (h : Int) (negative : h ≤ 0) : (2 : ℚ) ^ h = 5 ^ (-h).toNat * 10 ^ h := by
  have five : (5 : ℚ) ^ (-h).toNat * 5 ^ h = 1 := by
    rw [← zpow_natCast, ← zpow_add₀ (by norm_num), show ((-h).toNat : Int) + h = 0 by omega, zpow_zero]
  rw [show (10 : ℚ) = 5 * 2 by norm_num, mul_zpow, ← mul_assoc, five, one_mul]

theorem bn_digits_spec (fuel : Nat) (dig : List Nat) (v : Nat) (enough : dig.length ≤ fuel) (each : ∀ d ∈ dig, d < 10)
    (fits : v * 10 ^ dig.length + natOf 10 dig < capacity) :
    bnDigits fuel dig (ofNat v) = ofNat (v * 10 ^ dig.length + natOf 10 dig) := by
  induction fuel generalizing dig v with
  | zero =>
    rw [length_eq_zero_iff.mp (le_zero.mp enough), bnDigits]
    simp [natOf]
  | succ fuel ih =>
    rw [bnDigits]
    split
    · rename_i none
      rw [length_eq_zero_iff.mp none]
      simp [natOf]
    · rename_i some_digit
      have split := take_append_drop 9 dig
      have chunk : ∀ d ∈ dig.take 9, d < 10 := fun d mem => each d (mem_of_mem_take mem)
      have small := nat_of_lt 10 (dig.take 9) chunk
      have short : (dig.take 9).length ≤ 9 := length_take_le 9 dig
      have power : 10 ^ (dig.take 9).length ≤ 10 ^ 9 := Nat.pow_le_pow_right (by decide) short
      have total : v * 10 ^ dig.length + natOf 10 dig =
          (v * 10 ^ (dig.take 9).length + natOf 10 (dig.take 9)) * 10 ^ (dig.drop 9).length + natOf 10 (dig.drop 9) := by
        have length : dig.length = (dig.take 9).length + (dig.drop 9).length := by
          rw [← length_append, split]
        have digits := nat_of_append 10 (dig.take 9) (dig.drop 9)
        rw [split] at digits
        rw [digits, length, pow_add]
        ring
      have step : v * 10 ^ (dig.take 9).length + natOf 10 (dig.take 9) < capacity := by
        apply lt_of_le_of_lt _ fits
        rw [total]
        exact Nat.le_trans (Nat.le_mul_of_pos_right _ (Nat.pow_pos (by decide))) (Nat.le_add_right _ _)
      rw [total] at fits ⊢
      have muladd := bn_muladd_spec v (10 ^ (dig.take 9).length) (natOf 10 (dig.take 9)) (Nat.pow_pos (by decide)) small.le
        (by omega) step
      have rest := ih (dig.drop 9) (v * 10 ^ (dig.take 9).length + natOf 10 (dig.take 9))
        (by rw [length_drop]; omega) (fun d mem => each d (mem_of_mem_drop mem)) fits
      rw [← rest, ← muladd]
      rfl

theorem trim_zeros_spec (fuel : Nat) (dig : List Nat) (exp : Int) (low : -2 ^ 31 ≤ exp) (high : exp + dig.length < 2 ^ 31) :
    ∃ zeros : Nat, (trimZeros fuel dig exp).2 = exp + zeros ∧ dig = (trimZeros fuel dig exp).1 ++ List.replicate zeros 0 ∧
      (dig ≠ [] → (trimZeros fuel dig exp).1 ≠ []) := by
  induction fuel generalizing dig exp with
  | zero => exact ⟨0, by simp [trimZeros], by simp [trimZeros], fun nonempty => nonempty⟩
  | succ fuel ih =>
    rw [trimZeros]
    split
    · rename_i trailing
      have shape := dropLast_append_getLast? 0 (by rw [trailing.2]; rfl)
      have shorter : dig.dropLast.length + 1 = dig.length := by
        rw [length_dropLast]
        omega
      rw [int32_small (by omega) (by omega)]
      obtain ⟨zeros, exponent, digits, nonempty⟩ := ih dig.dropLast (exp + 1) (by omega) (by omega)
      refine ⟨zeros + 1, ?_, ?_, ?_⟩
      · rw [exponent]
        push_cast
        ring
      · rw [replicate_succ', ← append_assoc, ← digits]
        exact shape.symm
      · intro _
        apply nonempty
        intro none
        rw [none, length_nil] at shorter
        omega
    · exact ⟨0, by simp, by simp, fun nonempty => nonempty⟩

-- A bound of a rounding needs fewer than 800 digits.
variable {exp emin : Int} {p : Nat}
theorem bound_unit {n : Nat} (narrow : p ≤ 53) (deep : -1074 ≤ emin) (fraction : exp < 0)
    (long : 10 ^ 799 ≤ n) {j : Nat} {h : Int} (few : j ≤ 2 ^ (p + 1)) (least : emin - 1 ≤ h)
    (beyond : (n : ℚ) * 10 ^ exp < value j h) : ((n + 1 : ℕ) : ℚ) * 10 ^ exp ≤ value j h := by
  have multiple : ∃ m : Nat, value j h = m * 10 ^ exp := by
    by_cases whole : 0 ≤ h
    · refine ⟨j * 2 ^ h.toNat * 10 ^ (-exp).toNat, ?_⟩
      have down : ((10 : ℚ) ^ (-exp).toNat) * 10 ^ exp = 1 := by
        rw [← zpow_natCast, ← zpow_add₀ (by norm_num), show ((-exp).toNat : Int) + exp = 0 by omega, zpow_zero]
      have up : (2 : ℚ) ^ h = 2 ^ h.toNat := by rw [← zpow_natCast, Int.toNat_of_nonneg whole]
      rw [value, up]
      push_cast
      rw [mul_assoc _ ((10 : ℚ) ^ (-exp).toNat), down, mul_one]
    · have aligned : exp ≤ h := by
        by_contra unaligned
        have few' : j ≤ 2 ^ 54 := Nat.le_trans few (Nat.pow_le_pow_right (by decide) (by omega))
        have castJ : (j : ℚ) ≤ 2 ^ 54 := by exact_mod_cast few'
        have castN : (10 : ℚ) ^ 799 ≤ n := by exact_mod_cast long
        have small : (5 : ℚ) ^ (-h).toNat ≤ 5 ^ 1075 := pow_le_pow_right₀ (by norm_num) (by omega)
        have unit : (10 : ℚ) * 10 ^ h ≤ 10 ^ exp := by
          rw [mul_comm, ← zpow_add_one₀ (by norm_num)]
          exact zpow_le_zpow_right₀ (by norm_num) (by omega)
        have halves := two_zpow h (by omega)
        have tens := ten_pos h
        have numbers : (2 : ℚ) ^ 54 * 5 ^ 1075 < 10 ^ 799 * 10 := by
          exact_mod_cast (by decide +kernel : 2 ^ 54 * 5 ^ 1075 < 10 ^ 799 * 10)
        rw [value, halves] at beyond
        have left : (10 : ℚ) ^ 799 * (10 * 10 ^ h) ≤ n * 10 ^ exp :=
          mul_le_mul castN unit (by positivity) (le_trans (by positivity) castN)
        have right : (j : ℚ) * (5 ^ (-h).toNat * 10 ^ h) ≤ 2 ^ 54 * 5 ^ 1075 * 10 ^ h := by
          rw [← mul_assoc]
          exact mul_le_mul_of_nonneg_right (mul_le_mul castJ small (by positivity) (by positivity)) tens.le
        have scaled := mul_lt_mul_of_pos_right numbers tens
        rw [← mul_assoc] at left
        exact lt_irrefl _ (scaled.trans_le (left.trans (beyond.le.trans right)))
      refine ⟨j * 5 ^ (-h).toNat * 10 ^ (h - exp).toNat, ?_⟩
      have shift : (10 : ℚ) ^ (h - exp).toNat * 10 ^ exp = 10 ^ h := by
        rw [← zpow_natCast, ← zpow_add₀ (by norm_num), show ((h - exp).toNat : Int) + exp = h by omega]
      rw [value, two_zpow h (by omega), ← shift]
      push_cast
      ring
  obtain ⟨m, shape⟩ := multiple
  rw [shape] at beyond ⊢
  have less : n < m := by exact_mod_cast lt_of_mul_lt_mul_right beyond (ten_pos exp).le
  exact mul_le_mul_of_nonneg_right (by exact_mod_cast less) (ten_pos exp).le

structure Front (dig : List Nat) (exp : Int) (sticky : Bool) (x : ℚ) : Prop where
  each : ∀ d ∈ dig, d < 10
  lead : ∀ d rest, dig = d :: rest → d ≠ 0
  few : dig.length ≤ maxdig
  floor : natOf 10 dig * 10 ^ exp ≤ x
  ceiling : x < (natOf 10 dig + 1 : ℕ) * 10 ^ exp
  exact : sticky = false → x = natOf 10 dig * 10 ^ exp
  more : sticky = true → natOf 10 dig * 10 ^ exp < x ∧ dig.length = maxdig

variable (dig : List Nat) {sticky : Bool} {x : ℚ}
theorem front_tail (front : Front dig exp sticky x)
    (narrow : p ≤ 53) (deep : -1074 ≤ emin) (finite : exp + dig.length < 310) :
    Tail p emin (natOf 10 dig * 10 ^ exp) x sticky := by
  cases sticky with
  | false =>
    rw [← front.exact rfl]
    exact tail_none p emin x
  | true =>
    obtain ⟨beyond, full⟩ := front.more rfl
    have long : 10 ^ 799 ≤ natOf 10 dig := by
      cases shape : dig with
      | nil =>
        rw [shape] at full
        cases full
      | cons d rest =>
        have reach := nat_of_ge 10 d rest (front.lead d rest shape)
        rw [shape, length_cons, maxdig] at full
        rwa [show rest.length = 799 by omega] at reach
    refine ⟨?_, ?_, ?_⟩
    · intro j h few least above
      have fraction : exp < 0 := by rw [full, maxdig] at finite; omega
      exact lt_of_lt_of_le front.ceiling (bound_unit narrow deep fraction long few least above)
    · intro j h few least below
      exact below.trans beyond
    · intro j h few least same
      rw [if_pos rfl, same]
      exact beyond

theorem front_trimmed (front : Front dig exp sticky x) {trimmed : List Nat}
    {zeros : Nat} (shape : dig = trimmed ++ List.replicate zeros 0) (nonempty : trimmed ≠ []) :
    (natOf 10 trimmed : ℚ) * 10 ^ (exp + zeros) = natOf 10 dig * 10 ^ exp ∧ 0 < natOf 10 trimmed ∧
      natOf 10 trimmed < 10 ^ trimmed.length ∧ (10 : ℚ) ^ (exp + zeros + trimmed.length - 1) ≤ x ∧
      x < 10 ^ (exp + zeros + trimmed.length) := by
  have each : ∀ d ∈ trimmed, d < 10 := fun d mem => front.each d (shape ▸ mem_append_left _ mem)
  have below := nat_of_lt 10 trimmed each
  have whole : natOf 10 dig = natOf 10 trimmed * 10 ^ zeros := by
    rw [shape, nat_of_append, nat_of_zeros, length_replicate, add_zero]
  have same : (natOf 10 trimmed : ℚ) * 10 ^ (exp + zeros) = natOf 10 dig * 10 ^ exp := by
    rw [whole, zpow_add₀ (by norm_num), zpow_natCast]
    push_cast
    ring
  have reach : 10 ^ (trimmed.length - 1) ≤ natOf 10 trimmed := by
    cases form : trimmed with
    | nil => exact absurd form nonempty
    | cons d rest =>
      rw [form, cons_append] at shape
      exact nat_of_ge 10 d rest (front.lead d _ shape)
  have pos : 0 < natOf 10 trimmed := Nat.lt_of_lt_of_le (Nat.pow_pos (by decide)) reach
  have length : 1 ≤ trimmed.length := length_pos_of_ne_nil nonempty
  refine ⟨same, pos, below, ?_, ?_⟩
  · have cast : (10 : ℚ) ^ (trimmed.length - 1) ≤ natOf 10 trimmed := by exact_mod_cast reach
    apply le_trans _ front.floor
    rw [← same, show exp + zeros + trimmed.length - 1 = ((trimmed.length - 1 : ℕ) : Int) + (exp + zeros) by omega,
      zpow_add₀ (by norm_num), zpow_natCast]
    exact mul_le_mul_of_nonneg_right cast (ten_pos _).le
  · have next : natOf 10 dig + 1 ≤ 10 ^ trimmed.length * 10 ^ zeros := by
      rw [whole]
      exact Nat.succ_le_of_lt (Nat.mul_lt_mul_of_pos_right below (Nat.pow_pos (by decide)))
    have cast : ((natOf 10 dig + 1 : ℕ) : ℚ) ≤ 10 ^ trimmed.length * 10 ^ zeros := by exact_mod_cast next
    apply lt_of_lt_of_le front.ceiling
    rw [show exp + zeros + trimmed.length = (trimmed.length : Int) + (zeros : Int) + exp by ring, zpow_add₀ (by norm_num),
      zpow_add₀ (by norm_num), zpow_natCast, zpow_natCast]
    exact mul_le_mul_of_nonneg_right cast (ten_pos exp).le

theorem ten_power_below {n k m : Nat} (below : n ≤ 10 ^ k) (few : 4 * k < m) : n.size ≤ m ∧ n < 2 ^ m := by
  have small : n < 2 ^ m := by
    calc n ≤ 10 ^ k := below
      _ ≤ 16 ^ k := Nat.pow_le_pow_left (by decide) k
      _ = 2 ^ (4 * k) := by rw [show 16 = 2 ^ 4 by decide, ← pow_mul]
      _ < 2 ^ m := Nat.pow_lt_pow_right (by decide) few
  exact ⟨size_le.mpr small, small⟩

theorem ten_power_size (n k : Nat) (below : n ≤ 10 ^ k) (few : k ≤ 1399) : n.size ≤ 5600 ∧ n < capacity := by
  refine ⟨(ten_power_below below (by omega)).1, ?_⟩
  rw [capacity, bnLimbs, ← pow_mul]
  exact (ten_power_below below (by omega)).2

theorem dec_operands {n len : Nat} (exp : Int) (below : n < 10 ^ len) (few : len ≤ maxdig) (low : -324 < exp + len)
    (high : exp + len < 310) (pos : 0 < n) :
    ∃ N D, (if exp > 0 then bnMulPow10 (ofNat n) exp.toNat else ofNat n) = ofNat N ∧
      (if exp < 0 then bnMulPow10 (bnSetu32 1) (-exp).toNat else bnSetu32 1) = ofNat D ∧ 0 < N ∧ 0 < D ∧
      N.size ≤ 5600 ∧ D.size ≤ 5600 ∧ quotient N D 0 = n * 10 ^ exp := by
  have one : bnSetu32 1 = ofNat 1 := bn_setu32_spec 1 (by decide)
  have limit : maxdig = 800 := rfl
  rw [one]
  rcases lt_trichotomy exp 0 with negative | zero | up
  · have size := ten_power_size (10 ^ (-exp).toNat) (-exp).toNat (le_refl _) (by omega)
    have spec := bn_mul_pow10_spec 1 (-exp).toNat (by rw [one_mul]; exact size.2)
    rw [one_mul] at spec
    refine ⟨n, 10 ^ (-exp).toNat, by rw [if_neg (by omega)], by rw [if_pos negative, spec], pos,
      Nat.pow_pos (by decide), (ten_power_size n len below.le (by omega)).1, size.1, ?_⟩
    have power : (10 : ℚ) ^ exp = ((10 : ℚ) ^ (-exp).toNat)⁻¹ := by
      rw [← zpow_natCast, ← zpow_neg]
      congr 1
      omega
    rw [quotient, power]
    push_cast
    rw [mul_one, div_eq_mul_inv]
  · refine ⟨n, 1, by rw [if_neg (by omega)], by rw [if_neg (by omega)], pos, by decide,
      (ten_power_size n len below.le (by omega)).1, by decide, ?_⟩
    rw [quotient, zero]
    simp
  · have product : n * 10 ^ exp.toNat < 10 ^ (len + exp.toNat) := by
      rw [pow_add]
      exact Nat.mul_lt_mul_of_pos_right below (Nat.pow_pos (by decide))
    have size := ten_power_size (n * 10 ^ exp.toNat) (len + exp.toNat) product.le (by omega)
    refine ⟨n * 10 ^ exp.toNat, 1, by rw [if_pos up, bn_mul_pow10_spec n exp.toNat size.2], by rw [if_neg (by omega)],
      Nat.mul_pos pos (Nat.pow_pos (by decide)), by decide, size.1, by decide, ?_⟩
    have power : (10 : ℚ) ^ exp = 10 ^ exp.toNat := by
      rw [← zpow_natCast, Int.toNat_of_nonneg up.le]
    rw [quotient, power]
    push_cast
    rw [mul_one, div_one]

theorem dec_value_delivers {exp : Int} {sticky : Bool} {x : ℚ} (front : Front dig exp sticky x) {p : Nat}
    {emin : Int} (several : 2 ≤ p) (narrow : p ≤ 53) (deep : -1074 ≤ emin) (format : emin + p ≤ 1024) (low : -2 ^ 31 ≤ exp)
    (high : exp + dig.length < 2 ^ 31) :
    ∃ v, decValue dig exp sticky p emin = some v ∧ Delivers p emin x v := by
  unfold decValue
  by_cases none : dig.length = 0
  · refine ⟨0, if_pos none, ?_⟩
    have clear : sticky = false := by
      cases sticky with
      | false => rfl
      | true => exact absurd ((front.more rfl).2.symm.trans none) (by decide)
    have zero := front.exact clear
    rw [length_eq_zero_iff.mp none] at zero
    have nothing : x = 0 := by rw [zero]; simp [natOf]
    exact zero_delivers p emin x several nothing.ge (by rw [nothing]; exact (unit_pos _).le)
  · obtain ⟨zeros, exponent, shape, kept⟩ := trim_zeros_spec dig.length dig exp low high
    have nonempty := kept (ne_nil_of_length_pos (by omega))
    obtain ⟨same, pos, below, floor, ceiling⟩ := front_trimmed dig front shape nonempty
    have length : (trimZeros dig.length dig exp).1.length + zeros = dig.length := by
      rw [← length_replicate (n := zeros) (a := 0), ← length_append, ← shape]
    have each : ∀ d ∈ (trimZeros dig.length dig exp).1, d < 10 :=
      fun d mem => front.each d (shape ▸ mem_append_left _ mem)
    rw [if_neg none]
    generalize trimZeros dig.length dig exp = trimmed at exponent shape same below pos floor ceiling length each ⊢
    obtain ⟨digits, exp'⟩ := trimmed
    simp only at exponent shape same below pos floor ceiling length each ⊢
    have few := front.few
    rw [exponent, int32_small (by omega) (by omega)]
    by_cases huge : exp + zeros + digits.length ≥ 310
    · refine ⟨⊤, if_pos huge, huge_delivers p emin x several format ?_⟩
      have power : (10 : ℚ) ^ 309 ≤ 10 ^ (exp + zeros + digits.length - 1) := by
        rw [← zpow_natCast]
        exact zpow_le_zpow_right₀ (by norm_num) (by push_cast; omega)
      have numbers : (2 : ℚ) ^ 1024 ≤ 10 ^ 309 := by exact_mod_cast (by decide +kernel : 2 ^ 1024 ≤ 10 ^ 309)
      exact numbers.trans (power.trans floor)
    · rw [if_neg huge]
      by_cases tiny : exp + zeros + digits.length ≤ -324
      · refine ⟨0, if_pos tiny, zero_delivers p emin x several ?_ ?_⟩
        · exact (ten_pos _).le.trans floor
        · have power : (10 : ℚ) ^ (exp + zeros + digits.length) ≤ 10 ^ (-324 : Int) :=
            zpow_le_zpow_right₀ (by norm_num) tiny
          have numbers : (10 : ℚ) ^ (-324 : Int) ≤ 2 ^ (-1075 : Int) := by
            rw [zpow_neg, zpow_neg, inv_le_inv₀ (ten_pos 324) (unit_pos 1075)]
            exact_mod_cast (by decide +kernel : 2 ^ 1075 ≤ 10 ^ 324)
          have half : (2 : ℚ) ^ (-1075 : Int) ≤ 2 ^ (emin - 1) := zpow_le_zpow_right₀ (by norm_num) (by omega)
          exact ceiling.le.trans (power.trans (numbers.trans half))
      · rw [if_neg tiny]
        have limit : maxdig = 800 := rfl
        have small := ten_power_size (natOf 10 digits) digits.length below.le (by omega)
        have spelled := bn_digits_spec digits.length digits 0 (le_refl _) each (by rw [zero_mul, zero_add]; exact small.2)
        rw [zero_mul, zero_add] at spelled
        obtain ⟨N, D, top, bottom, positiveN, positiveD, sizeN, sizeD, value⟩ := dec_operands
          (exp + zeros) below (by omega) (by omega) (by omega) pos
        have start : bnSetu32 0 = ofNat 0 := bn_setu32_spec 0 (by decide)
        rw [start, spelled, top, bottom]
        have tail := front_tail dig front narrow deep (by omega)
        rw [← same, ← value] at tail
        exact bn_scale_round_delivers positiveN positiveD sizeN sizeD several (by omega) format
          (by omega) (by omega) tail

end Spicule.Strtod
