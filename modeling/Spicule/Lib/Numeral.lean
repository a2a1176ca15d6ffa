import Mathlib

namespace Spicule.Numeral
open List

def natOf (base : Nat) (digits : List Nat) : Nat := digits.foldl (fun n d => n * base + d) 0

theorem foldl_nat_of (base n : Nat) (digits : List Nat) :
    digits.foldl (fun n d => n * base + d) n = n * base ^ digits.length + natOf base digits := by
  induction digits generalizing n with
  | nil => simp [natOf]
  | cons d digits ih =>
    rw [natOf, foldl_cons, foldl_cons, ih, ih (0 * base + d), length_cons]
    ring

variable (base : Nat)
theorem nat_of_append (front back : List Nat) :
    natOf base (front ++ back) = natOf base front * base ^ back.length + natOf base back := by
  rw [natOf, foldl_append, foldl_nat_of]
  rfl

theorem nat_of_cons (d : Nat) (digits : List Nat) :
    natOf base (d :: digits) = d * base ^ digits.length + natOf base digits := by
  rw [natOf, foldl_cons, foldl_nat_of, zero_mul, zero_add]

theorem nat_of_snoc (d : Nat) (digits : List Nat) : natOf base (digits ++ [d]) = natOf base digits * base + d := by
  rw [natOf, foldl_append]
  rfl

variable (digits : List Nat)
theorem nat_of_lt (each : ∀ d ∈ digits, d < base) : natOf base digits < base ^ digits.length := by
  induction digits with
  | nil => simp [natOf]
  | cons d digits ih =>
    have below := ih (forall_mem_cons.mp each).2
    have limb := each d mem_cons_self
    rw [nat_of_cons, length_cons, pow_succ]
    calc d * base ^ digits.length + natOf base digits < (d + 1) * base ^ digits.length := by
          rw [add_mul, one_mul]
          exact Nat.add_lt_add_left below _
      _ ≤ base * base ^ digits.length := Nat.mul_le_mul_right _ limb
      _ = base ^ digits.length * base := mul_comm _ _

variable (d : Nat)
theorem nat_of_ge (digits : List Nat) (nonzero : d ≠ 0) : base ^ digits.length ≤ natOf base (d :: digits) := by
  rw [nat_of_cons]
  exact Nat.le_trans (Nat.le_mul_of_pos_left _ (Nat.pos_of_ne_zero nonzero)) (Nat.le_add_right _ _)

theorem nat_of_eq_zero (pos : 0 < base) : natOf base digits = 0 ↔ ∀ d ∈ digits, d = 0 := by
  induction digits with
  | nil => simp [natOf]
  | cons d digits ih =>
    rw [nat_of_cons, Nat.add_eq_zero_iff, ih, Nat.mul_eq_zero, forall_mem_cons]
    simp only [Nat.pow_eq_zero, show ¬(base = 0 ∧ digits.length ≠ 0) by omega, or_false]

theorem nat_of_zeros (count : Nat) : natOf base (List.replicate count 0) = 0 := by
  induction count with
  | zero => rfl
  | succ count ih => rw [replicate_succ, nat_of_cons, ih, zero_mul]

theorem nat_of_padded (count : Nat) :
    natOf base (digits ++ List.replicate count 0) = natOf base digits * base ^ count := by
  rw [nat_of_append, nat_of_zeros, length_replicate, add_zero]

def significant (digits : List Nat) : List Nat := digits.dropWhile fun d => d = 0

theorem nat_of_significant : natOf base (significant digits) = natOf base digits := by
  induction digits with
  | nil => rfl
  | cons d digits ih =>
    unfold significant at ih ⊢
    rw [dropWhile_cons]
    split
    · rename_i zero
      rw [ih, nat_of_cons, of_decide_eq_true zero, zero_mul, zero_add]
    · rfl

theorem significant_head (rest : List Nat) (shape : significant digits = d :: rest) : d ≠ 0 := by
  induction digits with
  | nil => cases shape
  | cons e digits ih =>
    unfold significant at ih shape
    rw [dropWhile_cons] at shape
    split at shape
    · exact ih shape
    · rename_i nonzero
      injection shape with here
      exact here ▸ fun zero => nonzero (decide_eq_true zero)

theorem significant_subset (mem : d ∈ significant digits) : d ∈ digits := (dropWhile_sublist _).subset mem

theorem significant_snoc :
    significant (digits ++ [d]) = if significant digits ≠ [] ∨ d ≠ 0 then significant digits ++ [d] else [] := by
  unfold significant
  rw [dropWhile_append]
  by_cases none : List.dropWhile (fun d => decide (d = 0)) digits = []
  · by_cases zero : d = 0 <;> simp [none, zero]
  · simp [none]

theorem nat_of_reverse : natOf base digits.reverse = Nat.ofDigits base digits := by
  induction digits with
  | nil => rfl
  | cons d digits ih =>
    rw [reverse_cons, nat_of_snoc, ih, Nat.ofDigits_cons]
    ring

theorem significant_split :
    digits = List.replicate (digits.length - (significant digits).length) 0 ++ significant digits := by
  induction digits with
  | nil => rfl
  | cons d digits ih =>
    have shorter : (significant digits).length ≤ digits.length := (dropWhile_sublist _).length_le
    unfold significant at ih shorter ⊢
    rw [dropWhile_cons]
    split
    · rename_i zero
      rw [length_cons, Nat.sub_add_comm shorter, replicate_succ, cons_append, ← ih, of_decide_eq_true zero]
    · rw [Nat.sub_self]
      rfl

theorem significant_digits (large : 1 < base) (each : ∀ d ∈ digits, d < base) :
    significant digits = (Nat.digits base (natOf base digits)).reverse := by
  have value : natOf base digits = Nat.ofDigits base (significant digits).reverse := by
    rw [← nat_of_reverse, reverse_reverse, nat_of_significant]
  have small : ∀ d ∈ (significant digits).reverse, d < base := fun d mem =>
    each d (significant_subset digits d (mem_reverse.mp mem))
  have top : ∀ nonempty : (significant digits).reverse ≠ [], (significant digits).reverse.getLast nonempty ≠ 0 := by
    intro nonempty
    rw [getLast_reverse]
    exact significant_head digits _ _ (cons_head_tail _).symm
  rw [value, Nat.digits_ofDigits base large _ small top, reverse_reverse]

def numeral (base width n : Nat) : List Nat :=
  List.replicate (width - (Nat.digits base n).length) 0 ++ (Nat.digits base n).reverse

variable (width n : Nat)
theorem nat_of_numeral : natOf base (numeral base width n) = n := by
  rw [numeral, nat_of_append, nat_of_zeros, nat_of_reverse, Nat.ofDigits_digits, Nat.zero_mul, Nat.zero_add]

theorem numeral_lt {d : Nat} (large : 1 < base) (mem : d ∈ numeral base width n) : d < base := by
  rcases mem_append.mp mem with zero | digit
  · rw [eq_of_mem_replicate zero]
    omega
  · exact Nat.digits_lt_base large (mem_reverse.mp digit)

theorem numeral_unique {digits : List Nat} (large : 1 < base) (each : ∀ d ∈ digits, d < base)
    (wide : width ≤ digits.length) (exactly : width < digits.length → digits.head? ≠ some 0) :
    digits = numeral base width (natOf base digits) := by
  have split := significant_split digits
  have shape := significant_digits base digits large each
  have length : (significant digits).length = (Nat.digits base (natOf base digits)).length := by
    rw [shape, length_reverse]
  have zeros : digits.length - (significant digits).length = width - (significant digits).length := by
    rcases wide.eq_or_lt with equal | wider
    · rw [equal]
    · cases digits with
      | nil => exact absurd wider (Nat.not_lt_zero _)
      | cons d digits =>
        have nonzero : d ≠ 0 := fun zero => exactly wider (by rw [zero, head?_cons])
        have whole : significant (d :: digits) = d :: digits := by
          unfold significant
          rw [dropWhile_cons_of_neg (by simpa using nonzero)]
        rw [whole]
        omega
  rw [zeros, length, shape] at split
  exact split

theorem numeral_length : (numeral base width n).length = max width (Nat.digits base n).length := by
  rw [numeral, length_append, length_replicate, length_reverse]
  omega

theorem numeral_scaled (zeros : Nat) (large : 1 < base) :
    numeral base (width + zeros) (n * base ^ zeros) = numeral base width n ++ List.replicate zeros 0 := by
  have length := numeral_length base width n
  have value : natOf base (numeral base width n ++ List.replicate zeros 0) = n * base ^ zeros := by
    rw [nat_of_padded, nat_of_numeral]
  rw [← value]
  symm
  apply numeral_unique base (width + zeros) large
  · intro d mem
    rcases mem_append.mp mem with digit | zero
    · exact numeral_lt base width n large digit
    · rw [eq_of_mem_replicate zero]
      omega
  · rw [length_append, length_replicate, length]
    omega
  · intro wider
    rw [length_append, length_replicate, length] at wider
    have none : width - (Nat.digits base n).length = 0 := by omega
    have filled : Nat.digits base n ≠ [] := ne_nil_of_length_pos (by omega)
    have nonzero : n ≠ 0 := Nat.digits_ne_nil_iff_ne_zero.mp filled
    rw [numeral, none, replicate_zero, nil_append, head?_append_of_ne_nil _ (reverse_ne_nil_iff.mpr filled),
      head?_reverse, getLast?_eq_some_getLast filled]
    intro zero
    exact Nat.getLast_digit_ne_zero base nonzero (Option.some.inj zero)

-- Rounding a rational, halves to the even one, and how its decimal digits decide it.

structure HalfEven (y : ℚ) (n : Nat) : Prop where
  near : |y - n| ≤ 1 / 2
  even : |y - n| = 1 / 2 → n % 2 = 0

variable (n : Nat)
theorem half_even_nat : HalfEven n n := by
  constructor
  · rw [sub_self, abs_zero]
    norm_num
  · intro half
    rw [sub_self, abs_zero] at half
    norm_num at half

theorem half_even_exact {k n : Nat} (rounded : HalfEven k n) : n = k := by
  have near := rounded.near
  rw [abs_le] at near
  have low : ((k : ℤ) : ℚ) < (n + 1 : ℤ) := by push_cast; linarith
  have high : ((n : ℤ) : ℚ) < (k + 1 : ℤ) := by push_cast; linarith
  have := Int.cast_lt.mp low
  have := Int.cast_lt.mp high
  omega

theorem half_even_down (f : ℚ) (nonneg : 0 ≤ f) (low : f ≤ 1 / 2) (tie : f = 1 / 2 → n % 2 = 0) :
    HalfEven (n + f) n := by
  have distance : |(n : ℚ) + f - n| = f := by
    rw [add_sub_cancel_left]
    exact abs_of_nonneg nonneg
  constructor
  · rw [distance]
    exact low
  · rw [distance]
    exact tie

theorem half_even_up (f : ℚ) (below : f ≤ 1) (high : 1 / 2 ≤ f) (tie : f = 1 / 2 → n % 2 = 1) :
    HalfEven (n + f) (n + 1) := by
  have distance : |(n : ℚ) + f - (n + 1 : Nat)| = 1 - f := by
    rw [abs_of_nonpos (by push_cast; linarith)]
    push_cast
    ring
  constructor
  · rw [distance]
    linarith
  · rw [distance]
    intro half
    have odd := tie (by linarith)
    omega

def fraction (digits : List Nat) : ℚ := natOf 10 digits / 10 ^ digits.length

variable (digits : List Nat)
theorem fraction_nonneg : 0 ≤ fraction digits := by
  unfold fraction
  positivity

theorem fraction_lt_one (each : ∀ d ∈ digits, d < 10) : fraction digits < 1 := by
  have below : (natOf 10 digits : ℚ) < 10 ^ digits.length := by exact_mod_cast nat_of_lt 10 digits each
  unfold fraction
  rw [div_lt_one (by positivity)]
  exact below

theorem fraction_cons (d : Nat) (digits : List Nat) : fraction (d :: digits) = (d + fraction digits) / 10 := by
  unfold fraction
  rw [nat_of_cons, List.length_cons, pow_succ]
  push_cast
  field_simp

theorem fraction_zero : fraction digits = 0 ↔ ∀ d ∈ digits, d = 0 := by
  have power : (10 : ℚ) ^ digits.length ≠ 0 := by positivity
  unfold fraction
  rw [div_eq_zero_iff, or_iff_left power, Nat.cast_eq_zero, nat_of_eq_zero 10 digits (by norm_num)]

variable (front : List Nat)
theorem nat_of_split (tail : List Nat) :
    (natOf 10 (front ++ tail) : ℚ) / 10 ^ tail.length = natOf 10 front + fraction tail := by
  unfold fraction
  rw [nat_of_append]
  push_cast
  field_simp

theorem half_even_digits {d : Nat} {rest : List Nat} {last : Nat} (each : ∀ e ∈ d :: rest, e < 10)
    {up : Bool} (decided : up = true ↔ 5 < d ∨ (d = 5 ∧ ((∃ e ∈ rest, e ≠ 0) ∨ last % 2 = 1)))
    (parity : natOf 10 front % 2 = last % 2) :
    HalfEven (natOf 10 front + fraction (d :: rest)) (natOf 10 front + if up then 1 else 0) := by
  have digit := each d List.mem_cons_self
  have part := fraction_lt_one rest (List.forall_mem_cons.mp each).2
  have nonneg := fraction_nonneg rest
  have scaled := fraction_cons d rest
  have tie : fraction (d :: rest) = 1 / 2 → d = 5 ∧ fraction rest = 0 := by
    intro half
    rw [scaled] at half
    rcases lt_trichotomy d 5 with low | middle | high
    · have cast : (d : ℚ) + 1 ≤ 5 := by exact_mod_cast low
      linarith
    · rw [middle] at half
      exact ⟨middle, by push_cast at half; linarith⟩
    · have cast : (6 : ℚ) ≤ d := by exact_mod_cast high
      linarith
  cases up with
  | true =>
    simp only [if_true]
    have reason := decided.mp rfl
    apply half_even_up
    · exact (fraction_lt_one _ each).le
    · rw [scaled]
      have cast : (5 : ℚ) ≤ d := by
        have five : 5 ≤ d := by omega
        exact_mod_cast five
      linarith
    · intro half
      obtain ⟨five, zero⟩ := tie half
      have zeros := (fraction_zero rest).mp zero
      rcases reason with above | ⟨_, ⟨e, mem, nonzero⟩ | odd⟩
      · omega
      · exact absurd (zeros e mem) nonzero
      · omega
  | false =>
    simp only [Bool.false_eq_true, if_false, Nat.add_zero]
    have reason := fun reached => Bool.false_ne_true (decided.mpr reached)
    apply half_even_down
    · exact fraction_nonneg _
    · rw [scaled]
      have small : d ≤ 5 := by
        by_contra above
        exact reason (Or.inl (by omega))
      rcases small.eq_or_lt with five | low
      · have zeros : fraction rest = 0 := by
          rw [fraction_zero]
          intro e mem
          by_contra nonzero
          exact reason (Or.inr ⟨five, Or.inl ⟨e, mem, nonzero⟩⟩)
        rw [five, zeros]
        norm_num
      · have cast : (d : ℚ) + 1 ≤ 5 := by exact_mod_cast low
        linarith
    · intro half
      obtain ⟨five, _⟩ := tie half
      by_contra odd
      exact reason (Or.inr ⟨five, Or.inr (by omega)⟩)

theorem nat_of_parity (last : Nat) : natOf 10 (front ++ [last]) % 2 = last % 2 := by
  rw [nat_of_snoc]
  omega

end Spicule.Numeral
