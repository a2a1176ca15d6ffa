import Spicule.Lib.Limbs

namespace Spicule.Strtod
open List Nat Limbs

def bnLimbs : Nat := 180

abbrev Bn := List Nat

def bnSetu32 (v : Nat) : Bn := if v ≠ 0 then [v] else []

def bnMuladd (a : Bn) (m c : Nat) : Bn := mulAddWithin (2 ^ 32) bnLimbs m a c

def limbBits : Nat → Nat → Nat
  | 0, _ => 0
  | fuel + 1, v => if v = 0 then 0 else limbBits fuel (v / 2) + 1

def bnBits (a : Bn) : Nat :=
  match a.getLast? with
  | none => 0
  | some v => (a.length - 1) * 32 + limbBits 32 v

def shlLimbs (b : Nat) : Bn → Nat → Bn × Nat
  | [], carry => ([], carry)
  | v :: rest, carry =>
    let shifted := shlLimbs b rest (v >>> (32 - b))
    (((v <<< b) % 2 ^ 32 ||| carry) :: shifted.1, shifted.2)

def bnShl (a : Bn) (k : Nat) : Bn :=
  if a.length = 0 ∨ k = 0 then a
  else
    let b := k % 32
    let a :=
      if b ≠ 0 then
        let shifted := shlLimbs b a 0
        if shifted.2 ≠ 0 ∧ a.length < bnLimbs then shifted.1 ++ [shifted.2] else shifted.1
      else a
    let w := k / 32
    let w := if a.length + w > bnLimbs then bnLimbs - a.length else w
    List.replicate w 0 ++ a

def bnShr1 : Bn → Bn
  | [] => []
  | [v] => if v >>> 1 = 0 then [] else [v >>> 1]
  | v :: next :: rest => (v >>> 1 ||| (next <<< 31) % 2 ^ 32) :: bnShr1 (next :: rest)

def bnCmp (a b : Bn) : Ordering := Limbs.cmp a b

def bnSub (a b : Bn) : Bn := sub (2 ^ 32) a b

def bnMulPow5 : Nat → Bn → Nat → Bn
  | 0, a, _ => a
  | fuel + 1, a, k =>
    if 13 ≤ k then bnMulPow5 fuel (bnMuladd a 1220703125 0) (k - 13)
    else if k ≠ 0 then bnMuladd a (5 ^ k) 0
    else a

def bnMulPow10 (a : Bn) (e : Nat) : Bn := bnShl (bnMulPow5 (e + 1) a e) e

def ofNat (v : Nat) : Bn := digits (2 ^ 32) v

def capacity : Nat := (2 ^ 32) ^ bnLimbs

theorem radix_large : 1 < 2 ^ 32 := by decide

variable (v : Nat)
theorem bn_setu32_spec (word : v < 2 ^ 32) : bnSetu32 v = ofNat v := by
  unfold bnSetu32 ofNat
  split
  · rename_i nonzero
    exact (digits_of_lt _ _ nonzero word).symm
  · rename_i zero
    rw [Classical.not_not.mp zero, digits_zero]

theorem bn_muladd_spec (m c : Nat) (pos : 0 < m) (small : c ≤ m) (word : m < 2 ^ 32)
    (fits : v * m + c < capacity) : bnMuladd (ofNat v) m c = ofNat (v * m + c) :=
  mul_add_within_digits radix_large pos small
    (by rw [show (2 : Nat) ^ 64 = 2 ^ 32 * 2 ^ 32 by decide]; exact mul_lt_mul_of_pos_left word (by decide)) fits

theorem bn_cmp_spec (u v : Nat) : bnCmp (ofNat u) (ofNat v) = compare u v := cmp_digits (2 ^ 32) u v radix_large

theorem bn_sub_spec (u v : Nat) (enough : v ≤ u) : bnSub (ofNat u) (ofNat v) = ofNat (u - v) := sub_digits u v enough

theorem limb_bits_size (fuel v : Nat) (fits : v < 2 ^ fuel) : limbBits fuel v = v.size := by
  induction fuel generalizing v with
  | zero =>
    rw [pow_zero] at fits
    rw [show v = 0 by omega, limbBits, size_zero]
  | succ fuel ih =>
    rw [limbBits]
    split
    · rename_i zero
      rw [zero, size_zero]
    · rename_i nonzero
      have halves : v.size = (v / 2).size + 1 := by
        have shape := size_bit (b := v.bodd) (n := v.div2) (by rw [bit_bodd_div2]; exact nonzero)
        rw [bit_bodd_div2, div2_val] at shape
        exact shape
      rw [ih (v / 2) (by rw [pow_succ] at fits; omega), halves]

theorem size_split (above : v / 2 ^ 32 ≠ 0) : v.size = (v / 2 ^ 32).size + 32 := by
  apply le_antisymm
  · rw [size_le, pow_add]
    exact (div_lt_iff_lt_mul (by decide)).mp (lt_size_self _)
  · have top : 0 < (v / 2 ^ 32).size := size_pos.mpr (pos_of_ne_zero above)
    have reach : 2 ^ ((v / 2 ^ 32).size - 1) ≤ v / 2 ^ 32 := lt_size.mp (by omega)
    have scaled := (le_div_iff_mul_le (by decide)).mp reach
    rw [← pow_add] at scaled
    have below := lt_size.mpr scaled
    omega

theorem bn_bits_spec : bnBits (ofNat v) = v.size := by
  induction v using Nat.strongRecOn with
  | ind v ih =>
    rcases Nat.eq_zero_or_pos v with zero | pos
    · rw [zero, ofNat, digits_zero, size_zero]
      rfl
    · by_cases above : v / 2 ^ 32 = 0
      · have small : v < 2 ^ 32 := lt_of_div_eq_zero (by decide) above
        rw [ofNat, digits_of_lt _ _ (Nat.ne_of_gt pos) small]
        simp only [bnBits, getLast?_singleton, length_singleton, Nat.sub_self, Nat.zero_mul, Nat.zero_add]
        exact limb_bits_size 32 v small
      · have rest := ih (v / 2 ^ 32) (Nat.div_lt_self pos radix_large)
        rw [size_split v above, ← rest, ofNat, ofNat, digits_def' radix_large pos,
          digits_def' radix_large (Nat.pos_of_ne_zero above)]
        simp only [bnBits, getLast?_cons_cons, length_cons, Nat.add_sub_cancel]
        split
        · rename_i none
          cases getLast?_eq_none_iff.mp none
        · omega

theorem shl_limb {b v carry : Nat} (part : b < 32) (small : carry < 2 ^ b) (limb : v < 2 ^ 32) :
    (v <<< b) % 2 ^ 32 ||| carry = (v * 2 ^ b + carry) % 2 ^ 64 % 2 ^ 32 ∧
      v >>> (32 - b) = (v * 2 ^ b + carry) % 2 ^ 64 / 2 ^ 32 ∧ v >>> (32 - b) < 2 ^ b := by
  have radix : 2 ^ 32 = 2 ^ b * 2 ^ (32 - b) := by rw [← pow_add]; congr 1; omega
  have power : 2 ^ b < 2 ^ 32 := Nat.pow_lt_pow_right (by decide) part
  have product : v * 2 ^ b < 2 ^ 32 * 2 ^ b := Nat.mul_lt_mul_of_pos_right limb (Nat.two_pow_pos b)
  have word : v * 2 ^ b + carry < 2 ^ 64 := by
    have top : 2 ^ 32 * 2 ^ b ≤ 2 ^ 32 * 2 ^ 31 := Nat.mul_le_mul_left _ (Nat.pow_le_pow_right (by decide) (by omega))
    omega
  have high : (v * 2 ^ b + carry) / 2 ^ 32 = v / 2 ^ (32 - b) := by
    rw [radix, ← Nat.div_div_eq_div_mul, Nat.mul_comm v, mul_add_div (Nat.two_pow_pos b), div_eq_of_lt small,
      add_zero]
  have low : (v * 2 ^ b + carry) % 2 ^ 32 = 2 ^ b * (v % 2 ^ (32 - b)) + carry := by
    rw [radix, mod_mul, Nat.mul_comm v, mul_add_mod, mod_eq_of_lt small, mul_add_div (Nat.two_pow_pos b),
      div_eq_of_lt small, add_zero, add_comm]
  rw [mod_eq_of_lt word, high, low, shiftRight_eq_div_pow, shiftLeft_eq]
  refine ⟨?_, rfl, ?_⟩
  · rw [two_pow_add_eq_or_of_lt small, radix, mul_comm v, mul_mod_mul_left]
  · exact Nat.div_lt_of_lt_mul (by rw [Nat.mul_comm, ← radix]; exact limb)

theorem shl_limbs_mul_add {b : Nat} (part : b < 32) (limbs : List Nat) (carry : Nat) (small : carry < 2 ^ b)
    (each : ∀ v ∈ limbs, v < 2 ^ 32) : shlLimbs b limbs carry = mulAdd (2 ^ 32) (2 ^ b) limbs carry := by
  induction limbs generalizing carry with
  | nil => rfl
  | cons v rest ih =>
    obtain ⟨low, high, small'⟩ := shl_limb part small (each v mem_cons_self)
    have tail := ih (v >>> (32 - b)) small' (forall_mem_cons.mp each).2
    simp only [shlLimbs, mulAdd, tail, low, ← high]

theorem shl_bits_spec {b : Nat} (part : b < 32) (fits : v * 2 ^ b < capacity) :
    (if (shlLimbs b (ofNat v) 0).2 ≠ 0 ∧ (ofNat v).length < bnLimbs then
        (shlLimbs b (ofNat v) 0).1 ++ [(shlLimbs b (ofNat v) 0).2] else (shlLimbs b (ofNat v) 0).1) =
      ofNat (v * 2 ^ b) := by
  have power : 2 ^ b < 2 ^ 32 := Nat.pow_lt_pow_right (by decide) part
  obtain ⟨value, length, out⟩ := mul_add_digits (2 ^ b) v 0 radix_large (Nat.two_pow_pos b) (Nat.zero_le _) (by omega)
  have total := digits_length_le (2 ^ 32) (v * 2 ^ b) bnLimbs radix_large fits
  rw [shl_limbs_mul_add part (ofNat v) 0 (Nat.two_pow_pos b) fun w mem => digits_lt_base radix_large mem]
  rw [Nat.add_zero] at value
  rw [← value, length_append, length] at total
  unfold ofNat
  rw [← value]
  by_cases none : (mulAdd (2 ^ 32) (2 ^ b) (digits (2 ^ 32) v) 0).2 = 0
  · rw [if_neg (fun both => both.1 none), none, digits_zero, append_nil]
  · have single := digits_of_lt (2 ^ 32) _ none (Nat.lt_of_le_of_lt out power)
    rw [single, length_singleton] at total
    rw [if_pos ⟨none, by omega⟩, single]

theorem bn_shl_spec {k : Nat} (fits : v * 2 ^ k < capacity) : bnShl (ofNat v) k = ofNat (v * 2 ^ k) := by
  rcases Nat.eq_zero_or_pos v with zero | pos
  · rw [zero, zero_mul, ofNat, digits_zero]
    rfl
  · by_cases still : k = 0
    · rw [still, pow_zero, mul_one, bnShl, if_pos (Or.inr rfl)]
    · have nonempty : (ofNat v).length ≠ 0 := by
        intro empty
        exact absurd (digits_eq_nil_iff_eq_zero.mp (length_eq_zero_iff.mp empty)) (ne_of_gt pos)
      have split : v * 2 ^ k = (2 ^ 32) ^ (k / 32) * (v * 2 ^ (k % 32)) := by
        have exponent : 2 ^ k = (2 ^ 32) ^ (k / 32) * 2 ^ (k % 32) := by
          rw [← pow_mul, ← pow_add, div_add_mod]
        rw [exponent]
        ring
      have inner : 0 < v * 2 ^ (k % 32) := Nat.mul_pos pos (Nat.two_pow_pos _)
      have partFits : v * 2 ^ (k % 32) < capacity := by
        apply lt_of_le_of_lt _ fits
        exact Nat.mul_le_mul_left v (Nat.pow_le_pow_right (by decide) (mod_le k 32))
      have bitsDone : (if k % 32 ≠ 0 then
            if (shlLimbs (k % 32) (ofNat v) 0).2 ≠ 0 ∧ (ofNat v).length < bnLimbs then
              (shlLimbs (k % 32) (ofNat v) 0).1 ++ [(shlLimbs (k % 32) (ofNat v) 0).2]
            else (shlLimbs (k % 32) (ofNat v) 0).1
          else ofNat v) = ofNat (v * 2 ^ (k % 32)) := by
        split
        · exact shl_bits_spec v (mod_lt _ (by decide)) partFits
        · rename_i none
          rw [Classical.not_not.mp none, pow_zero, mul_one]
      have whole := digits_base_pow_mul (k := k / 32) radix_large inner
      have total := digits_length_le (2 ^ 32) (v * 2 ^ k) bnLimbs radix_large fits
      rw [split, whole, length_append, length_replicate] at total
      simp only [bnShl, bitsDone]
      rw [if_neg (by simp only [nonempty, still, or_self, not_false_eq_true]), if_neg (by unfold ofNat; omega), split]
      exact whole.symm

theorem shr1_limb (next : Nat) (limb : v < 2 ^ 32) :
    v >>> 1 ||| (next <<< 31) % 2 ^ 32 = v / 2 + 2 ^ 31 * (next % 2) := by
  have half : v / 2 < 2 ^ 31 := by omega
  have carried : next * 2 ^ 31 % 2 ^ 32 = 2 ^ 31 * (next % 2) := by
    rw [show (2 : Nat) ^ 32 = 2 ^ 31 * 2 by decide, mul_comm, mul_mod_mul_left]
  rw [shiftRight_eq_div_pow, Nat.pow_one, shiftLeft_eq, carried, Nat.or_comm, ← two_pow_add_eq_or_of_lt half,
    add_comm]

theorem bn_shr1_spec : bnShr1 (ofNat v) = ofNat (v / 2) := by
  induction v using Nat.strongRecOn with
  | ind v ih =>
    rcases Nat.eq_zero_or_pos v with zero | pos
    · rw [zero, Nat.zero_div, ofNat, digits_zero]
      rfl
    · by_cases above : v / 2 ^ 32 = 0
      · have small : v < 2 ^ 32 := lt_of_div_eq_zero (by decide) above
        rw [ofNat, digits_of_lt _ _ (ne_of_gt pos) small, bnShr1, shiftRight_eq_div_pow, pow_one, ofNat]
        split
        · rename_i zero
          rw [zero, digits_zero]
        · rename_i nonzero
          rw [digits_of_lt _ _ nonzero (by omega)]
      · have rest := ih (v / 2 ^ 32) (div_lt_self pos radix_large)
        rw [ofNat, digits_def' radix_large (pos_of_ne_zero above)] at rest
        rw [ofNat, digits_def' radix_large pos, digits_def' radix_large (pos_of_ne_zero above), bnShr1,
          rest, shr1_limb _ _ (mod_lt _ (by decide)), ofNat, ofNat,
          ← digits_add (2 ^ 32) radix_large _ _ (by omega) (by omega)]
        congr 1
        omega

theorem bn_mul_pow5_spec (fuel v e : Nat) (enough : e < fuel) (fits : v * 5 ^ e < capacity) :
    bnMulPow5 fuel (ofNat v) e = ofNat (v * 5 ^ e) := by
  induction fuel generalizing v e with
  | zero => omega
  | succ fuel ih =>
    rw [bnMulPow5]
    split
    · rename_i many
      have power : v * 5 ^ e = v * 1220703125 * 5 ^ (e - 13) := by
        rw [mul_assoc, show 1220703125 = 5 ^ 13 by decide, ← pow_add, show 13 + (e - 13) = e by omega]
      rw [power] at fits ⊢
      have rest : 0 < 5 ^ (e - 13) := Nat.pow_pos (by decide)
      have step : v * 1220703125 + 0 < capacity := by
        rw [add_zero]
        exact Nat.lt_of_le_of_lt (Nat.le_mul_of_pos_right _ rest) fits
      rw [bn_muladd_spec v 1220703125 0 (by decide) (by decide) (by decide) step, add_zero]
      exact ih (v * 1220703125) (e - 13) (by omega) fits
    · rename_i few
      split
      · have power : 5 ^ e ≤ 5 ^ 12 := Nat.pow_le_pow_right (by decide) (by omega)
        exact bn_muladd_spec v (5 ^ e) 0 (Nat.pow_pos (by decide)) (Nat.zero_le _) (by omega) fits
      · rename_i none
        rw [Classical.not_not.mp none, pow_zero, mul_one]

theorem bn_mul_pow10_spec (e : Nat) (fits : v * 10 ^ e < capacity) : bnMulPow10 (ofNat v) e = ofNat (v * 10 ^ e) := by
  have power : v * 10 ^ e = v * 5 ^ e * 2 ^ e := by rw [Nat.mul_assoc, ← Nat.mul_pow]
  rw [power] at fits ⊢
  have half : v * 5 ^ e < capacity := Nat.lt_of_le_of_lt (Nat.le_mul_of_pos_right _ (Nat.two_pow_pos e)) fits
  rw [bnMulPow10, bn_mul_pow5_spec (e + 1) v e (by omega) half, bn_shl_spec _ fits]

end Spicule.Strtod
