import Mathlib

-- Numbers as bits, least significant first or, as in a prefix code, most significant first.
namespace Spicule.Bits
open List Nat

def lsb : Nat → Nat → List Bool
  | 0, _ => []
  | width + 1, n => decide (n % 2 = 1) :: lsb width (n / 2)

def msb : Nat → Nat → List Bool
  | 0, _ => []
  | width + 1, n => decide (n / 2 ^ width % 2 = 1) :: msb width n

def byteBits (byte : UInt8) : List Bool := lsb 8 byte.toNat

def bits (bytes : List UInt8) : List Bool := bytes.flatMap byteBits

variable (width n : Nat)

@[simp] theorem lsb_length : (lsb width n).length = width := by
  induction width generalizing n with
  | zero => rfl
  | succ width ih => simp [lsb, ih]

@[simp] theorem msb_length : (msb width n).length = width := by
  induction width with
  | zero => rfl
  | succ width ih => simp [msb, ih]

@[simp] theorem bits_nil : bits [] = [] := rfl

@[simp] theorem bits_cons (byte : UInt8) (bytes : List UInt8) : bits (byte :: bytes) = byteBits byte ++ bits bytes := rfl

@[simp] theorem bits_append (left right : List UInt8) : bits (left ++ right) = bits left ++ bits right := by
  simp [bits]

@[simp] theorem bits_length (bytes : List UInt8) : (bits bytes).length = 8 * bytes.length := by
  induction bytes with
  | nil => rfl
  | cons byte bytes ih =>
    rw [bits_cons, length_append, ih, byteBits, lsb_length, length_cons]
    omega

theorem bit_to_nat : (decide (n % 2 = 1)).toNat = n % 2 := by
  rcases mod_two_eq_zero_or_one n with even | odd
  · rw [even]; rfl
  · rw [odd]; rfl

theorem lsb_append (low high n : Nat) : lsb (low + high) n = lsb low n ++ lsb high (n / 2 ^ low) := by
  induction low generalizing n with
  | zero => rw [Nat.zero_add, Nat.pow_zero, Nat.div_one, lsb, nil_append]
  | succ low ih => rw [Nat.succ_add, lsb, lsb, ih, Nat.div_div_eq_div_mul, Nat.pow_succ', cons_append]

theorem lsb_mod : lsb width (n % 2 ^ width) = lsb width n := by
  induction width generalizing n with
  | zero => rfl
  | succ width ih =>
    have low : n % 2 ^ (width + 1) % 2 = n % 2 := mod_mod_of_dvd n ⟨2 ^ width, pow_succ'⟩
    have high : n % 2 ^ (width + 1) / 2 = n / 2 % 2 ^ width := by rw [pow_succ', mod_mul_right_div_self]
    rw [lsb, lsb, low, high, ih]

theorem bits_halfword : bits [UInt8.ofNat n, UInt8.ofNat (n / 256)] = lsb 16 n := by
  have byte : ∀ m, byteBits (UInt8.ofNat m) = lsb 8 m := fun m => by
    rw [byteBits, UInt8.toNat_ofNat']
    exact lsb_mod 8 m
  rw [bits_cons, bits_cons, bits_nil, append_nil, byte, byte]
  exact (lsb_append 8 8 n).symm

theorem lsb_inj (m n : Nat) (small : m < 2 ^ width) (small' : n < 2 ^ width) (same : lsb width m = lsb width n) :
    m = n := by
  induction width generalizing m n with
  | zero => simp only [pow_zero] at small small'; omega
  | succ width ih =>
    simp only [lsb, List.cons.injEq, decide_eq_decide] at same
    rw [pow_succ] at small small'
    have halves := ih (m / 2) (n / 2) (by omega) (by omega) same.2
    have parity := same.1
    omega

theorem byte_bits_inj (b c : UInt8) (same : byteBits b = byteBits c) : b = c :=
  UInt8.toNat_inj.mp (lsb_inj 8 b.toNat c.toNat b.toNat_lt c.toNat_lt same)

theorem bits_front (bytes front : List UInt8) (rest : List Bool) (split : bits bytes = bits front ++ rest) :
    ∃ back, bytes = front ++ back ∧ bits back = rest := by
  induction front generalizing bytes with
  | nil => exact ⟨bytes, rfl, split⟩
  | cons byte front ih =>
    cases bytes with
    | nil =>
      have lengths := congrArg List.length split
      simp only [bits_length, length_append, length_nil, length_cons] at lengths
      omega
    | cons first bytes =>
      rw [bits_cons, bits_cons, append_assoc] at split
      have widths : (byteBits first).length = (byteBits byte).length := by simp [byteBits]
      obtain ⟨head, tail⟩ := append_inj split widths
      obtain ⟨back, shape, rest_bits⟩ := ih bytes tail
      exact ⟨back, by rw [byte_bits_inj first byte head, shape, cons_append], rest_bits⟩

end Spicule.Bits
