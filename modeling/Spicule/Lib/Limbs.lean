import Mathlib

-- Natural numbers as little-endian limbs without a zero on top, read through `Nat.digits`.
namespace Spicule.Limbs
open List Nat

theorem digits_headD (base v : Nat) (large : 1 < base) : (digits base v).headD 0 = v % base := by
  rcases Nat.eq_zero_or_pos v with zero | pos
  · rw [zero, digits_zero, headD_nil, zero_mod]
  · rw [digits_def' large pos, headD_cons]

theorem digits_tail (base v : Nat) (large : 1 < base) : (digits base v).tail = digits base (v / base) := by
  rcases Nat.eq_zero_or_pos v with zero | pos
  · rw [zero, digits_zero, Nat.zero_div, digits_zero, tail_nil]
  · rw [digits_def' large pos, tail_cons]

theorem digits_length_le (base v limit : Nat) (large : 1 < base) (fits : v < base ^ limit) :
    (digits base v).length ≤ limit := (digits_length_le_iff large v).mpr fits

def mulAdd (base m : Nat) : List Nat → Nat → List Nat × Nat
  | [], carry => ([], carry)
  | d :: ds, carry =>
    let t := (d * m + carry) % 2 ^ 64
    let rest := mulAdd base m ds (t / base)
    (t % base :: rest.1, rest.2)

def push (base : Nat) : Nat → Nat → List Nat
  | 0, _ => []
  | room + 1, carry => if carry = 0 then [] else carry % base :: push base room (carry / base)

theorem push_digits (base room carry : Nat) (large : 1 < base) (fits : carry < base ^ room) :
    push base room carry = digits base carry := by
  induction room generalizing carry with
  | zero =>
    rw [pow_zero] at fits
    rw [show carry = 0 by omega, push, digits_zero]
  | succ room ih =>
    rw [push]
    split
    · rename_i zero
      rw [zero, digits_zero]
    · rename_i nonzero
      rw [digits_def' large (pos_of_ne_zero nonzero),
        ih (carry / base) (Nat.div_lt_of_lt_mul (by rwa [← Nat.pow_succ']))]

theorem mul_add_digits {base : Nat} (m v carry : Nat) (large : 1 < base) (pos : 0 < m) (small : carry ≤ m)
    (word : base * m < 2 ^ 64) :
    (mulAdd base m (digits base v) carry).1 ++ digits base (mulAdd base m (digits base v) carry).2 =
        digits base (v * m + carry) ∧
      (mulAdd base m (digits base v) carry).1.length = (digits base v).length ∧
      (mulAdd base m (digits base v) carry).2 ≤ m := by
  induction v using Nat.strongRecOn generalizing carry with
  | ind v ih =>
    rcases Nat.eq_zero_or_pos v with zero | nonzero
    · rw [zero, digits_zero, zero_mul, zero_add]
      exact ⟨rfl, rfl, small⟩
    · have limb : v % base + 1 ≤ base := mod_lt v (by omega)
      have bound : v % base * m + carry ≤ base * m := by
        have scaled := mul_le_mul_right m limb
        rw [add_mul, one_mul] at scaled
        omega
      have next : (v % base * m + carry) / base ≤ m := Nat.div_le_of_le_mul bound
      obtain ⟨value, length, out⟩ := ih (v / base) (div_lt_self nonzero large) _ next
      have parts : v * m + carry = (v % base * m + carry) + base * (v / base * m) := by
        have split := mod_add_div v base
        calc v * m + carry = (v % base + base * (v / base)) * m + carry := by rw [split]
          _ = _ := by ring
      have low : (v * m + carry) % base = (v % base * m + carry) % base := by rw [parts, add_mul_mod_self_left]
      have high : (v * m + carry) / base = v / base * m + (v % base * m + carry) / base := by
        rw [parts, add_mul_div_left _ _ (by omega), add_comm]
      have total : 0 < v * m + carry := Nat.add_pos_left (Nat.mul_pos nonzero pos) _
      rw [digits_def' large nonzero, digits_def' large total, low, high, ← value]
      simp only [mulAdd, mod_eq_of_lt (lt_of_le_of_lt bound word), cons_append, length_cons, length, out,
        and_self]

def mulAddWithin (base limit m : Nat) (a : List Nat) (carry : Nat) : List Nat :=
  let r := mulAdd base m a carry
  r.1 ++ push base (limit - a.length) r.2

theorem mul_add_within_digits {base limit m v carry : Nat} (large : 1 < base) (pos : 0 < m) (small : carry ≤ m)
    (word : base * m < 2 ^ 64) (fits : v * m + carry < base ^ limit) :
    mulAddWithin base limit m (digits base v) carry = digits base (v * m + carry) := by
  obtain ⟨value, length, _⟩ := mul_add_digits m v carry large pos small word
  have total := digits_length_le base _ limit large fits
  rw [← value, length_append, length] at total
  have room : (mulAdd base m (digits base v) carry).2 < base ^ (limit - (digits base v).length) :=
    (digits_length_le_iff large _).mp (by omega)
  rw [mulAddWithin, push_digits base _ _ large room, value]

def cmpLimbs : List Nat → List Nat → Ordering
  | d :: ds, e :: es => (cmpLimbs ds es).then (compare d e)
  | _, _ => .eq

def cmp (a b : List Nat) : Ordering := (compare a.length b.length).then (cmpLimbs a b)

variable (base u v : Nat)
theorem compare_split : compare u v = (compare (u / base) (v / base)).then (compare (u % base) (v % base)) := by
  have splitU := mod_add_div u base
  have splitV := mod_add_div v base
  rcases lt_trichotomy (u / base) (v / base) with below | equal | above
  · have less : u < v := Nat.lt_of_not_le fun le => Nat.not_lt_of_le (Nat.div_le_div_right le) below
    rw [Nat.compare_eq_lt.mpr less, Nat.compare_eq_lt.mpr below]
    rfl
  · rw [equal] at splitU
    rw [Nat.compare_eq_eq.mpr equal, Ordering.eq_then, compare_eq_ite_lt, compare_eq_ite_lt]
    simp only [show u < v ↔ u % base < v % base by omega, show v < u ↔ v % base < u % base by omega]
  · have more : v < u := Nat.lt_of_not_le fun le => Nat.not_lt_of_le (Nat.div_le_div_right le) above
    rw [Nat.compare_eq_gt.mpr more, Nat.compare_eq_gt.mpr above]
    rfl

theorem cmp_limbs_digits (large : 1 < base) (same : (digits base u).length = (digits base v).length) :
    cmpLimbs (digits base u) (digits base v) = compare u v := by
  induction u using Nat.strongRecOn generalizing v with
  | ind u ih =>
    rcases Nat.eq_zero_or_pos u with zero | pos
    · rw [zero, digits_zero, length_nil] at same
      have zero' := digits_eq_nil_iff_eq_zero.mp (length_eq_zero_iff.mp same.symm)
      rw [zero, zero', digits_zero]
      rfl
    · have pos' : 0 < v := by
        apply pos_of_ne_zero
        intro zero
        rw [zero, digits_zero, length_nil] at same
        exact absurd (digits_eq_nil_iff_eq_zero.mp (length_eq_zero_iff.mp same)) (ne_of_gt pos)
      rw [digits_def' large pos, digits_def' large pos'] at same ⊢
      rw [cmpLimbs, ih (u / base) (div_lt_self pos large) (v / base) (succ.inj same)]
      exact (compare_split base u v).symm

theorem cmp_digits (large : 1 < base) : cmp (digits base u) (digits base v) = compare u v := by
  unfold cmp
  rcases lt_trichotomy (digits base u).length (digits base v).length with shorter | same | longer
  · have less : u < v := Nat.lt_of_not_le fun le => Nat.not_lt_of_le (le_digits_len_le base v u le) shorter
    rw [Nat.compare_eq_lt.mpr shorter, Nat.compare_eq_lt.mpr less]
    rfl
  · rw [Nat.compare_eq_eq.mpr same, Ordering.eq_then]
    exact cmp_limbs_digits base u v large same
  · have more : v < u := Nat.lt_of_not_le fun le => Nat.not_lt_of_le (le_digits_len_le base u v le) longer
    rw [Nat.compare_eq_gt.mpr longer, Nat.compare_eq_gt.mpr more]
    rfl

def strip : List Nat → List Nat
  | [] => []
  | d :: ds =>
    match strip ds with
    | [] => if d = 0 then [] else [d]
    | e :: es => d :: e :: es

theorem strip_cons {d n : Nat} {ds : List Nat} (large : 1 < base) (limb : d < base)
    (stripped : strip ds = digits base n) : strip (d :: ds) = digits base (d + base * n) := by
  rw [strip, stripped]
  rcases Nat.eq_zero_or_pos n with zero | pos
  · rw [zero, digits_zero, mul_zero, add_zero]
    by_cases none : d = 0
    · simp only [none, if_true, digits_zero]
    · simp only [none, if_false, digits_of_lt base d none limb]
  · rw [digits_add base large d n limb (Or.inr (ne_of_gt pos)), digits_def' large pos]

-- Subtraction in 64-bit words: the borrow is bit 32 of the wrapped difference.
def subLimbs (base : Nat) : List Nat → List Nat → Nat → List Nat
  | [], _, _ => []
  | d :: ds, es, borrow =>
    let t := (d + 2 ^ 64 - es.headD 0 - borrow) % 2 ^ 64
    t % base :: subLimbs base ds es.tail (t / base % 2)

def sub (base : Nat) (a b : List Nat) : List Nat := strip (subLimbs base a b 0)

theorem sub_word {d e borrow : Nat} (limb : d < 2 ^ 32) (limb' : e < 2 ^ 32) (bit : borrow ≤ 1) :
    (d + 2 ^ 64 - e - borrow) % 2 ^ 64 % 2 ^ 32 + e + borrow =
        d + 2 ^ 32 * ((d + 2 ^ 64 - e - borrow) % 2 ^ 64 / 2 ^ 32 % 2) ∧
      (d + 2 ^ 64 - e - borrow) % 2 ^ 64 / 2 ^ 32 % 2 ≤ 1 := by
  omega

theorem sub_limbs_digits (borrow : Nat) (bit : borrow ≤ 1) (enough : v + borrow ≤ u) :
    strip (subLimbs (2 ^ 32) (digits (2 ^ 32) u) (digits (2 ^ 32) v) borrow) = digits (2 ^ 32) (u - v - borrow) := by
  induction u using Nat.strongRecOn generalizing v borrow with
  | ind u ih =>
    have large : 1 < 2 ^ 32 := by decide
    rcases Nat.eq_zero_or_pos u with zero | pos
    · rw [zero, Nat.zero_sub, Nat.zero_sub, digits_zero]
      rfl
    · obtain ⟨limb, carry⟩ := sub_word (mod_lt _ (by decide)) (mod_lt _ (by decide)) bit
      rw [digits_def' large pos, subLimbs, digits_headD _ _ large, digits_tail _ _ large]
      have below := mod_lt ((u % 2 ^ 32 + 2 ^ 64 - v % 2 ^ 32 - borrow) % 2 ^ 64) (show 0 < 2 ^ 32 by decide)
      generalize (u % 2 ^ 32 + 2 ^ 64 - v % 2 ^ 32 - borrow) % 2 ^ 64 % 2 ^ 32 = low at limb below ⊢
      generalize (u % 2 ^ 32 + 2 ^ 64 - v % 2 ^ 32 - borrow) % 2 ^ 64 / 2 ^ 32 % 2 = out at limb carry ⊢
      have rest := ih (u / 2 ^ 32) (div_lt_self pos large) (v / 2 ^ 32) out carry (by omega)
      rw [strip_cons (2 ^ 32) large below rest]
      congr 1
      omega

theorem sub_digits (enough : v ≤ u) :
    sub (2 ^ 32) (digits (2 ^ 32) u) (digits (2 ^ 32) v) = digits (2 ^ 32) (u - v) :=
  sub_limbs_digits u v 0 (by decide) enough

end Spicule.Limbs
