import Spicule.Strtod.DecimalValue

namespace Spicule.Strtod
open List Ctype Numeral Rounding
open Strtol (Bytes sign)

variable (r : Reading)
theorem significand_split :
    r.significand = natOf r.radix.base r.kept * r.radix.base ^ r.dropped.length + natOf r.radix.base r.dropped := by
  rw [Reading.significand, ← nat_of_significant, ← nat_of_append, Reading.kept, Reading.dropped, take_append_drop]

theorem mantissa_small {radix : Radix} {s : Bytes} {d : Nat} (mem : d ∈ (mantissa radix s).1) : d < radix.base := by
  have front := ahead_small radix s d
  unfold mantissa at mem
  generalize digitsAhead radix s = ahead at front mem
  obtain ⟨whole, rest⟩ := ahead
  cases rest with
  | nil => exact front mem
  | cons c behind =>
    simp only at mem front
    split at mem
    · rcases mem_append.mp mem with here | later
      · exact front here
      · exact ahead_small radix behind d later
    · exact front mem

theorem read_number_fields {radix : Radix} {s : Bytes} (read : readNumber radix s = some r) :
    r.radix = radix ∧ r.digits = (mantissa radix s).1 ∧ r.places = (mantissa radix s).2.1 ∧ r.digits ≠ [] ∧
      r.expNeg = (exponentAhead radix (mantissa radix s).2.2).1 ∧
      r.expDigits = (exponentAhead radix (mantissa radix s).2.2).2.1 ∧
      r.stop = (exponentAhead radix (mantissa radix s).2.2).2.2 := by
  unfold readNumber at read
  generalize mantissa radix s = found at read ⊢
  obtain ⟨digits, places, rest⟩ := found
  simp only at read ⊢
  split at read
  · cases read
  · rename_i nonempty
    injection read with same
    rw [← same]
    exact ⟨rfl, rfl, rfl, nonempty, rfl, rfl, rfl⟩

theorem dropped_small (each : ∀ d ∈ r.digits, d < r.radix.base) :
    natOf r.radix.base r.dropped < r.radix.base ^ r.dropped.length :=
  nat_of_lt _ _ fun d mem => each d (significant_subset r.digits d (mem_of_mem_drop mem))

theorem dropped_any : (r.dropped.any fun d => d ≠ 0) = true ↔ natOf r.radix.base r.dropped ≠ 0 := by
  have pos : 0 < r.radix.base := by cases r.radix <;> decide
  rw [Ne, nat_of_eq_zero _ _ pos, any_eq_true]
  push Not
  simp

theorem kept_full (some_dropped : r.dropped ≠ []) : r.kept.length = r.limit := by
  unfold Reading.kept Reading.dropped at *
  rw [length_take]
  have long := length_pos_of_ne_nil some_dropped
  rw [length_drop] at long
  omega

theorem kept_lead (d : Nat) (rest : List Nat) (shape : r.kept = d :: rest) : d ≠ 0 := by
  unfold Reading.kept at shape
  cases form : significant r.digits with
  | nil =>
    rw [form, take_nil] at shape
    cases shape
  | cons e tail =>
    have pos : r.limit = r.limit - 1 + 1 := by
      have : 0 < r.limit := by unfold Reading.limit; cases r.radix <;> decide
      omega
    rw [form, pos, take_succ_cons] at shape
    injection shape with same
    exact same ▸ significant_head r.digits e tail form

theorem exact_split (e : Int) :
    r.exact e = (natOf r.radix.base r.kept + natOf r.radix.base r.dropped / r.radix.base ^ r.dropped.length) *
      r.radix.step ^ (r.counter + e) := by
  have nonzero : r.radix.step ≠ 0 := by cases r.radix <;> simp [Radix.step]
  have power : (r.radix.base : ℚ) ^ r.dropped.length = r.radix.step ^ ((r.radix.weight : Int) * r.dropped.length) := by
    cases r.radix with
    | dec => simp [Radix.base, Radix.step, Radix.weight]
    | hex =>
      simp only [Radix.base, Radix.step, Radix.weight]
      rw [zpow_mul, zpow_natCast, zpow_natCast]
      norm_num
  have shift : r.radix.step ^ (r.counter + e) =
      r.radix.step ^ ((r.radix.weight : Int) * r.dropped.length) * r.radix.step ^ (e - r.radix.weight * r.places) := by
    rw [← zpow_add₀ nonzero]
    congr 1
    rw [Reading.counter]
    ring
  have units : (r.radix.base : ℚ) ^ r.dropped.length ≠ 0 := by
    rw [power]
    exact zpow_ne_zero _ nonzero
  rw [Reading.exact, significand_split, shift, ← power]
  push_cast
  field_simp

theorem decimal_front (decimal : r.radix = .dec) (each : ∀ d ∈ r.digits, d < 10) {e : Int} :
    Front r.kept (r.counter + e) (r.dropped.any fun d => d ≠ 0) (r.exact e) := by
  have below := dropped_small r (by rw [decimal]; exact each)
  have value := exact_split r e
  have unit := ten_pos (r.counter + e)
  have sticky := dropped_any r
  have limit : r.limit = maxdig := by rw [Reading.limit, decimal]
  have full := kept_full r
  rw [decimal] at below value sticky
  simp only [Radix.base, Radix.step] at below value sticky
  rw [limit] at full
  have power : (0 : ℚ) < 10 ^ r.dropped.length := by positivity
  have fraction : (natOf 10 r.dropped : ℚ) / 10 ^ r.dropped.length < 1 := by
    rw [div_lt_one power]
    exact_mod_cast below
  have fraction₀ : 0 ≤ (natOf 10 r.dropped : ℚ) / 10 ^ r.dropped.length := by positivity
  push_cast at value
  refine ⟨?_, kept_lead r, ?_, ?_, ?_, ?_, ?_⟩
  · exact fun d mem => each d (significant_subset r.digits d (mem_of_mem_take mem))
  · rw [← limit]
    exact length_take_le _ _
  · rw [value]
    nlinarith
  · rw [value]
    push_cast
    nlinarith
  · intro clear
    have zero : natOf 10 r.dropped = 0 := by
      by_contra nonzero
      rw [sticky.mpr nonzero] at clear
      cases clear
    rw [value, zero]
    simp
  · intro more
    have nonzero := sticky.mp more
    have pos : 0 < (natOf 10 r.dropped : ℚ) / 10 ^ r.dropped.length :=
      div_pos (Nat.cast_pos.mpr (Nat.pos_of_ne_zero nonzero)) power
    refine ⟨?_, full ?_⟩
    · rw [value]
      nlinarith
    · intro none
      rw [none] at nonzero
      exact nonzero rfl

section
variable (p : Nat) (emin : Int) (several : 2 ≤ p) (narrow : p ≤ 53) (deep : -1074 ≤ emin) (format : emin + p ≤ 1024)

include several narrow deep format in
theorem parse_dec_delivers (s : Bytes) (r : Reading) (read : readNumber .dec s = some r) (countable : r.Countable) :
    ∃ v, parseDec s p emin = some { nz := r.kept.length ≠ 0, value := some v, stop := r.stop } ∧
      Delivers p emin (r.exact r.cutExponent) v := by
  obtain ⟨radix, digits, places, nonempty, expNeg, expDigits, stop⟩ := read_number_fields r read
  obtain ⟨scan, scanned, holds⟩ := scan_mantissa_holds .dec Decimal.push DecimalHolds
    (fun seenDot scan digits places d holds _ => decimal_push holds) s
    { dig := [], exp := 0, any := false, sticky := false } ⟨rfl, rfl, rfl, rfl⟩
  have each : ∀ d ∈ r.digits, d < 10 := fun d mem => mantissa_small (digits ▸ mem)
  rw [← digits, ← places] at holds
  have limit : r.limit = maxdig := by rw [Reading.limit, radix]
  have kept : scan.dig = r.kept := by rw [holds.dig, Reading.kept, limit]
  have sticky : scan.sticky = r.dropped.any fun d => d ≠ 0 := by rw [holds.sticky, Reading.dropped, limit]
  have counter : scan.exp = int32 r.counter := by
    rw [holds.exp, Reading.counter, Reading.dropped, limit, radix, Radix.weight, Nat.cast_one, one_mul]
  have exponent := exp_part_ahead 101 69 .dec (fun c => Iff.rfl) (mantissa .dec s).2.2
  rw [← expNeg, ← expDigits, ← stop] at exponent
  have cut : (if r.expNeg then -(cutFrom 0 r.expDigits : Int) else cutFrom 0 r.expDigits) = r.cutExponent := rfl
  have margin : r.margin = r.kept.length := by rw [Reading.margin, radix]
  have sum_high := countable.sum_high
  rw [margin] at sum_high
  have total : int32 (scan.exp + r.cutExponent) = r.counter + r.cutExponent := by
    rw [counter, int32_add]
    exact int32_small countable.sum_low (by omega)
  obtain ⟨v, decided, delivered⟩ := dec_value_delivers r.kept
    (decimal_front r radix each) several narrow deep format countable.sum_low sum_high
  refine ⟨v, ?_, delivered⟩
  have any : scan.any = true := by
    rw [holds.any]
    simp [nonempty]
  unfold parseDec
  change scanMantissa decDigit Decimal.push s false _ = _ at scanned
  simp only [scanned, any, Bool.true_eq_false, if_false, exponent, cut, total, kept, sticky, decided]

theorem tail_inside (lo hi base x : ℚ) (above : lo < base) (below : base < hi) (above' : lo < x) (below' : x < hi)
    (apart : ∀ (j : Nat) (h : Int), j ≤ 2 ^ (p + 1) → emin - 1 ≤ h → value j h ≤ lo ∨ hi ≤ value j h) :
    Tail p emin base x false := by
  refine ⟨?_, ?_, ?_⟩
  · intro j h few least beyond
    rcases apart j h few least with low | high <;> linarith
  · intro j h few least under
    rcases apart j h few least with low | high <;> linarith
  · intro j h few least same
    rcases apart j h few least with low | high <;> linarith

include narrow in
theorem even_apart {m : Nat} {exp : Int} (large : 2 ^ 60 ≤ m) (even : m % 2 = 0) {j : Nat} {h : Int} (few : j ≤ 2 ^ (p + 1)) :
    value j h ≤ value m exp ∨ value (m + 2) exp ≤ value j h := by
  rcases le_or_gt h exp with low | high
  · left
    obtain ⟨k, shape⟩ := Int.le.dest low
    rw [← shape, value_rescale]
    apply value_mono
    have power : 2 ^ (p + 1) ≤ 2 ^ 60 := Nat.pow_le_pow_right (by decide) (by omega)
    have one : 1 ≤ 2 ^ k := Nat.one_le_two_pow
    calc j ≤ m := by omega
      _ ≤ m * 2 ^ k := Nat.le_mul_of_pos_right m one
  · obtain ⟨k, shape⟩ := Int.le.dest (show exp + 1 ≤ h by omega)
    rw [← shape, show exp + 1 + (k : Int) = exp + ((k + 1 : ℕ) : Int) by push_cast; ring, value_rescale, pow_succ,
      ← mul_assoc]
    rcases lt_or_ge m (j * 2 ^ k * 2) with less | more
    · exact Or.inr (value_mono _ _ _ (by omega))
    · exact Or.inl (value_mono _ _ _ more)

theorem bn_setu64_spec (m : Nat) (word : m < 2 ^ 64) : bnSetu64 m = ofNat m := by
  unfold bnSetu64
  rw [Nat.shiftRight_eq_div_pow]
  split
  · rename_i high
    have pos : 0 < m := Nat.pos_of_ne_zero fun zero => high (by rw [zero, Nat.zero_div])
    rw [ofNat, Nat.digits_def' radix_large pos, Nat.digits_of_lt _ _ high (by omega)]
  · rename_i low
    have small : m < 2 ^ 32 := by omega
    rw [Nat.mod_eq_of_lt small, bn_setu32_spec m small]

def sticked (m : Nat) (sticky : Bool) : Nat := if sticky then m ||| 1 else m

theorem sticked_one (m : Nat) : sticked m true = m - m % 2 + 1 := by
  have joined : 2 * (m / 2) ||| 1 = 2 * (m / 2) + 1 := by
    have disjoint := Nat.two_pow_add_eq_or_of_lt (show 1 < 2 ^ 1 by decide) (m / 2)
    rw [Nat.pow_one] at disjoint
    exact disjoint.symm
  have odd : m ||| 1 = 2 * (m / 2) ||| 1 := by
    apply Nat.eq_of_testBit_eq
    intro i
    cases i with
    | zero => simp
    | succ i =>
      rw [Nat.testBit_or, Nat.testBit_or]
      simp [Nat.testBit_succ]
  rw [sticked, if_pos rfl, odd, joined]
  omega

include narrow in
theorem hex_tail {m : Nat} (exp : Int) {fraction : ℚ} {sticky : Bool} (nonneg : 0 ≤ fraction) (below : fraction < 1)
    (some_dropped : sticky = true ↔ fraction ≠ 0) (large : sticky = true → 2 ^ 60 ≤ m) :
    Tail p emin (value (sticked m sticky) exp) ((m + fraction) * 2 ^ exp) false := by
  cases sticky with
  | false =>
    have zero : fraction = 0 := by
      by_contra nonzero
      exact Bool.false_ne_true (some_dropped.mpr nonzero)
    rw [zero, add_zero]
    exact tail_none p emin _
  | true =>
    have pos : 0 < fraction := lt_of_le_of_ne nonneg (Ne.symm (some_dropped.mp rfl))
    have unit := unit_pos exp
    have room := large rfl
    have split : m = m - m % 2 + m % 2 := by omega
    have parity : m % 2 ≤ 1 := by omega
    obtain ⟨n, low⟩ : ∃ n, n = m - m % 2 := ⟨_, rfl⟩
    obtain ⟨b, bit⟩ : ∃ b, b = m % 2 := ⟨_, rfl⟩
    rw [sticked_one, ← low]
    rw [← low, ← bit] at split
    rw [← bit] at parity
    have castB : (b : ℚ) ≤ 1 := by exact_mod_cast parity
    have castB₀ : (0 : ℚ) ≤ b := Nat.cast_nonneg b
    have whole : (m : ℚ) = n + b := by exact_mod_cast split
    apply tail_inside p emin (value n exp) (value (n + 2) exp)
    · exact mul_lt_mul_of_pos_right (by push_cast; linarith) unit
    · exact mul_lt_mul_of_pos_right (by push_cast; linarith) unit
    · exact mul_lt_mul_of_pos_right (by rw [whole]; linarith) unit
    · exact mul_lt_mul_of_pos_right (by rw [whole]; push_cast; linarith) unit
    · intro j h few least
      exact even_apart p narrow (by omega) (by omega) few

include several narrow format in
theorem parse_hex_delivers {s : Bytes} {r : Reading} (read : readNumber .hex s = some r) (countable : r.Countable) :
    ∃ v, parseHex s p emin = some { nz := r.kept.length ≠ 0, value := some v, stop := r.stop } ∧
      Delivers p emin (r.exact r.cutExponent) v := by
  obtain ⟨radix, digits, places, nonempty, expNeg, expDigits, stop⟩ := read_number_fields r read
  obtain ⟨scan, scanned, holds⟩ := scan_mantissa_holds .hex Hex.push HexHolds
    (fun seenDot scan digits places d holds small => hex_push holds small) s
    { m := 0, exp := 0, any := false, sticky := false } ⟨rfl, rfl, rfl, rfl, fun _ mem => absurd mem not_mem_nil⟩
  rw [← digits, ← places] at holds
  have limit : r.limit = 16 := by rw [Reading.limit, radix]
  have kept : scan.m = natOf 16 r.kept := by rw [holds.m, Reading.kept, limit]
  have sticky : scan.sticky = r.dropped.any fun d => d ≠ 0 := by rw [holds.sticky, Reading.dropped, limit]
  have counter : scan.exp = int32 r.counter := by
    rw [holds.exp, Reading.counter, Reading.dropped, limit, radix, Radix.weight]
    rfl
  have exponent := exp_part_ahead 112 80 .hex (fun c => Iff.rfl) (mantissa .hex s).2.2
  rw [← expNeg, ← expDigits, ← stop] at exponent
  have cut : (if r.expNeg then -(cutFrom 0 r.expDigits : Int) else cutFrom 0 r.expDigits) = r.cutExponent := rfl
  have margin : r.margin = 63 := by rw [Reading.margin, radix]
  have sum_low := countable.sum_low
  have sum_high := countable.sum_high
  rw [margin] at sum_high
  have total : int32 (scan.exp + r.cutExponent) = r.counter + r.cutExponent := by
    rw [counter, int32_add]
    exact int32_small sum_low (by omega)
  have any : scan.any = true := by
    rw [holds.any]
    simp [nonempty]
  have below := dropped_small r (by rw [radix]; exact holds.each)
  have value := exact_split r r.cutExponent
  have dropped := dropped_any r
  have full := kept_full r
  have short := nat_of_lt 16 r.kept fun d mem => holds.each d (significant_subset r.digits d (mem_of_mem_take mem))
  have few : r.kept.length ≤ 16 := limit ▸ length_take_le _ _
  rw [radix] at below value dropped
  rw [limit] at full
  simp only [Radix.base, Radix.step] at below value dropped
  push_cast at value
  have power : (0 : ℚ) < 16 ^ r.dropped.length := by positivity
  have fraction : (natOf 16 r.dropped : ℚ) / 16 ^ r.dropped.length < 1 := by
    rw [div_lt_one power]
    exact_mod_cast below
  have fraction₀ : 0 ≤ (natOf 16 r.dropped : ℚ) / 16 ^ r.dropped.length := by positivity
  have some_dropped : (r.dropped.any fun d => d ≠ 0) = true ↔ (natOf 16 r.dropped : ℚ) / 16 ^ r.dropped.length ≠ 0 := by
    rw [dropped, Ne, Ne, div_eq_zero_iff, or_iff_left power.ne', Nat.cast_eq_zero]
  have filled : (r.dropped.any fun d => d ≠ 0) = true → r.kept.length = 16 := by
    intro more
    apply full
    intro none
    rw [none] at more
    cases more
  have significand : (if scan.sticky then scan.m ||| 1 else scan.m) =
      sticked (natOf 16 r.kept) (r.dropped.any fun d => d ≠ 0) := by rw [kept, sticky, sticked]
  unfold parseHex
  change scanMantissa hexDigit Hex.push s false _ = _ at scanned
  simp only [scanned, any, Bool.true_eq_false, if_false, exponent, cut, total, significand]
  generalize (r.dropped.any fun d => decide (d ≠ 0)) = more at some_dropped filled
  cases shape : r.kept with
  | nil =>
    have clear : more = false := by
      cases more with
      | false => rfl
      | true =>
        have length := filled rfl
        rw [shape] at length
        cases length
    have zero : (natOf 16 r.dropped : ℚ) / 16 ^ r.dropped.length = 0 := by
      by_contra nonzero
      rw [some_dropped.mpr nonzero] at clear
      cases clear
    have nothing : r.exact r.cutExponent = 0 := by
      rw [value, zero, shape]
      simp [natOf]
    refine ⟨0, ?_, zero_delivers p emin _ several nothing.ge (by rw [nothing]; exact (unit_pos _).le)⟩
    rw [clear]
    rfl
  | cons d rest =>
    have lead := nat_of_ge 16 d rest (kept_lead r d rest shape)
    rw [← shape] at lead
    have pos : 0 < natOf 16 r.kept := Nat.lt_of_lt_of_le (Nat.pow_pos (by decide)) lead
    have length : r.kept.length = rest.length + 1 := by rw [shape, length_cons]
    have word : natOf 16 r.kept < 2 ^ 64 := by
      apply lt_of_lt_of_le short
      rw [show (2 : Nat) ^ 64 = 16 ^ 16 by decide]
      exact Nat.pow_le_pow_right (by decide) few
    have wide : sticked (natOf 16 r.kept) more < 2 ^ 64 ∧ 0 < sticked (natOf 16 r.kept) more := by
      cases more with
      | false => exact ⟨word, pos⟩
      | true =>
        rw [sticked_one]
        omega
    have size : (sticked (natOf 16 r.kept) more).size ≤ 64 := Nat.size_le.mpr wide.1
    have some_bit : 0 < (sticked (natOf 16 r.kept) more).size := Nat.size_pos.mpr wide.2
    have one : Nat.size 1 = 1 := by decide
    have large : more = true → 2 ^ 60 ≤ natOf 16 r.kept := by
      intro dropping
      rw [show rest.length = 15 by have := filled dropping; omega] at lead
      exact lead
    have tail := hex_tail p emin narrow (r.counter + r.cutExponent) fraction₀ fraction some_dropped
      large
    have base : quotient (sticked (natOf 16 r.kept) more) 1 (r.counter + r.cutExponent) =
        Rounding.value (sticked (natOf 16 r.kept) more) (r.counter + r.cutExponent) := by
      rw [quotient, Nat.cast_one, div_one, Rounding.value]
    rw [← value, ← base] at tail
    obtain ⟨v, rounded, delivered⟩ := bn_scale_round_delivers
      wide.2 (by decide) (by omega) (by rw [one]; decide) several (by omega) format
      (by rw [one]; omega) (by rw [one]; omega) tail
    refine ⟨v, ?_, delivered⟩
    rw [← shape, if_neg (ne_of_gt wide.2), bn_setu64_spec _ wide.1, bn_setu32_spec 1 (by decide), rounded]
    simp [ne_of_gt wide.2, length]

end

variable (kind : Kind)
theorem kind_format : 2 ≤ kind.p ∧ kind.p ≤ 53 ∧ -1074 ≤ kind.emin ∧ kind.emin + kind.p ≤ 1024 := by
  cases kind <;> decide

theorem parse_hex_none {s : Bytes} {p : Nat} {emin : Int} (none_read : readNumber .hex s = none) : parseHex s p emin = none := by
  obtain ⟨scan, scanned, holds⟩ := scan_mantissa_holds .hex Hex.push HexHolds
    (fun seenDot scan digits places d holds small => hex_push holds small) s
    { m := 0, exp := 0, any := false, sticky := false } ⟨rfl, rfl, rfl, rfl, fun _ mem => absurd mem List.not_mem_nil⟩
  have empty : (mantissa .hex s).1 = [] := by
    unfold readNumber at none_read
    generalize mantissa .hex s = found at none_read ⊢
    obtain ⟨digits, places, rest⟩ := found
    by_contra nonempty
    simp only [if_neg nonempty] at none_read
    cases none_read
  have any : scan.any = false := by rw [holds.any, empty]; rfl
  unfold parseHex
  change scanMantissa hexDigit Hex.push s false _ = _ at scanned
  simp only [scanned, any, if_true]

theorem zero_before_x {s rest : Bytes} (ahead : hexAhead s = some rest) :
    readNumber .dec s = some { radix := .dec, digits := [0], places := 0, expNeg := false, expDigits := [], stop := s.drop 1 } := by
  unfold hexAhead at ahead
  split at ahead
  · rename_i zero x tail
    split at ahead
    · rename_i shape
      obtain ⟨first, second⟩ := shape
      have digit : decDigit 48 = some 0 := by decide
      rcases second with lower | upper
      · subst first lower
        have none : decDigit 120 = none := by decide
        simp [readNumber, mantissa, digitsAhead, Radix.digit, digit, none, exponentAhead, Radix.marks]
      · subst first upper
        have none : decDigit 88 = none := by decide
        simp [readNumber, mantissa, digitsAhead, Radix.digit, digit, none, exponentAhead, Radix.marks]
    · cases ahead
  · cases ahead

theorem parse_number_delivers {s : Bytes} {r : Reading} (read : readUnsigned s = some r) (countable : r.Countable) :
    ∃ nz v, parseNumber s kind.p kind.emin = some { nz := nz, value := some v, stop := r.stop } ∧
      Delivers kind.p kind.emin (r.exact r.cutExponent) v := by
  obtain ⟨several, narrow, deep, format⟩ := kind_format kind
  unfold readUnsigned at read
  unfold parseNumber
  cases ahead : hexAhead s with
  | none =>
    rw [ahead, Option.bind_none] at read
    obtain ⟨v, parsed, delivered⟩ := parse_dec_delivers kind.p kind.emin several narrow deep format s r read countable
    exact ⟨_, v, parsed, delivered⟩
  | some rest =>
    rw [ahead, Option.bind_some] at read
    cases hex : readNumber .hex rest with
    | some found =>
      rw [hex] at read
      injection read with same
      rw [same] at hex
      obtain ⟨v, parsed, delivered⟩ := parse_hex_delivers kind.p kind.emin several narrow format hex countable
      exact ⟨decide (r.kept.length ≠ 0), v, by simp only [parsed], delivered⟩
    | none =>
      rw [hex] at read
      simp only [zero_before_x ahead, Option.some.injEq] at read
      refine ⟨false, 0, by simp only [parse_hex_none hex, ← read], ?_⟩
      have nothing : r.exact r.cutExponent = 0 := by
        rw [← read]
        simp [Reading.exact, Reading.significand, natOf]
      exact zero_delivers _ _ _ several nothing.ge (by rw [nothing]; exact (unit_pos _).le)

-- The string converts to the nearest number, infinite with a range error exactly if that
-- exceeds the largest one.
def Converts (kind : Kind) (s : Bytes) (neg : Bool) (stop : Bytes) (x : ℚ) : Prop :=
  ∃ q g result, NearestEven kind.p kind.emin x q g ∧ strtox kind s = some result ∧ result.neg = neg ∧ result.stop = stop ∧
    result.number = .magnitude (if value q g ≤ kind.max then (value q g : ℚ) else ⊤) ∧
    ((result.erange = true ∧ result.number = .magnitude ⊤) ↔ kind.max < value q g)

def Kind.emax : Kind → Int
  | .float => 104
  | .double => 971

theorem kind_max : kind.max = value (2 ^ kind.p - 1) kind.emax := by cases kind <;> rfl

theorem kind_max_small : kind.max < 2 ^ 1024 := by
  rw [kind_max]
  apply (value_lt _ kind.p _ (Nat.sub_lt (Nat.two_pow_pos _) (by decide))).trans_le
  rw [← zpow_natCast]
  exact zpow_le_zpow_right₀ (by norm_num) (by cases kind <;> decide)

theorem range_check_spec (nz : Bool) (q : Nat) (g : Int) :
    (rangeCheck kind nz (scalbn q g)).2 = (if value q g ≤ kind.max then ((value q g : ℚ) : WithTop ℚ) else ⊤) ∧
      (((rangeCheck kind nz (scalbn q g)).1 = true ∧ (rangeCheck kind nz (scalbn q g)).2 = ⊤) ↔ kind.max < value q g) := by
  have bound := kind_max_small kind
  have overs : (kind.max : WithTop ℚ) < scalbn q g ↔ kind.max < value q g := by
    unfold scalbn
    split
    · exact WithTop.coe_lt_coe
    · rename_i large
      exact iff_of_true (WithTop.coe_lt_top _) (bound.trans_le (not_lt.mp large))
  unfold rangeCheck
  by_cases large : kind.max < value q g
  · rw [if_pos (overs.mpr large), if_neg (not_le.mpr large)]
    simp [large]
  · have inside : value q g < 2 ^ 1024 := (not_lt.mp large).trans_lt bound
    have plain : scalbn q g = ((value q g : ℚ) : WithTop ℚ) := by rw [scalbn, if_pos inside]
    rw [if_neg (fun above => large (overs.mp above)), if_pos (not_lt.mp large), plain]
    constructor
    · split <;> rfl
    · constructor
      · intro both
        split at both <;> exact absurd both.2 (WithTop.coe_ne_top)
      · exact fun above => absurd above large

theorem converts_cut (s : Bytes) (neg : Bool) (r : Reading) (read : subject s = some (neg, r))
    (countable : r.Countable) : Converts kind s neg r.stop (r.exact r.cutExponent) := by
  unfold subject at read
  unfold Converts strtox
  generalize sign (s.dropWhile isspace) = signed at read ⊢
  obtain ⟨minus, tail⟩ := signed
  simp only at read ⊢
  split at read
  · cases read
  · rename_i numeric
    rw [not_or] at numeric
    rw [if_neg numeric.1, if_neg numeric.2]
    cases found : readUnsigned tail with
    | none =>
      rw [found] at read
      cases read
    | some number =>
      rw [found, Option.map_some, Option.some.injEq, Prod.mk.injEq] at read
      obtain ⟨rfl, rfl⟩ := read
      obtain ⟨nz, v, parsed, q, g, nearest, shape⟩ := parse_number_delivers kind found countable
      obtain ⟨shown, reported⟩ := range_check_spec kind nz q g
      rw [parsed]
      simp only
      refine ⟨q, g, _, nearest, rfl, rfl, rfl, ?_, ?_⟩
      · simp only [shape, shown]
      · simp only [shape, Number.magnitude.injEq]
        exact reported

end Spicule.Strtod
