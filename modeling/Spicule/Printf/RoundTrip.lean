import Spicule.Printf.Emit
import Spicule.Strtod.Cut

namespace Spicule.Printf
open List
open Decimal (digit)
open Numeral Rounding
open Strtod (Converts Kind Reading Radix digitsAhead exponentAhead readNumber readUnsigned mantissa subject
  digits_ahead_written converts_cut)

def printedReading (prec n : Nat) (x : Int) : Reading :=
  { radix := .dec, digits := numeral 10 (prec + 1) n, places := prec, expNeg := decide (x < 0),
    expDigits := numeral 10 2 x.natAbs, stop := [] }

variable (x : Int)
theorem exponent_text_read :
    exponentAhead .dec (exponentText false x) = (decide (x < 0), numeral 10 2 x.natAbs, []) := by
  have ahead : digitsAhead .dec (chars (numeral 10 2 x.natAbs)) = (numeral 10 2 x.natAbs, []) := by
    have read := digits_ahead_written (numeral 10 2 x.natAbs) [] fun d => numeral_lt 10 2 _ (by norm_num)
    rw [append_nil, digitsAhead, append_nil] at read
    exact read
  have nonempty : numeral 10 2 x.natAbs ≠ [] := by
    apply ne_nil_of_length_pos
    rw [numeral_length]
    omega
  have signed : Strtol.sign ((if x < 0 then 45 else 43) :: chars (numeral 10 2 x.natAbs)) =
      (decide (x < 0), chars (numeral 10 2 x.natAbs)) := by
    by_cases negative : x < 0 <;> simp [Strtol.sign, negative]
  have marks : Radix.marks .dec 101 := Or.inl rfl
  unfold exponentText exponentAhead
  simp only [Bool.false_eq_true, if_false, marks, if_true, signed, ahead, if_neg nonempty]

variable (prec n : Nat)
theorem numeral_cons : ∃ first rest, numeral 10 (prec + 1) n = first :: rest := by
  apply exists_cons_of_ne_nil
  apply ne_nil_of_length_pos
  rw [numeral_length]
  omega

theorem printed_mantissa (pos : 0 < prec) (small : n < 10 ^ (prec + 1)) :
    mantissa .dec (scientificText prec false false n x) = (numeral 10 (prec + 1) n, prec, exponentText false x) := by
  obtain ⟨first, rest, shape⟩ := numeral_cons prec n
  have each : ∀ d ∈ first :: rest, d < 10 := shape ▸ fun d => numeral_lt 10 (prec + 1) n (by norm_num)
  have length : rest.length = prec := by
    have total := numeral_length 10 (prec + 1) n
    have few := Limbs.digits_length_le 10 n (prec + 1) (by norm_num) small
    rw [shape, length_cons] at total
    omega
  have stop : digitsAhead .dec (exponentText false x) = ([], exponentText false x) := by
    have none : Radix.digit .dec 101 = none := by decide
    unfold exponentText
    simp only [Bool.false_eq_true, if_false, digitsAhead, none]
  have dot : digitsAhead .dec (46 :: (chars rest ++ exponentText false x)) =
      ([], 46 :: (chars rest ++ exponentText false x)) := by
    have none : Radix.digit .dec 46 = none := by decide
    simp only [digitsAhead, none]
  have front := digits_ahead_written [first] (46 :: (chars rest ++ exponentText false x)) fun d mem =>
    each d (by rw [mem_singleton.mp mem]; exact mem_cons_self)
  have back := digits_ahead_written rest (exponentText false x) (forall_mem_cons.mp each).2
  rw [dot, append_nil] at front
  rw [stop, append_nil] at back
  have text : scientificText prec false false n x =
      [first].map digit ++ 46 :: (chars rest ++ exponentText false x) := by
    unfold scientificText mantissaText point
    simp only [shape, if_pos (Or.inl pos), take_succ_cons, take_zero, drop_succ_cons, drop_zero]
    simp only [chars, append_assoc, cons_append, nil_append]
  rw [text, shape]
  unfold mantissa
  simp only [front, if_true]
  simp only [chars, back, length, singleton_append]

theorem digit_plain : ∀ d < 10, Ctype.isspace (digit d) = false ∧ digit d ≠ 43 ∧ digit d ≠ 45 ∧
    Ctype.tolower (digit d) ≠ 105 ∧ Ctype.tolower (digit d) ≠ 110 := by decide

def noFlags : Flags := ⟨false, false, false, false⟩

theorem printed_subject (v : UInt64) {prec n : Nat} (pos : 0 < prec) (small : n < 10 ^ (prec + 1)) :
    subject (signText noFlags v ++ scientificText prec false false n x) = some (signbit v, printedReading prec n x) := by
  have number : readNumber .dec (scientificText prec false false n x) = some (printedReading prec n x) := by
    obtain ⟨first, rest, shape⟩ := numeral_cons prec n
    have nonempty : numeral 10 (prec + 1) n ≠ [] := by
      rw [shape]
      exact cons_ne_nil _ _
    unfold readNumber printedReading
    simp only [printed_mantissa x prec n pos small, if_neg nonempty, exponent_text_read]
  obtain ⟨first, rest, shape⟩ := numeral_cons prec n
  have digit_first : first < 10 := numeral_lt 10 (prec + 1) n (by norm_num) (by rw [shape]; exact mem_cons_self)
  obtain ⟨space, plus, minus, inf, nan⟩ := digit_plain first digit_first
  obtain ⟨tail, text⟩ : ∃ tail, scientificText prec false false n x = digit first :: 46 :: tail := by
    unfold scientificText mantissaText point
    simp only [shape, if_pos (Or.inl pos), take_succ_cons, take_zero, chars, map_cons, map_nil]
    exact ⟨_, rfl⟩
  have plain : Strtod.hexAhead (scientificText prec false false n x) = none := by
    rw [text]
    unfold Strtod.hexAhead
    simp
  have unsigned : readUnsigned (scientificText prec false false n x) = some (printedReading prec n x) := by
    unfold readUnsigned
    simp only [plain, Option.bind_none, number]
  have signed : Strtol.sign ((signText noFlags v ++ scientificText prec false false n x).dropWhile Ctype.isspace) =
      (signbit v, scientificText prec false false n x) := by
    unfold signText
    by_cases negative : signbit v = true
    · have mark : Ctype.isspace 45 = false := by decide
      simp [negative, mark, Strtol.sign]
    · rw [text]
      simp [negative, noFlags, space, Strtol.sign, plus, minus]
  have infinity : Strtod.ciPrefix (scientificText prec false false n x) Strtod.infWord = false := by
    rw [text]
    simp [Strtod.infWord, Strtod.ciPrefix, inf]
  have number_not : Strtod.ciPrefix (scientificText prec false false n x) Strtod.nanWord = false := by
    rw [text]
    simp [Strtod.nanWord, Strtod.ciPrefix, nan]
  unfold subject
  simp only [signed, infinity, number_not, Bool.false_eq_true, or_self, if_false, unsigned, Option.map_some]

theorem printed_exponent : (printedReading prec n x).exponent = x := by
  unfold Reading.exponent Reading.signed printedReading
  simp only [nat_of_numeral, decide_eq_true_eq]
  split <;> omega

theorem printed_exact : (printedReading prec n x).exact (printedReading prec n x).exponent = n * 10 ^ (x - prec) := by
  have digits : (printedReading prec n x).significand = n := nat_of_numeral 10 (prec + 1) n
  unfold Reading.exact
  rw [digits, printed_exponent]
  change (n : ℚ) * 10 ^ (x - (1 : Nat) * (prec : Int)) = _
  rw [Nat.cast_one, one_mul]

theorem printed_cut (small : x.natAbs < 1000) :
    (printedReading prec n x).cutExponent = (printedReading prec n x).exponent := by
  apply Reading.cut_exponent_small
  change natOf 10 (numeral 10 2 x.natAbs) < 1000000
  rw [nat_of_numeral]
  omega

theorem printed_countable (most : prec ≤ intMax) (small : x.natAbs < 1000)
    (digits : (n = 0 ∧ x = 0) ∨ (10 ^ prec ≤ n ∧ n < 10 ^ (prec + 1))) : (printedReading prec n x).Countable := by
  have cut : (printedReading prec n x).cutExponent = x := by rw [printed_cut x prec n small, printed_exponent]
  have length : (significant (printedReading prec n x).digits).length = (Nat.digits 10 n).length := by
    have shape := significant_digits 10 (numeral 10 (prec + 1) n) (by norm_num)
      fun d => numeral_lt 10 (prec + 1) n (by norm_num)
    change (significant (numeral 10 (prec + 1) n)).length = _
    rw [shape, nat_of_numeral, length_reverse]
  have dropped : (printedReading prec n x).dropped.length = (Nat.digits 10 n).length - 800 := by
    unfold Reading.dropped
    rw [length_drop, length]
    rfl
  have margin : (printedReading prec n x).margin = min 800 (Nat.digits 10 n).length := by
    change (printedReading prec n x).kept.length = _
    unfold Reading.kept
    rw [length_take, length]
    rfl
  have counter : (printedReading prec n x).counter = ((Nat.digits 10 n).length - 800 : Nat) - (prec : Int) := by
    unfold Reading.counter
    rw [dropped]
    change ((1 : Nat) : Int) * _ = _
    rw [Nat.cast_one, one_mul]
    rfl
  have count : (Nat.digits 10 n).length = 0 ∧ x = 0 ∨ (Nat.digits 10 n).length = prec + 1 := by
    rcases digits with ⟨rfl, zero⟩ | ⟨low, high⟩
    · exact Or.inl ⟨rfl, zero⟩
    · right
      have upper := Limbs.digits_length_le 10 n (prec + 1) (by norm_num) high
      have lower : prec < (Nat.digits 10 n).length := (Nat.lt_digits_length_iff (by norm_num) n).mpr low
      omega
  unfold intMax at most
  rcases count with ⟨none, zero⟩ | full <;> exact ⟨by omega, by omega, by omega, by omega⟩

theorem printed_nearest {q n : Nat} {g : Int} (enough : 16 ≤ prec) (canonical : Canonical 53 (-1074) q g)
    (printed : Scientific prec (value q g) n x) {q' : Nat} {g' : Int}
    (rounded : NearestEven 53 (-1074) (n * 10 ^ (x - prec)) q' g') : value q' g' = value q g := by
  rcases printed with ⟨zero, rfl, rfl⟩ | ⟨_, _, x₀, n₀, floor, _, nearest, same⟩
  · have upper := nearest_le_twice _ rounded (by simp)
    have lower := value_nonneg q' g'
    simp only [Nat.cast_zero, zero_mul, mul_zero] at upper
    rw [zero]
    linarith
  · by_contra differ
    have unit : (0 : ℚ) < 10 ^ (x₀ - prec) := zpow_pos (by norm_num) _
    have shown : (n : ℚ) * 10 ^ (x - prec) = n₀ * 10 ^ (x₀ - prec) := by
      rw [zpow_sub₀ ten_ne, zpow_sub₀ ten_ne, mul_div_assoc', mul_div_assoc', same]
    have scaled : value q g - n₀ * 10 ^ (x₀ - prec) = (value q g * 10 ^ ((prec : Int) - x₀) - n₀) * 10 ^ (x₀ - prec) := by
      rw [sub_mul, mul_assoc, ← zpow_add₀ ten_ne, sub_add_sub_cancel, sub_self, zpow_zero, mul_one]
    have close : |value q g - n₀ * 10 ^ (x₀ - prec)| ≤ 1 / 2 * 10 ^ (x₀ - prec) := by
      rw [scaled, abs_mul, abs_of_pos unit]
      exact mul_le_mul_of_nonneg_right nearest.near unit.le
    have fine : (10 : ℚ) ^ (x₀ - prec) ≤ value q g / 10 ^ 16 := by
      calc (10 : ℚ) ^ (x₀ - prec) ≤ 10 ^ (x₀ - 16) := zpow_le_zpow_right₀ (by norm_num) (by omega)
        _ = 10 ^ x₀ / 10 ^ 16 := zpow_sub₀ ten_ne _ _
        _ ≤ value q g / 10 ^ 16 := div_le_div_of_nonneg_right floor (by positivity)
    have nearer := rounded.nearest q g canonical
    rw [shown] at nearer
    have apart := canonical_apart q' g' canonical rounded.canonical (by norm_num) differ
    have distance : |value q' g' - value q g| ≤ 10 ^ (x₀ - prec) := by
      calc |value q' g' - value q g|
          ≤ |value q' g' - n₀ * 10 ^ (x₀ - prec)| + |n₀ * 10 ^ (x₀ - prec) - value q g| := abs_sub_le _ _ _
        _ = |n₀ * 10 ^ (x₀ - prec) - value q' g'| + |n₀ * 10 ^ (x₀ - prec) - value q g| := by
            rw [abs_sub_comm (value q' g')]
        _ ≤ 10 ^ (x₀ - prec) := by
            rw [abs_sub_comm] at close
            linarith
    linarith

theorem printed_exponent_small {q n : Nat} {g : Int} (canonical : Canonical 53 (-1074) q g) (high : g ≤ 971)
    (printed : Scientific prec (value q g) n x) : x.natAbs < 1000 := by
  rcases printed with ⟨_, _, rfl⟩ | ⟨low, below, x₀, n₀, floor, ceiling, nearest, same⟩
  · norm_num
  · have pos : 0 < value q g := (zpow_pos (by norm_num) _).trans_le floor
    have some_bits : 0 < q := by
      by_contra none
      rw [Nat.eq_zero_of_not_pos none] at pos
      simp [value] at pos
    have first := (tiny_reach g some_bits canonical.least).trans_lt ceiling
    have last := floor.trans_lt (huge_reach g canonical.fits high)
    have order := (zpow_lt_zpow_iff_right₀ (by norm_num : (1 : ℚ) < 10)).mp first
    have order' := (zpow_lt_zpow_iff_right₀ (by norm_num : (1 : ℚ) < 10)).mp last
    have scale : (0 : ℚ) < 10 ^ ((prec : Int) - x₀) := zpow_pos (by norm_num) _
    have one : (1 : ℚ) ≤ 10 ^ (prec : Int) := one_le_zpow₀ (by norm_num) (by omega)
    have floor' : (10 : ℚ) ^ (prec : Int) ≤ value q g * 10 ^ ((prec : Int) - x₀) := by
      have product := mul_le_mul_of_nonneg_right floor scale.le
      rwa [← zpow_add₀ ten_ne, add_sub_cancel] at product
    have ceiling' : value q g * 10 ^ ((prec : Int) - x₀) < 10 ^ (prec : Int) * 10 := by
      have product := mul_lt_mul_of_pos_right ceiling scale
      rwa [← zpow_add₀ ten_ne, show x₀ + 1 + ((prec : Int) - x₀) = prec + 1 by ring, zpow_add_one₀ ten_ne] at product
    have near := abs_le.mp nearest.near
    have low' : (10 : ℚ) ^ (prec : Int) ≤ n := by exact_mod_cast low
    have below' : (n : ℚ) < 10 ^ (prec : Int) * 10 := by
      rw [zpow_natCast]
      exact_mod_cast below
    have unit := zpow_pos (show (0 : ℚ) < 10 by norm_num) x
    have unit' := zpow_pos (show (0 : ℚ) < 10 by norm_num) x₀
    have reach : (10 : ℚ) ^ (prec + x) < 10 ^ (prec + x₀ + 2) := by
      rw [zpow_add₀ ten_ne, zpow_add₀ ten_ne, zpow_add₀ ten_ne]
      calc (10 : ℚ) ^ (prec : Int) * 10 ^ x ≤ n * 10 ^ x := mul_le_mul_of_nonneg_right low' unit.le
        _ = n₀ * 10 ^ x₀ := same
        _ < 10 ^ (prec : Int) * 100 * 10 ^ x₀ := mul_lt_mul_of_pos_right (by linarith) unit'
        _ = 10 ^ (prec : Int) * 10 ^ x₀ * 10 ^ (2 : Int) := by norm_num; ring
    have reach' : (10 : ℚ) ^ (prec + x₀) < 10 ^ (prec + x + 2) := by
      rw [zpow_add₀ ten_ne, zpow_add₀ ten_ne, zpow_add₀ ten_ne]
      calc (10 : ℚ) ^ (prec : Int) * 10 ^ x₀ ≤ 2 * n₀ * 10 ^ x₀ := mul_le_mul_of_nonneg_right (by linarith) unit'.le
        _ = 2 * (n * 10 ^ x) := by rw [same]; ring
        _ = 2 * n * 10 ^ x := by ring
        _ < 10 ^ (prec : Int) * 100 * 10 ^ x := mul_lt_mul_of_pos_right (by linarith) unit
        _ = 10 ^ (prec : Int) * 10 ^ x * 10 ^ (2 : Int) := by norm_num; ring
    have above := (zpow_lt_zpow_iff_right₀ (by norm_num : (1 : ℚ) < 10)).mp reach
    have under := (zpow_lt_zpow_iff_right₀ (by norm_num : (1 : ℚ) < 10)).mp reach'
    omega

theorem magnitude_small (v : UInt64) (finite : Finite v) : magnitude v ≤ Kind.max .double := by
  obtain ⟨number, canonical, high⟩ := significand_spec v finite
  rw [number, Strtod.kind_max]
  have top : Canonical 53 (-1074) (2 ^ 53 - 1) 971 := ⟨by norm_num, by norm_num, Or.inl (by norm_num)⟩
  rcases canonical_gap (2 ^ 53 - 1) _ 971 _ top canonical (by norm_num) with below | above
  · exact below
  · exfalso
    have limit := value_lt (significand v).1.toNat 53 (significand v).2 canonical.fits
    have far : (2 : ℚ) ^ ((significand v).2 + (53 : Nat)) ≤ 2 ^ (1024 : Int) :=
      zpow_le_zpow_right₀ (by norm_num) (by push_cast; omega)
    have next : value (2 ^ 53 - 1 + 1) 971 = 2 ^ (1024 : Int) := by
      unfold value
      rw [show ((2 ^ 53 - 1 + 1 : Nat) : ℚ) = 2 ^ (53 : Int) by norm_num, ← zpow_add₀ (by norm_num)]
      rfl
    rw [next] at above
    exact absurd (above.trans_lt (limit.trans_le far)) (lt_irrefl _)

theorem printf_strtod_round_trip (sk : Sink) (v : UInt64) (finite : Finite v) (prec : Nat) (enough : 16 ≤ prec)
    (int : prec ≤ intMax) :
    ∃ text sk', FloatText .e false false prec (magnitude v) text ∧
      emitFloat sk v .e false prec false noFlags 0 = some sk' ∧ sk.Emits (signText noFlags v ++ text) sk' ∧
      ∃ result, Strtod.strtox .double (signText noFlags v ++ text) = some result ∧ result.neg = signbit v ∧ result.stop = [] ∧
        result.number = .magnitude (magnitude v : ℚ) := by
  obtain ⟨body, ran, ordinary, inside, shape⟩ :=
    float_body_text (fabs v) (fabs_finite v finite) (Or.inr rfl) false false prec
  obtain ⟨sk', emitted, gives⟩ := emit_float_body sk noFlags 0 ran ordinary inside (Or.inr rfl)
  obtain ⟨number, canonical, high⟩ := significand_spec v finite
  have places : asked prec = prec := by
    unfold asked
    rw [if_neg (by omega), Int.toNat_natCast]
  have field : layout noFlags 0 (signText noFlags v) body.whole = signText noFlags v ++ body.whole := by
    simp [layout, noFlags]
  rw [places, fabs_magnitude] at shape
  obtain ⟨n, x, printed, text⟩ := shape
  have whole : FloatText .e false false prec (magnitude v) body.whole := ⟨n, x, printed, text⟩
  rw [number] at printed
  rw [text] at whole
  rw [field, text] at gives
  have small := printed_exponent_small x prec canonical high printed
  have digits : (n = 0 ∧ x = 0) ∨ (10 ^ prec ≤ n ∧ n < 10 ^ (prec + 1)) := by
    rcases printed with ⟨_, zero, none⟩ | ⟨low, below, _⟩
    · exact Or.inl ⟨zero, none⟩
    · exact Or.inr ⟨low, below⟩
  have bound : n < 10 ^ (prec + 1) := by
    rcases digits with ⟨zero, _⟩ | ⟨_, below⟩
    · rw [zero]
      exact Nat.pow_pos (by norm_num)
    · exact below
  have read := printed_subject x v (by omega) bound
  have countable := printed_countable x prec n int small digits
  obtain ⟨q, g, result, rounded, converted, neg, stop, shown, _⟩ := converts_cut .double _ _ _ read countable
  rw [printed_cut x prec n small, printed_exact] at rounded
  have same := printed_nearest x prec enough canonical printed rounded
  refine ⟨_, sk', whole, emitted, gives, result, converted, neg, stop, ?_⟩
  rw [shown, same, ← number, if_pos (magnitude_small v finite)]

theorem printf_strtod_least :
    ∃ text sk', FloatText .e false false 16 (magnitude 0x8000000000000001) text ∧
      emitFloat ⟨[], none, false, 0, false, false, false⟩ 0x8000000000000001 .e false (16 : Nat) false noFlags 0 = some sk' ∧
      Sink.Emits ⟨[], none, false, 0, false, false, false⟩ (signText noFlags 0x8000000000000001 ++ text) sk' ∧
      ∃ result, Strtod.strtox .double (signText noFlags 0x8000000000000001 ++ text) = some result ∧
        result.neg = signbit 0x8000000000000001 ∧ result.stop = [] ∧
        result.number = .magnitude (magnitude 0x8000000000000001 : ℚ) :=
  printf_strtod_round_trip ⟨[], none, false, 0, false, false, false⟩ 0x8000000000000001 (by unfold Finite; decide) 16
    (by norm_num) (by decide)

end Spicule.Printf
