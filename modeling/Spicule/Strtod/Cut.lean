import Spicule.Strtod.Exact

-- An exponent stops growing at six digits: when that changes the result, and where it does.
namespace Spicule.Strtod
open List Option Nat Numeral Rounding
open Strtol (Bytes)

variable (e : Nat) (digits : List Nat)
theorem cut_from_stays (full : 100000 ≤ e) : cutFrom e digits = e := by
  unfold cutFrom
  induction digits with
  | nil => rfl
  | cons d rest ih =>
    rw [foldl_cons, if_neg (by omega)]
    exact ih

variable (d : Nat) (rest : List Nat)
theorem cut_from_cons (room : e < 100000) : cutFrom e (d :: rest) = cutFrom (e * 10 + d) rest := by
  unfold cutFrom
  rw [foldl_cons, if_pos room]

theorem continued_cons :
    e * 10 ^ (d :: rest).length + natOf 10 (d :: rest) = (e * 10 + d) * 10 ^ rest.length + natOf 10 rest := by
  rw [nat_of_cons, length_cons, pow_succ]
  ring

theorem continued_ge : e * 10 ≤ e * 10 ^ (d :: rest).length + natOf 10 (d :: rest) := by
  have grown : e * 10 ≤ e * 10 ^ (d :: rest).length := mul_le_mul_left e (le_self_pow (succ_ne_zero _) 10)
  omega

theorem cut_from_small (small : e * 10 ^ digits.length + natOf 10 digits < 1000000) :
    cutFrom e digits = e * 10 ^ digits.length + natOf 10 digits := by
  induction digits generalizing e with
  | nil => simp [cutFrom, natOf]
  | cons d rest ih =>
    have grown := continued_ge e d rest
    rw [continued_cons] at small ⊢
    rw [cut_from_cons e d rest (by rw [continued_cons] at grown; omega)]
    exact ih _ small

theorem cut_from_large (each : ∀ d ∈ digits, d < 10) (short : e < 1000000)
    (large : 1000000 ≤ e * 10 ^ digits.length + natOf 10 digits) :
    100000 ≤ cutFrom e digits ∧ cutFrom e digits * 10 ≤ e * 10 ^ digits.length + natOf 10 digits := by
  induction digits generalizing e with
  | nil =>
    simp only [length_nil, pow_zero, mul_one, natOf, foldl_nil] at large
    omega
  | cons d rest ih =>
    have grown := continued_ge e d rest
    by_cases room : e < 100000
    · rw [continued_cons] at large ⊢
      rw [cut_from_cons e d rest room]
      have digit := each d mem_cons_self
      exact ih _ (forall_mem_cons.mp each).2 (by omega) large
    · rw [cut_from_stays e _ (by omega)]
      exact ⟨by omega, grown⟩

namespace Reading

variable (r : Reading)
theorem cut_exponent_small (small : natOf 10 r.expDigits < 1000000) : r.cutExponent = r.exponent := by
  have same := cut_from_small 0 r.expDigits (by omega)
  unfold cutExponent exponent
  rw [same, zero_mul, zero_add]

theorem cut_exponent_far (each : ∀ d ∈ r.expDigits, d < 10) (large : 1000000 ≤ natOf 10 r.expDigits) :
    r.cutExponent + 2 ≤ r.exponent ∨ r.exponent + 2 ≤ r.cutExponent := by
  obtain ⟨reached, ratio⟩ := cut_from_large 0 r.expDigits each (by omega) (by omega)
  unfold cutExponent exponent signed
  split <;> omega

theorem exact_nonneg (e : Int) : 0 ≤ r.exact e := by
  have step : 0 < r.radix.step := by cases r.radix <;> norm_num [Radix.step]
  exact mul_nonneg (cast_nonneg _) (zpow_pos step _).le

theorem exact_apart (e f : Int) (apart : e + 2 ≤ f) : 4 * r.exact e ≤ r.exact f := by
  have step : 2 ≤ r.radix.step := by cases r.radix <;> norm_num [Radix.step]
  have power : (4 : ℚ) * r.radix.step ^ (e - r.radix.weight * r.places) ≤ r.radix.step ^ (f - r.radix.weight * r.places) := by
    calc (4 : ℚ) * r.radix.step ^ (e - r.radix.weight * r.places)
        ≤ r.radix.step ^ (2 : Int) * r.radix.step ^ (e - r.radix.weight * r.places) := by
          apply mul_le_mul_of_nonneg_right _ (zpow_pos (by linarith) _).le
          rw [zpow_ofNat]
          nlinarith
      _ = r.radix.step ^ (2 + (e - r.radix.weight * r.places)) := (zpow_add₀ (by linarith) _ _).symm
      _ ≤ r.radix.step ^ (f - r.radix.weight * r.places) := zpow_le_zpow_right₀ (by linarith) (by omega)
  unfold exact
  calc (4 : ℚ) * (r.significand * r.radix.step ^ (e - r.radix.weight * r.places))
      = r.significand * (4 * r.radix.step ^ (e - r.radix.weight * r.places)) := by ring
    _ ≤ r.significand * r.radix.step ^ (f - r.radix.weight * r.places) :=
        mul_le_mul_of_nonneg_left power (cast_nonneg _)

theorem exact_zero (e : Int) (zero : r.significand = 0) : r.exact e = 0 := by
  unfold exact
  rw [zero, cast_zero, zero_mul]

end Reading

-- From here numbers round beyond the largest finite one, up to here to zero.
def Kind.overflows (kind : Kind) : ℚ := kind.max + 2 ^ kind.emax / 2

def Kind.vanishes (kind : Kind) : ℚ := 2 ^ kind.emin / 2

variable {kind : Kind} {x : ℚ} {q : Nat} {g : Int}
theorem over_iff (rounded : NearestEven kind.p kind.emin x q g) : kind.max < value q g ↔ kind.overflows ≤ x := by
  have largest : Canonical kind.p kind.emin (2 ^ kind.p - 1) kind.emax := by
    cases kind
    · exact ⟨by decide, by decide, Or.inl (by decide)⟩
    · exact ⟨by decide, by decide, Or.inl (by decide)⟩
  have odd : (2 ^ kind.p - 1) % 2 = 1 := by cases kind <;> decide
  unfold Kind.overflows
  rw [kind_max]
  exact beyond_iff_odd rounded largest (by cases kind <;> decide) odd

theorem zero_iff (rounded : NearestEven kind.p kind.emin x q g) : value q g = 0 ↔ x ≤ kind.vanishes := by
  have zero : Canonical kind.p kind.emin 0 kind.emin := ⟨Nat.two_pow_pos _, le_refl _, Or.inr rfl⟩
  have beyond := beyond_iff_even rounded zero (by cases kind <;> decide) rfl
  have origin : value 0 kind.emin = 0 := by simp [value]
  rw [origin, zero_add] at beyond
  have nonneg := value_nonneg q g
  constructor
  · intro equal
    exact not_lt.mp fun above => (beyond.mpr above).ne' equal
  · intro low
    exact le_antisymm (not_lt.mp fun above => (beyond.mp above).not_ge low) nonneg

-- The cut exponent does no harm: it is short, or it does not matter.
def Harmless (kind : Kind) (r : Reading) : Prop :=
  natOf 10 r.expDigits < 1000000 ∨ r.significand = 0 ∨
    (kind.overflows ≤ r.exact r.exponent ∧ kind.overflows ≤ r.exact r.cutExponent) ∨
    (r.exact r.exponent ≤ kind.vanishes ∧ r.exact r.cutExponent ≤ kind.vanishes)

theorem rounded_alike {y : ℚ} {q' : Nat} {g' : Int} (rounded : NearestEven kind.p kind.emin x q g)
    (rounded' : NearestEven kind.p kind.emin y q' g') (nonneg : 0 ≤ x) (apart : 4 * x ≤ y)
    (same : value q g = value q' g') : x ≤ kind.vanishes ∧ y ≤ kind.vanishes := by
  rcases (value_nonneg q g).eq_or_lt with zero | pos
  · exact ⟨(zero_iff rounded).mp zero.symm, (zero_iff rounded').mp (same.symm.trans zero.symm)⟩
  · have low := nearest_le_twice x rounded nonneg
    have high := lt_twice_nearest y rounded' (by cases kind <;> decide) (by rw [← same]; exact pos)
    rw [← same] at high
    linarith

theorem exponent_small {radix : Radix} {s : Bytes} {d : Nat} (mem : d ∈ (exponentAhead radix s).2.1) : d < 10 := by
  unfold exponentAhead at mem
  split at mem
  · cases mem
  · rename_i c q
    split at mem
    · generalize Strtol.sign q = signed at mem
      obtain ⟨neg, behind⟩ := signed
      simp only at mem
      split at mem
      · cases mem
      · exact ahead_small .dec behind d mem
    · cases mem

theorem subject_exponent {s : Bytes} {neg : Bool} {r : Reading} (read : subject s = some (neg, r)) (d : Nat)
    (mem : d ∈ r.expDigits) : d < 10 := by
  have number (radix : Radix) (t : Bytes) (found : readNumber radix t = some r) : d < 10 := by
    obtain ⟨_, _, _, _, _, digits, _⟩ := read_number_fields r found
    rw [digits] at mem
    exact exponent_small mem
  simp only [subject] at read
  split at read
  · cases read
  · obtain ⟨found, unsigned, same⟩ := map_eq_some_iff.mp read
    rw [Prod.mk.injEq] at same
    rw [same.2] at unsigned
    unfold readUnsigned at unsigned
    split at unsigned
    · rename_i hex
      rw [some.inj unsigned] at hex
      obtain ⟨rest, _, found⟩ := bind_eq_some_iff.mp hex
      exact number .hex rest found
    · exact number .dec _ unsigned

theorem strtox_converts_iff (kind : Kind) (s : Bytes) (neg : Bool) (r : Reading) (read : subject s = some (neg, r))
    (countable : r.Countable) : Converts kind s neg r.stop (r.exact r.exponent) ↔ Harmless kind r := by
  have cut := converts_cut kind s neg r read countable
  obtain ⟨q', g', result', rounded', ran', minus', rest', shown', reported'⟩ := cut
  constructor
  · rintro ⟨q, g, result, rounded, ran, _, _, shown, _⟩
    rw [ran', some.injEq] at ran
    rw [← ran, shown', Number.magnitude.injEq] at shown
    by_cases short : natOf 10 r.expDigits < 1000000
    · exact Or.inl short
    · refine Or.inr (Or.inr ?_)
      by_cases large : value q g ≤ kind.max
      · by_cases large' : value q' g' ≤ kind.max
        · rw [if_pos large, if_pos large', WithTop.coe_inj] at shown
          right
          rcases r.cut_exponent_far (subject_exponent read) (not_lt.mp short) with above | below
          · have alike := rounded_alike rounded' rounded (r.exact_nonneg _)
              (r.exact_apart _ _ above) shown
            exact ⟨alike.2, alike.1⟩
          · exact rounded_alike rounded rounded' (r.exact_nonneg _)
              (r.exact_apart _ _ below) shown.symm
        · rw [if_pos large, if_neg large'] at shown
          exact absurd shown WithTop.top_ne_coe
      · by_cases large' : value q' g' ≤ kind.max
        · rw [if_neg large, if_pos large'] at shown
          exact absurd shown WithTop.coe_ne_top
        · left
          exact ⟨(over_iff rounded).mp (not_le.mp large), (over_iff rounded').mp (not_le.mp large')⟩
  · have several : 2 ≤ kind.p := (kind_format kind).1
    rintro (short | zero | ⟨overs, over'⟩ | ⟨under, under'⟩)
    · rw [← r.cut_exponent_small short]
      exact ⟨q', g', result', rounded', ran', minus', rest', shown', reported'⟩
    · rw [r.exact_zero _ zero] at rounded' ⊢
      exact ⟨q', g', result', rounded', ran', minus', rest', shown', reported'⟩
    · obtain ⟨q, g, rounded⟩ := @nearest_exists kind.p kind.emin (r.exact r.exponent) (r.exact_nonneg _) several
      have large := (over_iff rounded).mpr overs
      have large' := (over_iff rounded').mpr over'
      refine ⟨q, g, result', rounded, ran', minus', rest', ?_, ?_⟩
      · rw [shown', if_neg large'.not_ge, if_neg large.not_ge]
      · exact iff_of_true (reported'.mpr large') large
    · obtain ⟨q, g, rounded⟩ := @nearest_exists kind.p kind.emin (r.exact r.exponent) (r.exact_nonneg _) several
      have none := (zero_iff rounded).mpr under
      have none' := (zero_iff rounded').mpr under'
      rw [none'] at shown' reported'
      exact ⟨q, g, result', rounded, ran', minus', rest', by rw [none]; exact shown', by rw [none]; exact reported'⟩

-- "15e-1"
theorem strtox_converts_fraction : Converts .double [49, 53, 101, 45, 49] false [] (3 / 2) := by
  have read : subject [49, 53, 101, 45, 49] =
      some (false, { radix := .dec, digits := [1, 5], places := 0, expNeg := true, expDigits := [1], stop := [] }) := rfl
  have countable : Reading.Countable
      { radix := .dec, digits := [1, 5], places := 0, expNeg := true, expDigits := [1], stop := [] } :=
    ⟨by decide, by decide, by decide, by decide⟩
  have harmless := (strtox_converts_iff .double _ false _ read countable).mpr (Or.inl (by decide))
  have number : Reading.exact
      { radix := .dec, digits := [1, 5], places := 0, expNeg := true, expDigits := [1], stop := [] } (-1) = 3 / 2 := by
    norm_num [Reading.exact, Reading.significand, natOf, Radix.base, Radix.step, Radix.weight]
  rw [← number]
  exact harmless

-- A one far behind the point, and an exponent that puts it in front: "0.", zeros, "1e1000001".
def farPoint (n : Nat) : Bytes := 48 :: 46 :: (List.replicate n 48 ++ [49, 101, 49, 48, 48, 48, 48, 48, 49])

def farReading (n : Nat) : Reading :=
  { radix := .dec, digits := 0 :: (List.replicate n 0 ++ [1]), places := n + 1,
    expNeg := false, expDigits := [1, 0, 0, 0, 0, 0, 1], stop := [] }

variable (n : Nat)
theorem subject_far_point : subject (farPoint n) = some (false, farReading n) := by
  have ahead := digits_ahead_written (List.replicate n 0) [49, 101, 49, 48, 48, 48, 48, 48, 49]
    fun d mem => by rw [eq_of_mem_replicate mem]; norm_num
  rw [map_replicate, show Decimal.digit 0 = 48 from rfl] at ahead
  have last : digitsAhead .dec [49, 101, 49, 48, 48, 48, 48, 48, 49] = ([1], [101, 49, 48, 48, 48, 48, 48, 49]) := by decide
  have exponent : exponentAhead .dec [101, 49, 48, 48, 48, 48, 48, 49] = (false, [1, 0, 0, 0, 0, 0, 1], []) := by decide
  have zero : Radix.digit .dec 48 = some 0 := by decide
  have point : Radix.digit .dec 46 = none := by decide
  have found : mantissa .dec (farPoint n) =
      (0 :: (List.replicate n 0 ++ [1]), n + 1, [101, 49, 48, 48, 48, 48, 48, 49]) := by
    rw [last] at ahead
    simp [mantissa, farPoint, digitsAhead, zero, point, ahead]
  have number : readNumber .dec (farPoint n) = some (farReading n) := by
    simp [readNumber, found, exponent, farReading]
  have plain : hexAhead (farPoint n) = none := by simp [hexAhead, farPoint]
  have unsigned : readUnsigned (farPoint n) = some (farReading n) := by
    simp only [readUnsigned, plain, bind_none, number]
  have bare : Strtol.sign ((farPoint n).dropWhile Ctype.isspace) = (false, farPoint n) := by
    have space : Ctype.isspace 48 = false := by decide
    simp [farPoint, space, Strtol.sign]
  have lower : Ctype.tolower 48 = 48 := by decide
  have inf : ciPrefix (farPoint n) infWord = false := by simp [farPoint, infWord, ciPrefix, lower]
  have nan : ciPrefix (farPoint n) nanWord = false := by simp [farPoint, nanWord, ciPrefix, lower]
  simp [subject, bare, inf, nan, unsigned]

theorem far_significant : significant (farReading n).digits = [1] := by
  have zeros : (List.replicate n 0 ++ [1]).dropWhile (· == 0) = [1] := by
    induction n with
    | zero => rfl
    | succ n ih =>
      rw [replicate_succ, cons_append, dropWhile_cons_of_pos (by rfl)]
      exact ih
  exact zeros

theorem far_significand : (farReading n).significand = 1 := by
  have value : natOf 10 (significant (farReading n).digits) = 1 := by rw [far_significant]; rfl
  rw [nat_of_significant] at value
  exact value

theorem far_countable {n : Nat} (short : n ≤ 1000000) : (farReading n).Countable := by
  have none : (farReading n).dropped = [] := by
    unfold Reading.dropped
    rw [far_significant]
    rfl
  have one : (farReading n).margin = 1 := by
    change (farReading n).kept.length = 1
    unfold Reading.kept
    rw [far_significant]
    rfl
  have counted : (farReading n).counter = -(n + 1 : Nat) := by
    unfold Reading.counter
    rw [none]
    simp only [farReading, Radix.weight, length_nil]
    omega
  have cut : (farReading n).cutExponent = 100000 := rfl
  exact ⟨by omega, by omega, by omega, by omega⟩

theorem tiny_power {n k : Nat} (below : k < n) : (10 : ℚ) ^ (-(n : Int)) ≤ 2 ^ (-(k : Int)) / 2 := by
  calc (10 : ℚ) ^ (-(n : Int)) ≤ 2 ^ (-(n : Int)) := by
        rw [zpow_neg, zpow_neg, zpow_natCast, zpow_natCast]
        exact inv_anti₀ (by positivity) (pow_le_pow_left₀ (by norm_num) (by norm_num) n)
    _ ≤ 2 ^ (-(k : Int) - 1) := zpow_le_zpow_right₀ (by norm_num) (by omega)
    _ = 2 ^ (-(k : Int)) / 2 := zpow_sub_one₀ (by norm_num) _

-- The number is one, the result zero.
theorem strtod_far_point : subject (farPoint 1000000) = some (false, farReading 1000000) ∧
    (farReading 1000000).Countable ∧ (farReading 1000000).exact (farReading 1000000).exponent = 1 ∧
    (∃ result, strtox .double (farPoint 1000000) = some result ∧ result.number = .magnitude 0) ∧
    ¬Converts .double (farPoint 1000000) false [] 1 := by
  have read := subject_far_point 1000000
  have countable := far_countable (le_refl _)
  have whole : (farReading 1000000).exact (farReading 1000000).exponent = 1 := by
    have level : (farReading 1000000).exponent - (1 : Nat) * (1000000 + 1 : Nat) = 0 := by decide
    unfold Reading.exact
    rw [far_significand]
    change ((1 : Nat) : ℚ) * 10 ^ ((farReading 1000000).exponent - (1 : Nat) * (1000000 + 1 : Nat)) = 1
    rw [level]
    norm_num
  have tiny : (farReading 1000000).exact (farReading 1000000).cutExponent ≤ Kind.vanishes .double := by
    have level : (farReading 1000000).cutExponent - (1 : Nat) * (1000000 + 1 : Nat) = -900001 := by decide
    unfold Reading.exact
    rw [far_significand]
    change ((1 : Nat) : ℚ) * 10 ^ ((farReading 1000000).cutExponent - (1 : Nat) * (1000000 + 1 : Nat)) ≤ 2 ^ (-1074 : Int) / 2
    rw [level, cast_one, one_mul]
    exact tiny_power (by decide)
  obtain ⟨q, g, result, rounded, ran, _, _, shown, _⟩ := converts_cut .double _ false _ read countable
  have zero := (zero_iff rounded).mpr tiny
  have none : result.number = .magnitude 0 := by
    rw [shown, zero, if_pos (by rw [kind_max]; exact value_nonneg _ _)]
    rfl
  refine ⟨read, countable, whole, ⟨result, ran, none⟩, ?_⟩
  rintro ⟨q', g', result', rounded', ran', _, _, shown', _⟩
  rw [ran, some.injEq] at ran'
  rw [← ran', none, Number.magnitude.injEq] at shown'
  have zero' : value q' g' = 0 := by
    by_cases small : value q' g' ≤ Kind.max .double
    · rw [if_pos small] at shown'
      exact (WithTop.coe_inj.mp shown').symm
    · rw [if_neg small] at shown'
      exact absurd shown' WithTop.zero_ne_top
  have bound := (zero_iff rounded').mp zero'
  have below : Kind.vanishes .double < 1 := by
    have small : (2 : ℚ) ^ (-1074 : Int) < 1 := zpow_lt_one_of_neg₀ (by norm_num) (by norm_num)
    have pos := unit_pos (-1074)
    unfold Kind.vanishes
    change (2 : ℚ) ^ (-1074 : Int) / 2 < 1
    linarith
  exact below.not_ge bound

end Spicule.Strtod
