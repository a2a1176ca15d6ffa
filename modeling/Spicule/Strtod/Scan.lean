import Spicule.Strtod.Parse

namespace Spicule.Strtod
open List Option Nat Ctype Numeral Rounding
open Strtol (Bytes sign)

theorem int32_add (x y : Int) : int32 (int32 x + y) = int32 (x + y) := Int.bmod_add_bmod

variable {digits : List Nat} {limit : Nat} (d : Nat)
theorem kept_snoc (room : ((significant digits).take limit).length < limit) :
    (significant (digits ++ [d])).take limit =
        (if ((significant digits).take limit).length ≠ 0 ∨ d ≠ 0 then (significant digits).take limit ++ [d]
          else (significant digits).take limit) ∧
      (significant (digits ++ [d])).drop limit = [] ∧ (significant digits).drop limit = [] := by
  have short : (significant digits).length < limit := by
    rw [length_take] at room
    omega
  rw [take_of_length_le short.le, drop_of_length_le short.le, significant_snoc]
  by_cases some_digit : significant digits ≠ [] ∨ d ≠ 0
  · have same : (significant digits).length ≠ 0 ∨ d ≠ 0 :=
      some_digit.imp_left fun nonempty empty => nonempty (length_eq_zero_iff.mp empty)
    have longer : (significant digits ++ [d]).length ≤ limit := by
      rw [length_append, length_singleton]
      omega
    rw [if_pos some_digit, if_pos same, take_of_length_le longer, drop_of_length_le longer]
    exact ⟨rfl, rfl, rfl⟩
  · have none : significant digits = [] := Classical.not_not.mp fun nonempty => some_digit (Or.inl nonempty)
    have zero : d = 0 := Classical.not_not.mp fun nonzero => some_digit (Or.inr nonzero)
    rw [if_neg some_digit, none, zero]
    simp

theorem dropped_snoc (pos : 0 < limit) (full : ¬((significant digits).take limit).length < limit) :
    (significant (digits ++ [d])).take limit = (significant digits).take limit ∧
      (significant (digits ++ [d])).drop limit = (significant digits).drop limit ++ [d] := by
  have long : limit ≤ (significant digits).length := by
    rw [length_take] at full
    omega
  have nonempty : significant digits ≠ [] := by
    intro none
    rw [none, length_nil] at long
    omega
  rw [significant_snoc, if_pos (Or.inl nonempty), take_append_of_le_length long, drop_append_of_le_length long]
  exact ⟨rfl, rfl⟩

theorem ahead_stop (radix : Radix) (s : Bytes) (c : UInt8) (rest : Bytes) (shape : (digitsAhead radix s).2 = c :: rest) :
    radix.digit c = none := by
  induction s with
  | nil => cases shape
  | cons b s ih =>
    rw [digitsAhead] at shape
    split at shape
    · exact ih shape
    · rename_i none
      injection shape with same
      rw [← same]
      exact none

section
variable {σ : Type} (radix : Radix) (push : Bool → σ → Nat → σ) (s : Bytes)
theorem scan_ahead (seenDot : Bool) (scan : σ) : scanMantissa radix.digit push s seenDot scan =
      scanMantissa radix.digit push (digitsAhead radix s).2 seenDot ((digitsAhead radix s).1.foldl (push seenDot) scan) := by
  induction s generalizing scan with
  | nil => rfl
  | cons c s ih =>
    rw [scanMantissa, digitsAhead]
    cases digit : radix.digit c with
    | some d =>
      simp only [foldl_cons]
      exact ih (push seenDot scan d)
    | none => simp only [foldl_nil, scanMantissa, digit]

theorem scan_stop {s : Bytes} {seenDot : Bool} (scan : σ) (stop : ∀ c rest, s = c :: rest → radix.digit c = none)
    (dot : seenDot = true ∨ ∀ c rest, s = c :: rest → c ≠ 46) :
    scanMantissa radix.digit push s seenDot scan = (scan, s) := by
  cases s with
  | nil => rfl
  | cons c rest =>
    simp only [scanMantissa, stop c rest rfl]
    apply if_neg
    intro both
    rcases dot with seen | other
    · rw [seen] at both
      exact Bool.noConfusion both.2
    · exact other c rest rfl both.1

variable (Holds : σ → List Nat → Nat → Prop)
theorem fold_holds (step : ∀ seenDot scan digits places d, Holds scan digits places → d < radix.base →
      Holds (push seenDot scan d) (digits ++ [d]) (places + if seenDot then 1 else 0))
    (more : List Nat) (small : ∀ d ∈ more, d < radix.base) (seenDot : Bool) (scan : σ) (digits : List Nat) (places : Nat)
    (holds : Holds scan digits places) :
    Holds (more.foldl (push seenDot) scan) (digits ++ more) (places + if seenDot then more.length else 0) := by
  induction more generalizing scan digits places with
  | nil => simpa using holds
  | cons d more ih =>
    have rest := ih (forall_mem_cons.mp small).2 _ _ _
      (step seenDot scan digits places d holds (small d mem_cons_self))
    rw [append_assoc, singleton_append] at rest
    rw [foldl_cons]
    convert rest using 1
    cases seenDot with
    | true => simp only [if_true, length_cons]; omega
    | false => rfl

theorem digit_small {c : UInt8} {d : Nat} (found : radix.digit c = some d) : d < radix.base := by
  have range := c.toNat_lt
  cases radix with
  | dec =>
    simp only [Radix.digit, decDigit, isdigit_iff, ite_none_right_eq_some, some.injEq] at found
    simp only [Radix.base]
    omega
  | hex =>
    simp only [Radix.digit, hexDigit, isdigit_iff] at found
    simp only [Radix.base]
    split at found
    · simp only [some.injEq] at found
      omega
    · split at found
      · simp only [some.injEq] at found
        omega
      · split at found
        · simp only [some.injEq] at found
          omega
        · cases found

theorem ahead_small (d : Nat) (mem : d ∈ (digitsAhead radix s).1) : d < radix.base := by
  induction s with
  | nil => cases mem
  | cons c s ih =>
    rw [digitsAhead] at mem
    cases digit : radix.digit c with
    | some e =>
      simp only [digit, mem_cons] at mem
      rcases mem with here | later
      · exact here ▸ digit_small radix digit
      · exact ih later
    | none =>
      simp only [digit] at mem
      cases mem

theorem scan_mantissa_holds (step : ∀ seenDot scan digits places d, Holds scan digits places → d < radix.base →
      Holds (push seenDot scan d) (digits ++ [d]) (places + if seenDot then 1 else 0))
    (s : Bytes) (scan : σ) (start : Holds scan [] 0) :
    ∃ after, scanMantissa radix.digit push s false scan = (after, (mantissa radix s).2.2) ∧
      Holds after (mantissa radix s).1 (mantissa radix s).2.1 := by
  have whole := fold_holds radix push Holds step (digitsAhead radix s).1 (ahead_small radix s) false scan [] 0 start
  have stop := ahead_stop radix s
  rw [scan_ahead]
  unfold mantissa
  generalize digitsAhead radix s = ahead at whole stop ⊢
  obtain ⟨front, rest⟩ := ahead
  simp only [nil_append, Bool.false_eq_true, if_false, Nat.add_zero] at whole stop ⊢
  generalize front.foldl (push false) scan = after at whole ⊢
  cases rest with
  | nil => exact ⟨after, rfl, whole⟩
  | cons c behind =>
    have plain := stop c behind rfl
    by_cases point : c = 46
    · have frac := fold_holds radix push Holds step (digitsAhead radix behind).1 (ahead_small radix behind) true after front 0
        whole
      subst point
      simp only [scanMantissa, plain, true_and, if_true, Nat.zero_add] at frac ⊢
      rw [scan_ahead, scan_stop radix push _ (fun c rest => ahead_stop radix behind c rest) (Or.inl rfl)]
      exact ⟨_, rfl, frac⟩
    · simp only [if_neg point]
      rw [scan_stop radix push after]
      · exact ⟨after, rfl, whole⟩
      · intro b rest same
        injection same with here
        exact here ▸ plain
      · right
        intro b rest same
        injection same with here
        exact here ▸ point

end

theorem exp_kept (unit e : Int) (seenDot : Bool) (places : Nat) (exp : e = int32 (unit * ((0 : Nat) - places))) :
    (if seenDot then int32 (e - unit) else e) = int32 (unit * ((0 : Nat) - (places + if seenDot then 1 else 0 : Nat))) := by
  cases seenDot with
  | true =>
    simp only [if_true, exp]
    rw [sub_eq_add_neg, int32_add]
    congr 1
    push_cast
    ring
  | false => exact exp

theorem exp_dropped (unit e : Int) (seenDot : Bool) (places more : Nat) (exp : e = int32 (unit * (more - places))) :
    (if seenDot then e else int32 (e + unit)) =
      int32 (unit * ((more + 1 : Nat) - (places + if seenDot then 1 else 0 : Nat))) := by
  cases seenDot with
  | true =>
    simp only [if_true, exp]
    congr 1
    push_cast
    ring
  | false =>
    simp only [Bool.false_eq_true, if_false, exp, int32_add]
    congr 1
    push_cast
    ring

structure DecimalHolds (scan : Decimal) (digits : List Nat) (places : Nat) : Prop where
  any : scan.any = !digits.isEmpty
  dig : scan.dig = (significant digits).take maxdig
  sticky : scan.sticky = ((significant digits).drop maxdig).any fun d => d ≠ 0
  exp : scan.exp = int32 (((significant digits).drop maxdig).length - places)

theorem decimal_push {seenDot : Bool} {scan : Decimal} {places d : Nat} (holds : DecimalHolds scan digits places) :
    DecimalHolds (scan.push seenDot d) (digits ++ [d]) (places + if seenDot then 1 else 0) := by
  have nonempty : (!(digits ++ [d]).isEmpty) = true := by simp
  unfold Decimal.push
  by_cases room : scan.dig.length < maxdig
  · rw [if_pos room]
    rw [holds.dig] at room
    obtain ⟨kept, after, before⟩ := kept_snoc d room
    have exp := holds.exp
    have sticky := holds.sticky
    rw [before] at exp sticky
    refine ⟨nonempty.symm, ?_, ?_, ?_⟩
    · rw [kept]
      simp only [holds.dig]
    · rw [after]
      exact sticky
    · rw [after]
      simpa using exp_kept 1 scan.exp seenDot places (by simpa using exp)
  · rw [if_neg room]
    rw [holds.dig] at room
    obtain ⟨kept, more⟩ := dropped_snoc d (by decide) room
    refine ⟨nonempty.symm, ?_, ?_, ?_⟩
    · rw [kept]
      exact holds.dig
    · rw [more, any_append, ← holds.sticky]
      simp
    · rw [more, length_append, length_singleton]
      have dropped := exp_dropped 1 scan.exp seenDot places _ (by rw [one_mul]; exact holds.exp)
      rwa [one_mul] at dropped

structure HexHolds (scan : Hex) (digits : List Nat) (places : Nat) : Prop where
  any : scan.any = !digits.isEmpty
  m : scan.m = natOf 16 ((significant digits).take 16)
  sticky : scan.sticky = ((significant digits).drop 16).any fun d => d ≠ 0
  exp : scan.exp = int32 (4 * (((significant digits).drop 16).length - places))
  each : ∀ d ∈ digits, d < 16

theorem hex_full (each : ∀ d ∈ digits, d < 16) :
    natOf 16 ((significant digits).take 16) >>> 60 ≠ 0 ↔ ¬((significant digits).take 16).length < 16 := by
  have small : ∀ d ∈ (significant digits).take 16, d < 16 :=
    fun d mem => each d (significant_subset digits d (mem_of_mem_take mem))
  have below := nat_of_lt 16 _ small
  have lead := significant_head digits
  rw [shiftRight_eq_div_pow]
  cases shape : significant digits with
  | nil => simp [natOf]
  | cons d rest =>
    have above := nat_of_ge 16 d (rest.take 15) (lead d rest shape)
    rw [shape] at below
    rw [take_succ_cons] at below ⊢
    rw [length_cons] at below ⊢
    constructor
    · intro full short
      have power : 16 ^ ((rest.take 15).length + 1) ≤ 16 ^ 15 := Nat.pow_le_pow_right (by decide) (by omega)
      exact full (div_eq_of_lt (by omega))
    · intro long none
      have limit : (rest.take 15).length ≤ 15 := length_take_le 15 rest
      rw [show (rest.take 15).length = 15 by omega] at above
      have under := lt_of_div_eq_zero (by decide) none
      omega

theorem shift_digit (m d : Nat) (small : d < 16) : m <<< 4 ||| d = m * 16 + d := by
  rw [shiftLeft_eq, Nat.mul_comm]
  exact (two_pow_add_eq_or_of_lt (show d < 2 ^ 4 from small) m).symm.trans (by omega)

theorem hex_push {seenDot : Bool} {scan : Hex} {places d : Nat} (holds : HexHolds scan digits places)
    (small : d < 16) : HexHolds (scan.push seenDot d) (digits ++ [d]) (places + if seenDot then 1 else 0) := by
  have nonempty : (!(digits ++ [d]).isEmpty) = true := by simp
  have each : ∀ e ∈ digits ++ [d], e < 16 := by
    intro e mem
    rcases mem_append.mp mem with before | here
    · exact holds.each e before
    · exact mem_singleton.mp here ▸ small
  unfold Hex.push
  rw [holds.m]
  by_cases room : ((significant digits).take 16).length < 16
  · rw [if_neg (fun full => (hex_full holds.each).mp full room)]
    obtain ⟨kept, after, before⟩ := kept_snoc d room
    have exp := holds.exp
    have sticky := holds.sticky
    rw [before] at exp sticky
    refine ⟨nonempty.symm, ?_, ?_, ?_, each⟩
    · rw [kept, shift_digit _ _ small]
      by_cases some_digit : ((significant digits).take 16).length ≠ 0 ∨ d ≠ 0
      · rw [if_pos some_digit, nat_of_snoc]
      · rw [if_neg some_digit]
        rw [not_or, Classical.not_not, Classical.not_not] at some_digit
        rw [length_eq_zero_iff.mp some_digit.1, some_digit.2]
        rfl
    · rw [after]
      exact sticky
    · rw [after]
      exact exp_kept 4 scan.exp seenDot places exp
  · rw [if_pos ((hex_full holds.each).mpr room)]
    obtain ⟨kept, more⟩ := dropped_snoc d (by decide) room
    refine ⟨nonempty.symm, ?_, ?_, ?_, each⟩
    · rw [kept]
    · rw [more, any_append, ← holds.sticky]
      simp
    · rw [more, length_append, length_singleton]
      exact exp_dropped 4 scan.exp seenDot places _ holds.exp

theorem exp_digits_ahead (s : Bytes) (e : Nat) :
    expDigits s e = (cutFrom e (digitsAhead .dec s).1, (digitsAhead .dec s).2) := by
  induction s generalizing e with
  | nil => rfl
  | cons c s ih =>
    rw [expDigits, digitsAhead]
    by_cases digit : isdigit c = true
    · simp only [Radix.digit, decDigit, if_pos digit, ih]
      rfl
    · simp only [Radix.digit, decDigit, if_neg digit]
      rfl

theorem head_digit (s : Bytes) : (s.head?.map isdigit).getD false = true ↔ (digitsAhead .dec s).1 ≠ [] := by
  cases s with
  | nil => simp [digitsAhead]
  | cons c s =>
    by_cases digit : isdigit c = true <;> simp [digitsAhead, Radix.digit, decDigit, digit]

theorem exp_part_ahead (lower upper : UInt8) (radix : Radix) (marks : ∀ c, radix.marks c ↔ c = lower ∨ c = upper) (s : Bytes) :
    expPart lower upper s = (if (exponentAhead radix s).1 then -(cutFrom 0 (exponentAhead radix s).2.1 : Int)
          else cutFrom 0 (exponentAhead radix s).2.1,
        (exponentAhead radix s).2.2) := by
  cases s with
  | nil => rfl
  | cons c q =>
    unfold expPart exponentAhead
    simp only [← marks]
    by_cases marked : radix.marks c
    · simp only [if_pos marked]
      obtain ⟨neg, behind⟩ := sign q
      simp only [head_digit, exp_digits_ahead]
      by_cases none : (digitsAhead .dec behind).1 = []
      · simp [none, cutFrom]
      · simp [none]
    · simp [marked, cutFrom]

theorem digits_ahead_written (ds : List Nat) (s : Bytes) (each : ∀ d ∈ ds, d < 10) :
    digitsAhead .dec (ds.map Decimal.digit ++ s) = (ds ++ (digitsAhead .dec s).1, (digitsAhead .dec s).2) := by
  induction ds with
  | nil => rfl
  | cons d ds ih =>
    have small := each d mem_cons_self
    have code := Decimal.digit_to_nat d small
    have read : Radix.digit .dec (Decimal.digit d) = some d := by
      simp only [Radix.digit, decDigit, isdigit_iff, code, ite_none_right_eq_some, some.injEq]
      omega
    rw [map_cons, cons_append, digitsAhead, read]
    simp only [ih (forall_mem_cons.mp each).2, cons_append]

end Spicule.Strtod
