import Spicule.Ctype
import Spicule.Lib.Decimal

namespace Spicule.Strtol
open List Option Ctype

abbrev Bytes := List UInt8

def uintmaxMax : Nat := 2 ^ 64 - 1

def digitValue (c : UInt8) : Option Nat :=
  if 48 ≤ c.toNat ∧ c.toNat ≤ 57 then some (c.toNat - 48)
  else if 97 ≤ c.toNat ∧ c.toNat ≤ 122 then some (c.toNat - 97 + 10)
  else if 65 ≤ c.toNat ∧ c.toNat ≤ 90 then some (c.toNat - 65 + 10)
  else none

def digitIn (base : Nat) (c : UInt8) : Option Nat :=
  match digitValue c with
  | some d => if d < base then some d else none
  | none => none

structure Scan where
  value : Nat
  any : Bool
  ovf : Bool
deriving DecidableEq

def Scan.push (base : Nat) (scan : Scan) (d : Nat) : Scan :=
  if scan.ovf then { scan with any := true }
  else if scan.value > uintmaxMax / base ∨ (scan.value = uintmaxMax / base ∧ d > uintmaxMax % base) then
    { scan with any := true, ovf := true }
  else { scan with any := true, value := scan.value * base + d }

def scanDigits (base : Nat) : Bytes → Scan → Scan × Bytes
  | [], scan => (scan, [])
  | c :: rest, scan =>
    match digitIn base c with
    | some d => scanDigits base rest (scan.push base d)
    | none => (scan, c :: rest)

def sign : Bytes → Bool × Bytes
  | [] => (false, [])
  | c :: rest => if c = 43 then (false, rest) else if c = 45 then (true, rest) else (false, c :: rest)

-- "0x" counts as a base only before a hexadecimal digit.
def hexAhead : Bytes → Option Bytes
  | zero :: x :: c :: rest =>
    if zero = 48 ∧ (x = 120 ∨ x = 88) ∧ isxdigit c = true then some (c :: rest) else none
  | _ => none

def baseOf (base : Nat) (s : Bytes) : Nat × Bytes :=
  if base = 0 then
    match hexAhead s with
    | some rest => (16, rest)
    | none => if s.head? = some 48 then (8, s) else (10, s)
  else if base = 16 then (16, (hexAhead s).getD s)
  else (base, s)

structure Parsed where
  stop : Bytes
  neg : Bool
  value : Nat
  ovf : Bool
deriving DecidableEq

def parse (nptr : Bytes) (base : Nat) : Parsed :=
  let (neg, s) := sign (nptr.dropWhile isspace)
  let (base, s) := baseOf base s
  if base < 2 ∨ 36 < base then { stop := nptr, neg := neg, value := 0, ovf := false }
  else
    let (scan, s) := scanDigits base s { value := 0, any := false, ovf := false }
    { stop := if scan.any then s else nptr, neg := neg,
      value := if scan.ovf then uintmaxMax else scan.value, ovf := scan.ovf }

def ulongMax (w : Nat) : Nat := 2 ^ w - 1

def longMax (w : Nat) : Nat := 2 ^ (w - 1) - 1

-- The result is a uintmax_t: a negative one is its pattern modulo 2 ^ 64.
def strtox (w : Nat) (nptr : Bytes) (base lim : Nat) : Nat × Bytes :=
  let parsed := parse nptr base
  let result :=
    if lim = uintmaxMax ∨ lim = ulongMax w then
      if parsed.ovf ∨ parsed.value > lim then lim
      else if parsed.neg then ((2 ^ 64 - parsed.value) % 2 ^ 64) &&& lim else parsed.value
    else if parsed.neg then
      if parsed.ovf ∨ parsed.value > lim + 1 then 2 ^ 64 - (lim + 1) else (2 ^ 64 - parsed.value) % 2 ^ 64
    else if parsed.ovf ∨ parsed.value > lim then lim else parsed.value
  (result, parsed.stop)

def toIntmax (u : Nat) : Int := if u < 2 ^ 63 then u else (u : Int) - 2 ^ 64

def strtol (w : Nat) (s : Bytes) (base : Nat) : Int × Bytes :=
  let (u, stop) := strtox w s base (longMax w)
  (toIntmax u, stop)

def strtolErange (w : Nat) (s : Bytes) (base : Nat) : Bool :=
  let parsed := parse s base
  parsed.ovf || decide (parsed.value > if parsed.neg then longMax w + 1 else longMax w)

def positional (base : Nat) (start : Nat) : Bytes → Nat
  | [] => start
  | c :: rest => positional base (start * base + (digitIn base c).getD 0) rest

def Digits (base : Nat) (run : Bytes) : Prop := ∀ c ∈ run, (digitIn base c).isSome = true

def NoDigit (base : Nat) (rest : Bytes) : Prop := ∀ c ∈ rest.head?, digitIn base c = none

def Tracks (scan : Scan) (exact : Nat) : Prop :=
  if exact ≤ uintmaxMax then scan.value = exact ∧ scan.ovf = false else scan.ovf = true

variable (base : Nat) (c : UInt8) (d : Nat)
theorem digit_in_small (read : digitIn base c = some d) : d < base := by
  unfold digitIn at read
  split at read
  · split at read
    · cases read
      assumption
    · cases read
  · cases read

theorem overflow_iff {base : Nat} (value : Nat) {d : Nat} (max : Nat) (small : d < base) :
    (value > max / base ∨ (value = max / base ∧ d > max % base)) ↔ max < value * base + d := by
  have whole := Nat.div_add_mod max base
  have remainder : max % base < base := Nat.mod_lt max (by omega)
  rw [Nat.mul_comm] at whole
  constructor
  · intro overs
    cases overs with
    | inl above =>
      have := Nat.mul_le_mul_right base (Nat.succ_le_of_lt above)
      rw [Nat.succ_mul] at this
      omega
    | inr edge =>
      rw [edge.1]
      omega
  · intro overs
    by_cases above : value > max / base
    · exact .inl above
    · by_cases same : value = max / base
      · rw [same] at overs
        exact .inr ⟨same, by omega⟩
      · have := Nat.mul_le_mul_right base (show value + 1 ≤ max / base by omega)
        rw [Nat.succ_mul] at this
        omega

theorem push_tracks (scan : Scan) (exact : Nat) (small : d < base) (tracks : Tracks scan exact) :
    Tracks (scan.push base d) (exact * base + d) := by
  unfold Tracks at tracks
  split at tracks
  · rename_i fits
    obtain ⟨rfl, clear⟩ := tracks
    unfold Tracks Scan.push
    rw [clear, if_neg Bool.false_ne_true]
    by_cases overs : uintmaxMax < scan.value * base + d
    · rw [if_pos ((overflow_iff scan.value uintmaxMax small).mpr overs), if_neg (by omega)]
    · rw [if_neg (mt (overflow_iff scan.value uintmaxMax small).mp overs), if_pos (by omega)]
      exact ⟨rfl, rfl⟩
  · rename_i past
    have grown : exact ≤ exact * base + d :=
      Nat.le_trans (Nat.le_mul_of_pos_right exact (by omega)) (Nat.le_add_right _ d)
    unfold Tracks Scan.push
    rw [if_pos tracks, if_neg (by omega)]
    exact tracks

theorem push_any (scan : Scan) (d : Nat) : (scan.push base d).any = true := by
  unfold Scan.push
  split
  · rfl
  · split <;> rfl

theorem scan_digits_run (run rest : Bytes) (scan : Scan) (exact : Nat) (digits : Digits base run)
    (stop : NoDigit base rest) (tracks : Tracks scan exact) :
    ∃ last, scanDigits base (run ++ rest) scan = (last, rest) ∧ Tracks last (positional base exact run) ∧
      last.any = (scan.any || !run.isEmpty) := by
  induction run generalizing scan exact with
  | nil =>
    refine ⟨scan, ?_, tracks, (Bool.or_false _).symm⟩
    cases rest with
    | nil => rfl
    | cons c rest => simp only [nil_append, scanDigits, stop c rfl]
  | cons c run ih =>
    obtain ⟨d, read⟩ := isSome_iff_exists.mp (digits c mem_cons_self)
    obtain ⟨last, scanned, tracked, any⟩ := ih (scan.push base d) (exact * base + d)
      (forall_mem_cons.mp digits).2
      (push_tracks base d scan exact (digit_in_small base c d read) tracks)
    refine ⟨last, ?_, ?_, ?_⟩
    · simp only [cons_append, scanDigits, read, scanned]
    · simpa only [positional, read, getD_some] using tracked
    · rw [any, push_any, Bool.true_or, isEmpty_cons, Bool.not_false, Bool.or_true]

def clampLong (w : Nat) (neg : Bool) (magnitude : Nat) : Int :=
  if neg then -(min magnitude (longMax w + 1) : Nat) else (min magnitude (longMax w) : Nat)

variable (w : Nat)
theorem half_double (pos : 0 < w) : 2 ^ w = 2 * 2 ^ (w - 1) := by
  obtain ⟨half, rfl⟩ : ∃ half, w = half + 1 := ⟨w - 1, by omega⟩
  rw [Nat.pow_succ, Nat.mul_comm, Nat.add_sub_cancel]

theorem half_bounds (narrow : w ≤ 64) : 0 < 2 ^ (w - 1) ∧ 2 ^ (w - 1) ≤ 2 ^ 63 :=
  ⟨Nat.two_pow_pos (w - 1), Nat.pow_le_pow_right (by omega) (by omega)⟩

theorem strtox_long {nptr : Bytes} {base : Nat} (pos : 0 < w) (narrow : w ≤ 64) {exact : Nat}
    (value : (parse nptr base).value = min exact uintmaxMax)
    (overflow : (parse nptr base).ovf = decide (uintmaxMax < exact)) :
    toIntmax (strtox w nptr base (longMax w)).1 = clampLong w (parse nptr base).neg exact := by
  have double := half_double w pos
  obtain ⟨some_room, wide⟩ := half_bounds w narrow
  have huge : uintmaxMax = 2 ^ 64 - 1 := rfl
  have signed : ¬ (longMax w = uintmaxMax ∨ longMax w = ulongMax w) := by
    unfold longMax ulongMax
    omega
  simp only [strtox, if_neg signed, value, overflow, decide_eq_true_eq, clampLong]
  unfold longMax toIntmax
  split
  · split
    · rw [if_neg (by omega)]
      omega
    · by_cases zero : min exact uintmaxMax = 0
      · rw [zero, if_pos (by omega)]
        omega
      · rw [Nat.mod_eq_of_lt (by omega), if_neg (by omega)]
        omega
  · split
    · rw [if_pos (by omega)]
      omega
    · rw [if_pos (by omega)]
      omega

theorem parse_reads (given : Nat) (p s run rest : Bytes) (neg : Bool) (base : Nat)
    (spaceless : p.dropWhile isspace = p) (signed : sign p = (neg, s)) (based : baseOf given s = (base, run ++ rest))
    (valid : 2 ≤ base ∧ base ≤ 36) (nonempty : run ≠ []) (digits : Digits base run) (stop : NoDigit base rest) :
    parse p given = Parsed.mk rest neg (min (positional base 0 run) uintmaxMax)
      (decide (uintmaxMax < positional base 0 run)) := by
  have fresh : Tracks { value := 0, any := false, ovf := false } 0 := ⟨rfl, rfl⟩
  obtain ⟨last, scanned, tracked, any⟩ := scan_digits_run base run rest _ 0 digits stop fresh
  have any : last.any = true := by
    rw [any, Bool.false_or, isEmpty_eq_false_iff.mpr nonempty, Bool.not_false]
  have parsed : parse p given = Parsed.mk rest neg (if last.ovf then uintmaxMax else last.value) last.ovf := by
    simp only [parse, spaceless, signed, based, scanned, any, if_true]
    rw [if_neg (by omega)]
  rw [parsed]
  unfold Tracks at tracked
  split at tracked
  · rename_i fits
    rw [tracked.1, tracked.2, if_neg Bool.false_ne_true, Nat.min_eq_left fits, decide_eq_false (by omega)]
  · rename_i past
    rw [tracked, if_pos rfl, Nat.min_eq_right (by omega), decide_eq_true (by omega)]

theorem strtol_reads (pos : 0 < w) (narrow : w ≤ 64) {given : Nat} {p s run rest : Bytes} {neg : Bool}
    {base : Nat} (spaceless : p.dropWhile isspace = p) (signed : sign p = (neg, s))
    (based : baseOf given s = (base, run ++ rest)) (valid : 2 ≤ base ∧ base ≤ 36) (nonempty : run ≠ [])
    (digits : Digits base run) (stop : NoDigit base rest) :
    strtol w p given = (clampLong w neg (positional base 0 run), rest) := by
  have parsed := parse_reads given p s run rest neg base spaceless signed based valid nonempty digits stop
  have converted := strtox_long w pos narrow (congrArg Parsed.value parsed)
    (congrArg Parsed.ovf parsed)
  rw [parsed] at converted
  have stopped : (strtox w p given (longMax w)).2 = rest := congrArg Parsed.stop parsed
  simp only [strtol, converted, stopped]

inductive Constant : Bytes → Nat → Prop where
  | decimal (first : UInt8) (rest : Bytes) (nonzero : first ≠ 48) (digits : Digits 10 (first :: rest)) :
      Constant (first :: rest) (positional 10 0 (first :: rest))
  | octal (rest : Bytes) (digits : Digits 8 (48 :: rest)) : Constant (48 :: rest) (positional 8 0 (48 :: rest))
  | hexadecimal (x first : UInt8) (rest : Bytes) (marked : x = 120 ∨ x = 88) (digits : Digits 16 (first :: rest)) :
      Constant (48 :: x :: first :: rest) (positional 16 0 (first :: rest))

def NoWord (rest : Bytes) : Prop := ∀ c ∈ rest.head?, isalnum c = false

theorem digit_value_alnum (none_of : isalnum c = false) : digitValue c = none := by
  rw [isalnum, Bool.or_eq_false_iff] at none_of
  have letter := mt (class_ranges c).2.1.mpr (Bool.eq_false_iff.mp none_of.1)
  have digit := mt (isdigit_iff c).mpr (Bool.eq_false_iff.mp none_of.2)
  unfold digitValue
  rw [if_neg (by omega), if_neg (by omega), if_neg (by omega)]

variable (rest : Bytes)
theorem no_word_no_digit (apart : NoWord rest) : NoDigit base rest := by
  intro c head
  simp only [digitIn, digit_value_alnum c (apart c head)]

theorem digit_in_decimal : (digitIn 10 c).isSome = isdigit c := by
  rw [Bool.eq_iff_iff, isdigit_iff]
  unfold digitIn digitValue
  split_ifs <;> simp <;> omega

theorem digit_in_hexadecimal : (digitIn 16 c).isSome = isxdigit c := by
  rw [Bool.eq_iff_iff, (class_ranges _).2.2.1]
  unfold digitIn digitValue
  split_ifs <;> simp <;> omega

theorem digit_not_space (digit : isdigit c = true) : isspace c = false := by
  rw [← Bool.not_eq_true, (class_ranges _).2.2.2]
  have := (isdigit_iff c).mp digit
  omega

theorem sign_digit (digit : isdigit c = true) : sign (c :: rest) = (false, c :: rest) := by
  have bounds := (isdigit_iff c).mp digit
  have not_plus : c ≠ 43 := by
    rintro rfl
    exact absurd bounds.1 (by decide)
  have not_minus : c ≠ 45 := by
    rintro rfl
    exact absurd bounds.1 (by decide)
  rw [sign, if_neg not_plus, if_neg not_minus]

theorem sign_spelled (neg : Bool) (digit : isdigit c = true) : let text := (if neg then [45] else []) ++ c :: rest
    text.dropWhile isspace = text ∧ sign text = (neg, c :: rest) := by
  cases neg with
  | true => exact ⟨rfl, rfl⟩
  | false =>
    refine ⟨?_, sign_digit c rest digit⟩
    change (c :: rest).dropWhile isspace = c :: rest
    rw [dropWhile_cons, digit_not_space c digit, if_neg Bool.false_ne_true]

theorem strtol_unsigned (pos : 0 < w) (narrow : w ≤ 64) {c : UInt8} {tail run rest : Bytes} {base : Nat}
    (digit : isdigit c = true) (based : baseOf 0 (c :: tail) = (base, run ++ rest)) (valid : 2 ≤ base ∧ base ≤ 36)
    (nonempty : run ≠ []) (digits : Digits base run) (stop : NoDigit base rest) :
    strtol w (c :: tail) 0 = (clampLong w false (positional base 0 run), rest) := by
  obtain ⟨spaceless, signed⟩ := sign_spelled c tail false digit
  exact strtol_reads w pos narrow spaceless signed based valid nonempty
    digits stop

theorem strtol_long (s : Bytes) (base : Nat) : -2 ^ 63 ≤ (strtol 64 s base).1 ∧ (strtol 64 s base).1 < 2 ^ 63 := by
  have signed : ¬ (longMax 64 = uintmaxMax ∨ longMax 64 = ulongMax 64) := by decide
  have half : longMax 64 = 2 ^ 63 - 1 := rfl
  have wrapped : (strtox 64 s base (longMax 64)).1 < 2 ^ 64 := by
    simp only [strtox, if_neg signed]
    split_ifs
    · omega
    · exact Nat.mod_lt _ (by omega)
    · omega
    · omega
  simp only [strtol, toIntmax]
  generalize (strtox 64 s base (longMax 64)).1 = u at wrapped ⊢
  split <;> omega

theorem strtol_decimal (pos : 0 < w) (narrow : w ≤ 64) (neg : Bool) (c : UInt8) (run rest : Bytes)
    (digits : Digits 10 (c :: run)) (stop : NoDigit 10 rest) :
    let text := (if neg then [45] else []) ++ (c :: run ++ rest)
    strtol w text 10 = (clampLong w neg (positional 10 0 (c :: run)), rest) ∧
      strtolErange w text 10 = decide ((if neg then longMax w + 1 else longMax w) < positional 10 0 (c :: run)) := by
  intro text
  have digit : isdigit c = true := digit_in_decimal c ▸ digits c mem_cons_self
  obtain ⟨spaceless, signed⟩ := sign_spelled c (run ++ rest) neg digit
  refine ⟨strtol_reads w pos narrow spaceless signed rfl (by omega)
    (cons_ne_nil c run) digits stop, ?_⟩
  have parsed := parse_reads 10 text (c :: run ++ rest) (c :: run) rest neg 10 spaceless signed rfl (by omega)
    (cons_ne_nil c run) digits stop
  have wide := (half_bounds w narrow).2
  have below : longMax w + 1 ≤ uintmaxMax := by
    unfold longMax uintmaxMax
    omega
  rw [Bool.eq_iff_iff]
  simp only [strtolErange, parsed, Bool.or_eq_true, decide_eq_true_eq]
  split <;> omega

theorem base_of_hexadecimal {x first : UInt8} {rest : Bytes} (marked : x = 120 ∨ x = 88)
    (digit : isxdigit first = true) : baseOf 0 (48 :: x :: first :: rest) = (16, first :: rest) := by
  simp only [baseOf, hexAhead, if_true, marked, digit, and_self]

variable (first : UInt8)
theorem base_of_decimal (rest : Bytes) (nonzero : first ≠ 48) : baseOf 0 (first :: rest) = (10, first :: rest) := by
  have no_mark : hexAhead (first :: rest) = none := by
    unfold hexAhead
    split
    · rename_i shape
      cases shape
      exact if_neg (fun marked => nonzero marked.1)
    · rfl
  simp only [baseOf, if_true, no_mark, head?_cons, some.injEq, if_neg nonzero]

theorem base_of_octal (unmarked : hexAhead (48 :: rest) = none) : baseOf 0 (48 :: rest) = (8, 48 :: rest) := by
  simp only [baseOf, if_true, unmarked, head?_cons]

theorem hex_ahead_octal {rest tail : Bytes} (digits : Digits 8 rest) (apart : NoWord tail) :
    hexAhead (48 :: (rest ++ tail)) = none := by
  unfold hexAhead
  split
  · rename_i zero x c more shape
    refine if_neg (fun marked => ?_)
    have letter : isalnum x = true ∧ digitIn 8 x = none := by
      cases marked.2.1 with
      | inl lower => rw [lower]; decide
      | inr upper => rw [upper]; decide
    cases rest with
    | nil =>
      cases tail with
      | nil => cases shape
      | cons head tail =>
        cases shape
        exact absurd letter.1 (Bool.eq_false_iff.mp (apart x rfl))
    | cons head rest =>
      have same : head = x := (List.cons.inj (List.cons.inj shape).2).1
      have octal := digits head mem_cons_self
      rw [same, letter.2] at octal
      cases octal
  · rfl

theorem zero_digit : isdigit 48 = true := by decide

theorem digits_tail (rest : Bytes) (digits : Digits base (first :: rest)) :
    Digits base rest := (forall_mem_cons.mp digits).2

theorem strtol_constant (pos : 0 < w) (narrow : w ≤ 64) (token rest : Bytes) (magnitude : Nat)
    (constant : Constant token magnitude) (apart : NoWord rest) :
    strtol w (token ++ rest) 0 = (clampLong w false magnitude, rest) := by
  cases constant with
  | decimal first more nonzero digits =>
    have digit : isdigit first = true := digit_in_decimal first ▸ digits first mem_cons_self
    exact strtol_unsigned w pos narrow digit
      (base_of_decimal first (more ++ rest) nonzero) (by omega) (cons_ne_nil _ _) digits
      (no_word_no_digit 10 rest apart)
  | octal more digits =>
    exact strtol_unsigned w pos narrow zero_digit
      (base_of_octal (more ++ rest) (hex_ahead_octal (digits_tail 8 48 more digits) apart)) (by omega)
      (cons_ne_nil _ _) digits (no_word_no_digit 8 rest apart)
  | hexadecimal x first more marked digits =>
    have digit : isxdigit first = true := digit_in_hexadecimal first ▸ digits first mem_cons_self
    exact strtol_unsigned w pos narrow zero_digit
      (base_of_hexadecimal marked digit) (by omega) (cons_ne_nil _ _) digits
      (no_word_no_digit 16 rest apart)

theorem digits_ahead (s : Bytes) : ∃ run rest, s = run ++ rest ∧ Digits base run ∧ NoDigit base rest := by
  refine ⟨s.takeWhile fun c => (digitIn base c).isSome, s.dropWhile fun c => (digitIn base c).isSome,
    takeWhile_append_dropWhile.symm, ?_, ?_⟩
  · intro c mem
    have digit := mem_takeWhile_imp mem
    exact digit
  · intro c head
    have past := head?_dropWhile_not (fun c => (digitIn base c).isSome) s
    rw [mem_def.mp head] at past
    simpa using past

theorem digits_ahead_cons (s : Bytes) (digit : (digitIn base first).isSome = true) :
    ∃ run rest, s = run ++ rest ∧ Digits base (first :: run) ∧ NoDigit base rest := by
  obtain ⟨run, rest, split, digits, stop⟩ := digits_ahead base s
  refine ⟨run, rest, split, ?_, stop⟩
  intro c mem
  cases mem_cons.mp mem with
  | inl same => exact same ▸ digit
  | inr later => exact digits c later

theorem strtol_ahead (pos : 0 < w) (narrow : w ≤ 64) (first : UInt8) (tail : Bytes)
    (digit : isdigit first = true) : ∃ token magnitude rest, first :: tail = token ++ rest ∧
      Constant token magnitude ∧ strtol w (first :: tail) 0 = (clampLong w false magnitude, rest) := by
  by_cases zero : first = 48
  · subst zero
    cases marked : hexAhead (48 :: tail) with
    | none =>
      obtain ⟨run, rest, split, digits, stop⟩ := digits_ahead_cons 8 48 tail (by decide)
      have based : baseOf 0 (48 :: tail) = (8, (48 :: run) ++ rest) := split ▸ base_of_octal tail marked
      exact ⟨48 :: run, _, rest, congrArg (48 :: ·) split, .octal run digits, strtol_unsigned w pos narrow
        digit based (by omega) (cons_ne_nil _ _) digits stop⟩
    | some inner =>
      unfold hexAhead at marked
      split at marked
      · rename_i zero x c more shape
        cases shape
        split at marked
        · rename_i mark
          obtain ⟨run, rest, split, digits, stop⟩ := digits_ahead_cons 16 c more (digit_in_hexadecimal c ▸ mark.2.2)
          subst split
          exact ⟨48 :: x :: c :: run, _, rest, rfl, .hexadecimal x c run mark.2.1 digits,
            strtol_unsigned w pos narrow digit
              (base_of_hexadecimal mark.2.1 mark.2.2) (by omega) (cons_ne_nil _ _) digits stop⟩
        · cases marked
      · cases marked
  · obtain ⟨run, rest, split, digits, stop⟩ := digits_ahead_cons 10 first tail (digit_in_decimal first ▸ digit)
    have based : baseOf 0 (first :: tail) = (10, (first :: run) ++ rest) := split ▸ base_of_decimal first tail zero
    exact ⟨first :: run, _, rest, congrArg (first :: ·) split, .decimal first run zero digits,
      strtol_unsigned w pos narrow digit based (by omega) (cons_ne_nil _ _)
        digits stop⟩

theorem digit_in_printed (small : d < 10) : digitIn 10 (Decimal.digit d) = some d := by
  have value := Decimal.digit_to_nat d small
  simp only [digitIn, digitValue, value]
  rw [if_pos (by omega), show 48 + d - 48 = d by omega]
  simp [small]

theorem digits_from_digits (fuel n : Nat) (tail : Bytes) (enough : n < fuel) (digits : Digits 10 tail) :
    Digits 10 (Decimal.digitsFrom fuel n tail) ∧ positional 10 0 (Decimal.digitsFrom fuel n tail) = positional 10 n tail := by
  induction fuel generalizing n tail with
  | zero => omega
  | succ fuel ih =>
    have read := digit_in_printed (n % 10) (Nat.mod_lt n (by omega))
    have longer : Digits 10 (Decimal.digit (n % 10) :: tail) := by
      intro c mem
      cases mem_cons.mp mem with
      | inl same => rw [same, read]; rfl
      | inr later => exact digits c later
    unfold Decimal.digitsFrom
    split
    · rename_i last
      refine ⟨longer, ?_⟩
      rw [positional, read, getD_some, show 0 * 10 + n % 10 = n by omega]
    · obtain ⟨all, value⟩ := ih (n / 10) _ (by omega) longer
      refine ⟨all, value.trans ?_⟩
      rw [positional, read, getD_some, show n / 10 * 10 + n % 10 = n by omega]

theorem digits_from_head (fuel n : Nat) (tail : Bytes) (enough : n < fuel) (pos : 0 < n) :
    ∃ c rest, Decimal.digitsFrom fuel n tail = c :: rest ∧ c ≠ 48 := by
  induction fuel generalizing n tail with
  | zero => omega
  | succ fuel ih =>
    unfold Decimal.digitsFrom
    split
    · rename_i last
      refine ⟨Decimal.digit (n % 10), tail, rfl, fun zero => ?_⟩
      have value := Decimal.digit_to_nat (n % 10) (Nat.mod_lt n (by omega))
      rw [zero] at value
      have : (48 : UInt8).toNat = 48 := rfl
      omega
    · exact ih (n / 10) _ (by omega) (by omega)

theorem base_of_printed (n : Nat) : ∃ base, (2 ≤ base ∧ base ≤ 36) ∧ baseOf 0 (Decimal.digits n) = (base, Decimal.digits n) ∧
    Digits base (Decimal.digits n) ∧ positional base 0 (Decimal.digits n) = n := by
  by_cases zero : n = 0
  · subst zero
    exact ⟨8, by omega, by decide, by unfold Digits; decide, by decide⟩
  · obtain ⟨c, rest, shape, nonzero⟩ := digits_from_head (n + 1) n [] (by omega) (by omega)
    obtain ⟨all, value⟩ := digits_from_digits (n + 1) n [] (by omega) (fun c mem => absurd mem not_mem_nil)
    refine ⟨10, by omega, ?_, all, value⟩
    rw [Decimal.digits, shape, base_of_decimal c rest nonzero]

theorem strtol_printed (pos : 0 < w) (narrow : w ≤ 64) {v : Int} (low : -(2 ^ (w - 1) : Nat) ≤ v)
    (high : v < (2 ^ (w - 1) : Nat)) :
    strtol w ((if v < 0 then [45] else []) ++ Decimal.digits v.natAbs) 0 = (v, []) := by
  obtain ⟨base, valid, based, digits, value⟩ := base_of_printed v.natAbs
  obtain ⟨c, rest, shape, digit⟩ := Decimal.digits_cons v.natAbs
  have digit : isdigit c = true := by
    rw [isdigit_iff]
    simpa [Decimal.isDigit] using digit
  have stop : NoDigit base [] := by simp [NoDigit]
  have spelled := sign_spelled c rest (decide (v < 0)) digit
  simp only [decide_eq_true_eq, ← shape] at spelled
  have read := strtol_reads w pos narrow spelled.1
    spelled.2 (by rw [append_nil]; exact based) valid (by rw [shape]; exact cons_ne_nil c rest) digits stop
  obtain ⟨some_room, _⟩ := half_bounds w narrow
  rw [read, value, clampLong, longMax, Prod.mk.injEq]
  simp only [decide_eq_true_eq, and_true]
  split <;> omega

end Spicule.Strtol
