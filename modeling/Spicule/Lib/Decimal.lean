import Mathlib

namespace Spicule.Decimal
open List Nat Bool

def digit (value : Nat) : UInt8 := UInt8.ofNat (48 + value)

def isDigit (byte : UInt8) : Bool := 48 ≤ byte.toNat && byte.toNat ≤ 57

def digitsFrom : Nat → Nat → List UInt8 → List UInt8
  | 0, _, tail => tail
  | fuel + 1, n, tail =>
    if n / 10 = 0 then digit (n % 10) :: tail else digitsFrom fuel (n / 10) (digit (n % 10) :: tail)

def digits (n : Nat) : List UInt8 := digitsFrom (n + 1) n []

def readDigits (max : Nat) (value : Nat) : List UInt8 → Option (Nat × List UInt8)
  | [] => some (value, [])
  | byte :: rest =>
    if isDigit byte then
      if value > (max - (byte.toNat - 48)) / 10 then none
      else readDigits max (value * 10 + (byte.toNat - 48)) rest
    else some (value, byte :: rest)

def NoDigitAhead (tail : List UInt8) : Prop := ∀ byte rest, tail = byte :: rest → isDigit byte = false

theorem digit_to_nat (value : Nat) (small : value < 10) : (digit value).toNat = 48 + value := by
  simp only [digit, UInt8.toNat_ofNat']
  omega

theorem is_digit_digit {value : Nat} (small : value < 10) : isDigit (digit value) = true := by
  simp only [isDigit, digit_to_nat value small, and_eq_true, decide_eq_true_eq]
  omega

theorem read_digits_step (max value : Nat) {d : Nat} (small : d < 10) (fits : value * 10 + d ≤ max) (tail : List UInt8) :
    readDigits max value (digit d :: tail) = readDigits max (value * 10 + d) tail := by
  have room : ¬ value > (max - d) / 10 := by omega
  simp only [readDigits, is_digit_digit small, digit_to_nat d small, Nat.add_sub_cancel_left, if_true, if_neg room]

theorem read_digits_from (max : Nat) (fuel n : Nat) (tail : List UInt8) (enough : n < fuel) (fits : n ≤ max) :
    readDigits max 0 (digitsFrom fuel n tail) = readDigits max n tail := by
  induction fuel generalizing n tail with
  | zero => omega
  | succ fuel ih =>
    have small : n % 10 < 10 := mod_lt n (by omega)
    by_cases last : n / 10 = 0
    · have whole : n % 10 = n := by omega
      rw [digitsFrom, if_pos last, read_digits_step max 0 small (by omega), zero_mul, zero_add, whole]
    · rw [digitsFrom, if_neg last, ih (n / 10) _ (by omega) (by omega),
        read_digits_step max (n / 10) small (by omega), div_add_mod']

theorem digits_from_append (fuel n : Nat) (tail : List UInt8) :
    digitsFrom fuel n tail = digitsFrom fuel n [] ++ tail := by
  induction fuel generalizing n tail with
  | zero => rfl
  | succ fuel ih =>
    by_cases last : n / 10 = 0
    · simp [digitsFrom, last]
    · rw [digitsFrom, if_neg last, digitsFrom, if_neg last, ih, ih _ [digit (n % 10)], append_assoc]
      rfl

theorem read_digits_stop {max value : Nat} {tail : List UInt8} (stop : NoDigitAhead tail) :
    readDigits max value tail = some (value, tail) := by
  cases tail with
  | nil => rfl
  | cons byte rest => simp [readDigits, stop byte rest rfl]

theorem read_digits_digits {max n : Nat} {tail : List UInt8} (fits : n ≤ max) (stop : NoDigitAhead tail) :
    readDigits max 0 (digits n ++ tail) = some (n, tail) := by
  rw [digits, ← digits_from_append, read_digits_from max (n + 1) n tail (by omega) fits, read_digits_stop stop]

theorem digits_from_all (fuel n : Nat) (tail : List UInt8) (all : ∀ byte ∈ tail, isDigit byte = true) :
    ∀ byte ∈ digitsFrom fuel n tail, isDigit byte = true := by
  induction fuel generalizing n tail with
  | zero => exact all
  | succ fuel ih =>
    have extended : ∀ byte ∈ digit (n % 10) :: tail, isDigit byte = true := by
      intro byte mem
      rcases mem_cons.mp mem with here | later
      · exact here ▸ is_digit_digit (mod_lt n (by omega))
      · exact all byte later
    by_cases last : n / 10 = 0
    · rw [digitsFrom, if_pos last]
      exact extended
    · rw [digitsFrom, if_neg last]
      exact ih (n / 10) _ extended

variable (n : Nat)
theorem digits_all : ∀ byte ∈ digits n, isDigit byte = true :=
  digits_from_all (n + 1) n [] (fun _ mem => absurd mem not_mem_nil)

theorem digits_cons : ∃ byte rest, digits n = byte :: rest ∧ isDigit byte = true := by
  have nonempty : digits n ≠ [] := by
    by_cases last : n / 10 = 0
    · simp [digits, digitsFrom, last]
    · rw [digits, digitsFrom, if_neg last, digits_from_append]
      simp
  obtain ⟨byte, rest, split⟩ := exists_cons_of_ne_nil nonempty
  exact ⟨byte, rest, split, digits_all n byte (split ▸ mem_cons_self)⟩

theorem digits_from_fuel (fuel more n : Nat) (tail : List UInt8) (enough : n < fuel) (also : n < more) :
    digitsFrom fuel n tail = digitsFrom more n tail := by
  induction fuel generalizing more n tail with
  | zero => omega
  | succ fuel ih =>
    rcases more with _ | more
    · omega
    by_cases last : n / 10 = 0
    · rw [digitsFrom, if_pos last, digitsFrom, if_pos last]
    · rw [digitsFrom, if_neg last, digitsFrom, if_neg last, ih more (n / 10) _ (by omega) (by omega)]

theorem digits_small (small : n < 10) : digits n = [digit n] := by
  rw [digits, digitsFrom, if_pos (by omega), mod_eq_of_lt small]

theorem digits_snoc (large : 10 ≤ n) : digits n = digits (n / 10) ++ [digit (n % 10)] := by
  rw [digits, digitsFrom, if_neg (by omega), digits_from_append, digits,
    digits_from_fuel n (n / 10 + 1) (n / 10) [] (by omega) (by omega)]

def fixed : Nat → Nat → List UInt8
  | 0, _ => []
  | width + 1, n => fixed width (n / 10) ++ [digit (n % 10)]

theorem fixed_length (width n : Nat) : (fixed width n).length = width := by
  induction width generalizing n with
  | zero => rfl
  | succ width ih => rw [fixed, length_append, ih, length_singleton]

theorem fixed_all (width n : Nat) : ∀ byte ∈ fixed width n, isDigit byte = true := by
  induction width generalizing n with
  | zero => exact fun byte mem => nomatch mem
  | succ width ih =>
    intro byte mem
    cases mem_append.mp mem with
    | inl high => exact ih (n / 10) byte high
    | inr low => exact mem_singleton.mp low ▸ is_digit_digit (mod_lt n (by omega))

theorem digits_padded (width n : Nat) (fits : n < 10 ^ (width + 1)) :
    List.replicate (width + 1 - (digits n).length) 48 ++ digits n = fixed (width + 1) n := by
  induction width generalizing n with
  | zero =>
    rw [digits_small n fits, fixed, fixed, mod_eq_of_lt (show n < 10 by simpa using fits)]
    rfl
  | succ width ih =>
    rw [fixed]
    by_cases small : n < 10
    · have zero := ih 0 (Nat.pow_pos (by omega))
      rw [digits_small 0 (by omega), length_singleton] at zero
      rw [div_eq_of_lt small, ← zero, digits_small n small, length_singleton, mod_eq_of_lt small,
        Nat.add_sub_cancel, Nat.add_sub_cancel, replicate_succ']
      rfl
    · rw [pow_succ] at fits
      rw [← ih (n / 10) (by omega), digits_snoc n (by omega), length_append, length_singleton,
        Nat.add_sub_add_right, append_assoc]

theorem digits_length (width n : Nat) (fits : n < 10 ^ (width + 1)) : (digits n).length ≤ width + 1 := by
  have padded := congrArg List.length (digits_padded width n fits)
  rw [fixed_length, length_append] at padded
  omega

def valueFrom (start : Nat) (run : List UInt8) : Nat := run.foldl (fun v c => v * 10 + (c.toNat - 48)) start

theorem value_from_ge (start : Nat) (run : List UInt8) : start ≤ valueFrom start run := by
  induction run generalizing start with
  | nil => exact le_refl start
  | cons c run ih =>
    have later := ih (start * 10 + (c.toNat - 48))
    rw [valueFrom, foldl_cons]
    unfold valueFrom at later
    omega

theorem value_from_snoc (start : Nat) (run : List UInt8) (c : UInt8) :
    valueFrom start (run ++ [c]) = valueFrom start run * 10 + (c.toNat - 48) := by
  rw [valueFrom, foldl_append]
  rfl

theorem is_digit_iff (c : UInt8) : isDigit c = true ↔ 48 ≤ c.toNat ∧ c.toNat ≤ 57 := by
  simp only [isDigit, and_eq_true, decide_eq_true_eq]

theorem digit_value {c : UInt8} (digital : isDigit c = true) : digit (c.toNat - 48) = c := by
  obtain ⟨low, high⟩ := (is_digit_iff c).mp digital
  rw [digit, Nat.add_sub_cancel' low, UInt8.ofNat_toNat]

theorem digits_value_from (run : List UInt8) (nonempty : run ≠ []) (all : ∀ c ∈ run, isDigit c = true)
    (lead : 1 < run.length → run.head? ≠ some 48) : digits (valueFrom 0 run) = run := by
  induction run using List.reverseRecOn with
  | nil => exact absurd rfl nonempty
  | append_singleton init last ih =>
    have digital := all last (mem_append_right _ (mem_singleton_self last))
    obtain ⟨low, high⟩ := (is_digit_iff last).mp digital
    rw [value_from_snoc]
    cases init with
    | nil =>
      rw [valueFrom, foldl_nil, zero_mul, zero_add, digits_small _ (by omega), digit_value digital]
      rfl
    | cons first rest =>
      have some_digit := all first (mem_append_left _ mem_cons_self)
      have nonzero : first ≠ 48 := by
        intro zero
        refine lead ?_ (by rw [zero]; rfl)
        rw [length_append, length_cons, length_singleton]
        omega
      have pos : 0 < first.toNat - 48 := by
        obtain ⟨low, high⟩ := (is_digit_iff first).mp some_digit
        have : first.toNat ≠ 48 := fun same => nonzero (UInt8.toNat_inj.mp same)
        omega
      have large : 0 < valueFrom 0 (first :: rest) := by
        have := value_from_ge (0 * 10 + (first.toNat - 48)) rest
        rw [valueFrom, foldl_cons]
        unfold valueFrom at this
        omega
      have front := ih (cons_ne_nil _ _) (fun c mem => all c (mem_append_left _ mem))
        (fun _ => by rwa [head?_cons, ne_eq, Option.some.injEq])
      have split : (valueFrom 0 (first :: rest) * 10 + (last.toNat - 48)) / 10 = valueFrom 0 (first :: rest) ∧
          (valueFrom 0 (first :: rest) * 10 + (last.toNat - 48)) % 10 = last.toNat - 48 := by omega
      rw [digits_snoc _ (by omega), split.1, split.2, front, digit_value digital]

theorem value_from_digits : valueFrom 0 (digits n) = n := by
  induction n using Nat.strongRecOn with
  | ind n ih =>
    by_cases small : n < 10
    · rw [digits_small n small, valueFrom, foldl_cons, foldl_nil, digit_to_nat n small]
      omega
    · rw [digits_snoc n (by omega), value_from_snoc, ih (n / 10) (by omega), digit_to_nat _ (mod_lt n (by omega))]
      omega

theorem digits_lead : 1 < (digits n).length → (digits n).head? ≠ some 48 := by
  induction n using Nat.strongRecOn with
  | ind n ih =>
    by_cases small : n < 10
    · rw [digits_small n small, length_singleton]
      exact fun longer => absurd longer (lt_irrefl 1)
    · intro _
      obtain ⟨first, rest, shape, _⟩ := digits_cons (n / 10)
      rw [digits_snoc n (by omega), shape, cons_append, head?_cons]
      by_cases one : n / 10 < 10
      · rw [digits_small _ one] at shape
        cases shape
        intro zero
        have := congrArg UInt8.toNat (Option.some.inj zero)
        rw [digit_to_nat _ one] at this
        change 48 + n / 10 = 48 at this
        omega
      · have before := ih (n / 10) (by omega)
        rw [shape, head?_cons] at before
        refine before ?_
        rw [← shape, digits_snoc (n / 10) (by omega), length_append, length_singleton]
        obtain ⟨c, tail, cons, _⟩ := digits_cons (n / 10 / 10)
        rw [cons, length_cons]
        omega

end Spicule.Decimal
