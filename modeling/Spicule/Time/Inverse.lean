import Spicule.Time.Bounded
import Spicule.Time.Strptime

namespace Spicule.Time
open List Option Ctype Decimal
open Diff (ascii)

inductive Conv where
  | year
  | century
  | yearOfCentury
  | month
  | monthName
  | mday
  | hour
  | hour12
  | ampm
  | min
  | sec
  | yday
deriving DecidableEq

def Conv.letter : Conv → UInt8
  | .year => 89
  | .century => 67
  | .yearOfCentury => 121
  | .month => 109
  | .monthName => 98
  | .mday => 100
  | .hour => 72
  | .hour12 => 73
  | .ampm => 112
  | .min => 77
  | .sec => 83
  | .yday => 106

inductive Item where
  | lit (c : UInt8)
  | conv (k : Conv)
deriving DecidableEq

def Item.format : Item → Bytes
  | .lit c => [c]
  | .conv k => [37, k.letter]

def formatOf (items : List Item) : Bytes := items.flatMap Item.format

structure Normal (tm : Tm) : Prop where
  sec : 0 ≤ tm.sec ∧ tm.sec ≤ 60
  min : 0 ≤ tm.min ∧ tm.min ≤ 59
  hour : 0 ≤ tm.hour ∧ tm.hour ≤ 23
  mday : 1 ≤ tm.mday ∧ tm.mday ≤ 31
  mon : 0 ≤ tm.mon ∧ tm.mon ≤ 11
  year : 0 ≤ tm.year + 1900 ∧ tm.year + 1900 ≤ 9999
  yday : 0 ≤ tm.yday ∧ tm.yday ≤ 365

def Conv.text (tm : Tm) : Conv → Bytes
  | .year => fixed 4 (tm.year + 1900).natAbs
  | .century => fixed 2 ((tm.year + 1900) / 100).natAbs
  | .yearOfCentury => fixed 2 ((tm.year + 1900) % 100).natAbs
  | .month => fixed 2 (tm.mon + 1).natAbs
  | .monthName => monthNameAbbr.getD tm.mon.toNat []
  | .mday => fixed 2 tm.mday.natAbs
  | .hour => fixed 2 tm.hour.natAbs
  | .hour12 => fixed 2 (Time.hour12 tm).natAbs
  | .ampm => Time.ampm tm
  | .min => fixed 2 tm.min.natAbs
  | .sec => fixed 2 tm.sec.natAbs
  | .yday => fixed 3 (tm.yday + 1).natAbs

def Item.text (tm : Tm) : Item → Bytes
  | .lit c => [c]
  | .conv k => k.text tm

def textOf (tm : Tm) (items : List Item) : Bytes := items.flatMap (Item.text tm)

section
variable (mktime : Tm → Option Int) (tm : Tm) {v : Int}
theorem num_text_fixed {width : Nat} (low : 0 ≤ v) (fits : v.natAbs < 10 ^ (width + 1)) (narrow : width < 24) :
    (Piece.num v (width + 1) 48).text = fixed (width + 1) v.natAbs := by
  rw [Piece.text, if_neg (Int.not_lt.mpr low), nil_append, numDigits, digits_padded _ _ fits,
    take_of_length_le (by rw [length_reverse, fixed_length]; omega), reverse_reverse]

theorem number_text_fixed {width automaticPlus : Nat} (low : 0 ≤ v) (fits : v.natAbs < 10 ^ (width + 1))
    (unsigned : automaticPlus = 0 ∨ automaticPlus = width + 1) :
    (Piece.number v (width + 1) false automaticPlus).text = fixed (width + 1) v.natAbs := by
  have short := digits_length _ _ fits
  have plain : (automaticPlus != 0 && decide (automaticPlus < (digits v.natAbs).length)) = false := by
    rcases unsigned with rfl | rfl
    · rfl
    · rw [decide_eq_false (by omega), Bool.and_false]
  rw [Piece.text, numberText, ← digits_padded _ _ fits]
  simp only [decide_eq_false (Int.not_lt.mpr low), Bool.false_and, Bool.false_or, Bool.and_assoc, plain, Bool.and_false,
    Bool.false_eq_true, if_false, nil_append, Nat.sub_zero]

theorem layout_plain (fuel : Nat) {c : UInt8} (f : Bytes) (unflagged : c ≠ 43 ∧ isDigit c = false)
    (unmodified : c ≠ 69 ∧ c ≠ 79) : layout mktime tm (fuel + 1) (37 :: c :: f) =
      conversion mktime tm ⟨false, false, 0⟩ c ++ layout mktime tm fuel f := by
  have nonzero : c ≠ 48 := by
    rintro rfl
    exact absurd unflagged.2 (by decide)
  have flags : readFlags (c :: f) = (⟨false, false, 0⟩, c :: f) := by
    simp [readFlags, unflagged.1, nonzero, readWidth, unflagged.2]
  have kept : skipModifier (c :: f) = c :: f := by
    cases f with
    | nil => rfl
    | cons d f => simp [skipModifier, unmodified.1, unmodified.2]
  rw [layout, if_neg (by decide), flags]
  simp only [kept]

theorem conv_unflagged (k : Conv) : (k.letter ≠ 43 ∧ isDigit k.letter = false) ∧ k.letter ≠ 69 ∧ k.letter ≠ 79 := by
  cases k <;> decide

theorem hour12_range (normal : Normal tm) : 1 ≤ hour12 tm ∧ hour12 tm ≤ 12 := by
  obtain ⟨low, high⟩ := normal.hour
  unfold hour12
  rw [Int.tmod_eq_emod_of_nonneg low]
  dsimp only
  split <;> omega

theorem two_digits (low : 0 ≤ v) (high : v ≤ 99) : [Piece.num v 2 48].flatMap Piece.text = fixed 2 v.natAbs := by
  rw [flatMap_singleton]
  exact num_text_fixed low (by omega) (by omega)

theorem conversion_text (normal : Normal tm) (k : Conv) :
    (conversion mktime tm ⟨false, false, 0⟩ k.letter).flatMap Piece.text = k.text tm := by
  obtain ⟨low, high⟩ := normal.year
  cases k with
  | year =>
    change [Piece.number (tm.year + 1900) 4 false 4].flatMap Piece.text = _
    rw [flatMap_singleton]
    exact number_text_fixed low (by omega) (.inr rfl)
  | century =>
    change [Piece.number (floordiv (tm.year + 1900) 100) 2 false 0].flatMap Piece.text = _
    rw [flatMap_singleton, floordiv_floor _ (by decide)]
    exact number_text_fixed (by omega) (by omega) (.inl rfl)
  | yearOfCentury =>
    change [Piece.num (floormod (tm.year + 1900) 100) 2 48].flatMap Piece.text = _
    rw [floormod_floor _ (by decide)]
    exact two_digits (by omega) (by omega)
  | month =>
    obtain ⟨low, high⟩ := normal.mon
    exact two_digits (by omega) (by omega)
  | monthName =>
    change [Piece.str (monthNameAbbr.getD (monOf tm).toNat [])].flatMap Piece.text = _
    obtain ⟨low, high⟩ := normal.mon
    rw [flatMap_singleton, monOf, if_pos (by omega)]
    rfl
  | mday =>
    obtain ⟨low, high⟩ := normal.mday
    exact two_digits (by omega) (by omega)
  | hour =>
    obtain ⟨low, high⟩ := normal.hour
    exact two_digits low (by omega)
  | hour12 =>
    obtain ⟨low, high⟩ := hour12_range tm normal
    exact two_digits (by omega) (by omega)
  | ampm => exact flatMap_singleton Piece.text (Piece.str (Time.ampm tm))
  | min =>
    obtain ⟨low, high⟩ := normal.min
    exact two_digits low (by omega)
  | sec =>
    obtain ⟨low, high⟩ := normal.sec
    exact two_digits low (by omega)
  | yday =>
    change [Piece.num (tm.yday + 1) 3 48].flatMap Piece.text = _
    obtain ⟨low, high⟩ := normal.yday
    rw [flatMap_singleton]
    exact num_text_fixed (by omega) (by omega) (by omega)

def Literal (c : UInt8) : Prop := c ≠ 0 ∧ c ≠ 37 ∧ isdigit c = false ∧ isspace c = false

theorem layout_items (normal : Normal tm) (items : List Item) (literals : ∀ c, .lit c ∈ items → Literal c) :
    ∀ fuel, items.length ≤ fuel → (layout mktime tm fuel (formatOf items)).flatMap Piece.text = textOf tm items ∧
      .fault ∉ layout mktime tm fuel (formatOf items) := by
  induction items with
  | nil =>
    intro fuel _
    cases fuel <;> exact ⟨rfl, not_mem_nil⟩
  | cons item items ih =>
    intro fuel enough
    obtain ⟨fuel, rfl⟩ : ∃ less, fuel = less + 1 := ⟨fuel - 1, by rw [length_cons] at enough; omega⟩
    obtain ⟨rest, sound⟩ := ih (fun c member => literals c (mem_cons_of_mem _ member)) fuel (Nat.le_of_succ_le_succ enough)
    cases item with
    | lit c =>
      have plain := (literals c mem_cons_self).2.1
      change (layout mktime tm (fuel + 1) (c :: formatOf items)).flatMap Piece.text = _ ∧
        _ ∉ layout mktime tm (fuel + 1) (c :: formatOf items)
      rw [layout, if_pos plain, flatMap_cons, rest, mem_cons, not_or]
      exact ⟨rfl, Piece.noConfusion, sound⟩
    | conv k =>
      change (layout mktime tm (fuel + 1) (37 :: k.letter :: formatOf items)).flatMap Piece.text = _ ∧
        _ ∉ layout mktime tm (fuel + 1) (37 :: k.letter :: formatOf items)
      rw [layout_plain mktime tm fuel _ (conv_unflagged k).1 (conv_unflagged k).2, flatMap_append,
        conversion_text mktime tm normal k, rest, mem_append, not_or, fault_conversion]
      exact ⟨rfl, by cases k <;> simp [Conv.letter], sound⟩

theorem format_length (items : List Item) : items.length ≤ (formatOf items).length := by
  induction items with
  | nil => rfl
  | cons item items ih =>
    rw [formatOf, flatMap_cons, length_append, length_cons]
    have : 1 ≤ item.format.length := by cases item <;> simp [Item.format]
    unfold formatOf at ih
    omega

theorem printed_items (normal : Normal tm) {items : List Item} (literals : ∀ c, .lit c ∈ items → Literal c) :
    printed mktime (formatOf items) tm = textOf tm items ∧
      .fault ∉ layout mktime tm (formatOf items).length (formatOf items) :=
  layout_items mktime tm normal _ literals _ (format_length items)

end

section
variable (localtimeR : Int → Option Tm) (tm : Tm)
theorem isdigit_is_digit (c : UInt8) : isdigit c = isDigit c := by
  rw [Bool.eq_iff_iff, isdigit_iff]
  simp only [isDigit, Bool.and_eq_true, decide_eq_true_eq]

theorem take_digits_fixed (width more n : Nat) (v : Int) (rest : Bytes) (fits : n < 10 ^ width) :
    takeDigits (width + more) v (fixed width n ++ rest) = takeDigits more (v * 10 ^ width + n) rest := by
  induction width generalizing more n rest with
  | zero =>
    obtain rfl : n = 0 := by omega
    simp [fixed]
  | succ width ih =>
    rw [Nat.pow_succ] at fits
    have small : n % 10 < 10 := Nat.mod_lt n (by omega)
    have split : width + 1 + more = width + (more + 1) := by omega
    rw [fixed, append_assoc, singleton_append, split, ih (more + 1) (n / 10) _ (by omega), takeDigits,
      isdigit_is_digit, is_digit_digit small, if_pos rfl, digit_to_nat _ small, Nat.add_sub_cancel_left]
    congr 1
    rw [Int.pow_succ, ← Int.mul_assoc]
    generalize v * 10 ^ width = high
    omega

variable (rest : Bytes)
theorem read_num_fixed {width n : Nat} (fits : n < 10 ^ (width + 1)) :
    readNum (fixed (width + 1) n ++ rest) (width + 1) = some ((n : Int), rest) := by
  obtain ⟨c, tail, shape⟩ : ∃ c tail, fixed (width + 1) n = c :: tail :=
    exists_cons_of_ne_nil (ne_nil_of_length_pos (by rw [fixed_length]; omega))
  have digit : isdigit c = true := isdigit_is_digit c ▸ fixed_all _ n c (shape ▸ mem_cons_self)
  have bounds := (isdigit_iff c).mp digit
  have unspaced : skipWs (fixed (width + 1) n ++ rest) = fixed (width + 1) n ++ rest := by
    rw [shape, cons_append, skipWs, dropWhile_cons, Strtol.digit_not_space c digit, if_neg Bool.false_ne_true]
  have unsigned : c ≠ 43 ∧ c ≠ 45 := by
    constructor <;> (rintro rfl; exact absurd bounds.1 (by decide))
  have taken := take_digits_fixed _ 0 n 0 rest fits
  rw [Nat.add_zero, Int.zero_mul, Int.zero_add, takeDigits] at taken
  rw [readNum, unspaced]
  simp only [shape, cons_append, head?_cons, some.injEq, unsigned.1, unsigned.2, if_false, headD_cons, digit, if_true]
  rw [← cons_append, ← shape, taken]
  simp

def monthRest : List Bytes :=
  [ascii "uary", ascii "ruary", ascii "ch", ascii "il", [], ascii "e", ascii "y", ascii "ust", ascii "tember",
    ascii "ober", ascii "ember", ascii "ember"]

def Completes (rest : Bytes) : Prop :=
  monthRest.getD tm.mon.toNat [] ≠ [] ∧ beginsWith rest (monthRest.getD tm.mon.toNat []) = true

theorem begins_append {a b : Bytes} (suffix : Bytes) (same : a.length = b.length) :
    beginsWith (a ++ rest) (b ++ suffix) = (a.map tolower == b.map tolower && beginsWith rest suffix) := by
  rw [Bool.eq_iff_iff, Bool.and_eq_true, beginsWith, beginsWith, beq_iff_eq, beq_iff_eq, beq_iff_eq, length_append,
    ← same, take_length_add_append, map_append, map_append]
  constructor
  · intro equal
    exact append_inj equal (by rw [length_map, length_map, same])
  · rintro ⟨left, right⟩
    rw [left, right]

theorem month_abbr_length : ∀ i < 12, (monthNameAbbr.getD i []).length = 3 := by decide

theorem month_abbr_apart : ∀ i < 12, ∀ j < 12,
    ((monthNameAbbr.getD i []).map tolower == (monthNameAbbr.getD j []).map tolower) = decide (i = j) := by
  decide +kernel

theorem month_name_split : ∀ i < 12, monthName.getD i [] = monthNameAbbr.getD i [] ++ monthRest.getD i [] := by decide

theorem begins_month {i j : Nat} (row : i < 12) (column : j < 12) :
    beginsWith (monthNameAbbr.getD i [] ++ rest) (monthName.getD j []) =
      (decide (i = j) && beginsWith rest (monthRest.getD j [])) := by
  rw [month_name_split j column, begins_append rest _ (by rw [month_abbr_length i row, month_abbr_length j column]),
    month_abbr_apart i row j column]

theorem begins_month_abbr {i j : Nat} (row : i < 12) (column : j < 12) :
    beginsWith (monthNameAbbr.getD i [] ++ rest) (monthNameAbbr.getD j []) = decide (i = j) := by
  rw [← append_nil (monthNameAbbr.getD j []),
    begins_append rest _ (by rw [month_abbr_length i row, month_abbr_length j column]), month_abbr_apart i row j column]
  simp [beginsWith]

theorem find_only {names : List Bytes} {test : Bytes → Bool} {i : Nat} (inside : i < names.length)
    (only : ∀ j < names.length, test (names.getD j []) = decide (i = j)) : names.findIdx? test = some i := by
  rw [findIdx?_eq_some_iff_getElem]
  refine ⟨inside, ?_, fun j before => ?_⟩
  · have here := only i inside
    rw [getD_eq_getElem _ _ inside] at here
    rw [here, decide_eq_true rfl]
  · have other := only j (by omega)
    rw [getD_eq_getElem _ _ (by omega), decide_eq_false (by omega)] at other
    rw [other]
    exact Bool.false_ne_true

theorem match_month {i : Nat} (row : i < 12)
    (apart : monthRest.getD i [] = [] ∨ beginsWith rest (monthRest.getD i []) = false) :
    matchName (monthNameAbbr.getD i [] ++ rest) monthName monthNameAbbr = some (i, rest) := by
  have abbr : monthNameAbbr.findIdx? (beginsWith (monthNameAbbr.getD i [] ++ rest)) = some i :=
    find_only row (fun j column => begins_month_abbr rest row column)
  have dropped : (monthNameAbbr.getD i [] ++ rest).drop 3 = rest := by
    rw [← month_abbr_length i row, drop_left]
  cases apart with
  | inl whole =>
    have full : monthName.findIdx? (beginsWith (monthNameAbbr.getD i [] ++ rest)) = some i := by
      refine find_only row (fun j column => ?_)
      rw [begins_month rest row column]
      by_cases same : i = j
      · rw [← same, whole]
        simp [beginsWith]
      · rw [decide_eq_false same, Bool.false_and]
    simp only [matchName, full, month_name_split i row, whole, append_nil, drop_left]
  | inr cut =>
    have none_full : monthName.findIdx? (beginsWith (monthNameAbbr.getD i [] ++ rest)) = none := by
      rw [findIdx?_eq_none_iff]
      intro name member
      obtain ⟨j, column, rfl⟩ := List.getElem_of_mem member
      rw [← getD_eq_getElem _ [] column, begins_month rest row column]
      by_cases same : i = j
      · rw [← same, cut, Bool.and_false]
      · rw [decide_eq_false same, Bool.false_and]
    simp only [matchName, none_full, abbr, map_some, dropped]

def Conv.effect (scan : Scan) : Conv → Scan
  | .year => { scan with tm.year := tm.year }
  | .century => centuryYear ((tm.year + 1900) / 100) scan
  | .yearOfCentury => shortYear ((tm.year + 1900) % 100) scan
  | .month => { scan with tm.mon := tm.mon }
  | .monthName => { scan with tm.mon := tm.mon }
  | .mday => { scan with tm.mday := tm.mday }
  | .hour => { scan with tm.hour := tm.hour }
  | .hour12 => { scan with tm.hour := Time.hour12 tm }
  | .ampm => { scan with pm := if tm.hour < 12 then 0 else 1 }
  | .min => { scan with tm.min := tm.min }
  | .sec => { scan with tm.sec := tm.sec }
  | .yday => { scan with tm.yday := tm.yday }

variable (scan : Scan)
theorem numeric_fixed (width : Nat) (v : Int) (rest : Bytes) (set : Int → Scan → Scan) (low : 0 ≤ v)
    (fits : v.natAbs < 10 ^ (width + 1)) :
    numeric { scan with s := fixed (width + 1) v.natAbs ++ rest } (width + 1) set = some (set v { scan with s := rest }) := by
  rw [numeric, read_num_fixed rest fits, map_some, Int.natAbs_of_nonneg low]

theorem simple_conv (normal : Normal tm) (k : Conv) (apart : k = .monthName → ¬ Completes tm rest) :
    simple localtimeR k.letter { scan with s := k.text tm ++ rest } = some (k.effect tm { scan with s := rest }) := by
  cases k with
  | year =>
    obtain ⟨low, high⟩ := normal.year
    have read := numeric_fixed scan 3 (tm.year + 1900) rest (fun v scan => { scan with tm.year := v - 1900 }) low
      (by omega)
    rwa [Int.add_sub_cancel] at read
  | century =>
    obtain ⟨low, high⟩ := normal.year
    exact numeric_fixed scan 1 _ rest centuryYear (by omega) (by omega)
  | yearOfCentury => exact numeric_fixed scan 1 _ rest shortYear (by omega) (by omega)
  | month =>
    obtain ⟨low, high⟩ := normal.mon
    have read := numeric_fixed scan 1 (tm.mon + 1) rest (fun v scan => { scan with tm.mon := v - 1 }) (by omega)
      (by omega)
    rwa [Int.add_sub_cancel] at read
  | monthName =>
    obtain ⟨low, high⟩ := normal.mon
    have open_end : monthRest.getD tm.mon.toNat [] = [] ∨ beginsWith rest (monthRest.getD tm.mon.toNat []) = false := by
      by_cases whole : monthRest.getD tm.mon.toNat [] = []
      · exact .inl whole
      · exact .inr (Bool.eq_false_iff.mpr (fun goes_on => apart rfl ⟨whole, goes_on⟩))
    have read := match_month rest (by omega) open_end
    change (matchName (monthNameAbbr.getD tm.mon.toNat [] ++ rest) monthName monthNameAbbr).map _ = _
    rw [read, map_some]
    dsimp only
    rw [Int.toNat_of_nonneg low]
    rfl
  | mday =>
    obtain ⟨low, high⟩ := normal.mday
    exact numeric_fixed scan 1 tm.mday rest (fun v scan => { scan with tm.mday := v }) (by omega) (by omega)
  | hour =>
    obtain ⟨low, high⟩ := normal.hour
    exact numeric_fixed scan 1 tm.hour rest (fun v scan => { scan with tm.hour := v }) (by omega) (by omega)
  | hour12 =>
    obtain ⟨low, high⟩ := hour12_range tm normal
    exact numeric_fixed scan 1 (Time.hour12 tm) rest (fun v scan => { scan with tm.hour := v }) (by omega) (by omega)
  | ampm =>
    change readDaytime { scan with s := Time.ampm tm ++ rest } = _
    unfold Time.ampm
    split
    · rename_i morning
      simp only [Conv.effect, if_pos morning]
      rfl
    · rename_i evening
      simp only [Conv.effect, if_neg evening]
      rfl
  | min =>
    obtain ⟨low, high⟩ := normal.min
    exact numeric_fixed scan 1 tm.min rest (fun v scan => { scan with tm.min := v }) (by omega) (by omega)
  | sec =>
    obtain ⟨low, high⟩ := normal.sec
    exact numeric_fixed scan 1 tm.sec rest (fun v scan => { scan with tm.sec := v }) (by omega) (by omega)
  | yday =>
    obtain ⟨low, high⟩ := normal.yday
    have read := numeric_fixed scan 2 (tm.yday + 1) rest (fun v scan => { scan with tm.yday := v - 1 }) (by omega)
      (by omega)
    rwa [Int.add_sub_cancel] at read

def Item.effect (scan : Scan) : Item → Scan
  | .lit _ => scan
  | .conv k => k.effect tm scan

def Apart (items : List Item) : Prop :=
  ∀ before after, items = before ++ .conv .monthName :: after → ¬ Completes tm (textOf tm after)

theorem apart_tail {item : Item} {items : List Item} (apart : Apart tm (item :: items)) : Apart tm items := by
  intro before after split
  exact apart (item :: before) after (by rw [split, cons_append])

theorem effect_cursor (k : Conv) (s : Bytes) : { k.effect tm scan with s } = k.effect tm { scan with s } := by
  cases k <;> rfl

theorem parse_items (normal : Normal tm) (items : List Item) (literals : ∀ c, .lit c ∈ items → Literal c)
    (apart : Apart tm items) : ∀ (fuel : Nat) (scan : Scan), items.length < fuel →
      parse localtimeR fuel (formatOf items) { scan with s := textOf tm items } =
        some (items.foldl (Item.effect tm) { scan with s := [] }) := by
  induction items with
  | nil =>
    intro fuel scan enough
    rcases fuel with _ | fuel
    · omega
    rfl
  | cons item items ih =>
    intro fuel scan enough
    rw [length_cons] at enough
    rcases fuel with _ | fuel
    · omega
    have later := ih (fun c member => literals c (mem_cons_of_mem _ member)) (apart_tail tm apart) fuel
    cases item with
    | lit c =>
      obtain ⟨_, plain, _, unspaced⟩ := literals c mem_cons_self
      change parse localtimeR (fuel + 1) (c :: formatOf items) { scan with s := c :: textOf tm items } = _
      rw [parse_literal localtimeR fuel c _ _ plain unspaced, if_pos head?_cons]
      exact later scan (by omega)
    | conv k =>
      have plain : composite k.letter = none := by cases k <;> rfl
      have read := simple_conv localtimeR tm (textOf tm items) scan normal k
        (fun named => apart [] items (by rw [named, nil_append]))
      change parse localtimeR (fuel + 1) (37 :: k.letter :: formatOf items)
        { scan with s := k.text tm ++ textOf tm items } = _
      rw [parse_simple localtimeR fuel k.letter _ _ plain, read, bind_some, ← effect_cursor tm scan k, later _ (by omega), effect_cursor]
      rfl

structure Tracks (done : List Conv) (scan : Scan) : Prop where
  century : scan.century = if .century ∈ done then (tm.year + 1900) / 100 else -1
  year2 : scan.year2 = if .yearOfCentury ∈ done then (tm.year + 1900) % 100 else -1
  pm : scan.pm = if .ampm ∈ done then (if tm.hour < 12 then 0 else 1) else -1
  year : (.century ∈ done ↔ .yearOfCentury ∈ done) → .year ∈ done ∨ .century ∈ done → scan.tm.year = tm.year
  mon : .month ∈ done ∨ .monthName ∈ done → scan.tm.mon = tm.mon
  mday : .mday ∈ done → scan.tm.mday = tm.mday
  hour : .hour ∈ done ∨ .hour12 ∈ done → scan.tm.hour = tm.hour ∨ .hour12 ∈ done ∧ scan.tm.hour = Time.hour12 tm
  min : .min ∈ done → scan.tm.min = tm.min
  sec : .sec ∈ done → scan.tm.sec = tm.sec
  yday : .yday ∈ done → scan.tm.yday = tm.yday

variable {tm}

variable {done : List Conv}
theorem effect_year (normal : Normal tm) {k : Conv} (tracks : Tracks tm done scan)
    (paired : .century ∈ k :: done ↔ .yearOfCentury ∈ k :: done) (known : .year ∈ k :: done ∨ .century ∈ k :: done) :
    (k.effect tm scan).tm.year = tm.year := by
  obtain ⟨low, high⟩ := normal.year
  have centuries := tracks.century
  have years := tracks.year2
  cases k with
  | year => rfl
  | century =>
    have seen : .yearOfCentury ∈ done := by simpa using paired
    rw [if_pos seen] at years
    simp only [Conv.effect, centuryYear, years]
    rw [if_pos (by omega)]
    omega
  | yearOfCentury =>
    have seen : .century ∈ done := by simpa using paired
    rw [if_pos seen] at centuries
    simp only [Conv.effect, shortYear, centuries]
    rw [if_pos (by omega)]
    omega
  | _ => exact tracks.year (by simpa using paired) (by simpa using known)

theorem effect_tracks (normal : Normal tm) (done : List Conv) (k : Conv) (tracks : Tracks tm done scan) :
    Tracks tm (k :: done) (k.effect tm scan) where
  century := by
    cases k <;> simp [Conv.effect, centuryYear, shortYear, tracks.century]
  year2 := by
    cases k <;> simp [Conv.effect, centuryYear, shortYear, tracks.year2]
  pm := by
    cases k <;> simp [Conv.effect, centuryYear, shortYear, tracks.pm]
  year := effect_year scan normal tracks
  mon known := by
    cases k with
    | month | monthName => rfl
    | _ => exact tracks.mon (by simpa using known)
  mday known := by
    cases k with
    | mday => rfl
    | _ => exact tracks.mday (by simpa using known)
  hour known := by
    cases k with
    | hour => exact .inl rfl
    | hour12 => exact .inr ⟨mem_cons_self, rfl⟩
    | _ => exact (tracks.hour (by simpa using known)).imp id (And.imp_left (mem_cons_of_mem _))
  min known := by
    cases k with
    | min => rfl
    | _ => exact tracks.min (by simpa using known)
  sec known := by
    cases k with
    | sec => rfl
    | _ => exact tracks.sec (by simpa using known)
  yday known := by
    cases k with
    | yday => rfl
    | _ => exact tracks.yday (by simpa using known)

def convsOf (items : List Item) : List Conv :=
  items.filterMap fun
    | .lit _ => none
    | .conv k => some k

theorem items_track (normal : Normal tm) (items : List Item) (done : List Conv) (scan : Scan)
    (tracks : Tracks tm done scan) :
    Tracks tm ((convsOf items).reverse ++ done) (items.foldl (Item.effect tm) scan) := by
  induction items generalizing done scan with
  | nil => exact tracks
  | cons item items ih =>
    cases item with
    | lit c => exact ih done scan tracks
    | conv k =>
      have later := ih (k :: done) (k.effect tm scan) (effect_tracks scan normal done k tracks)
      simpa [convsOf, Item.effect] using later

theorem items_cursor (items : List Item) (scan : Scan) : (items.foldl (Item.effect tm) scan).s = scan.s := by
  induction items generalizing scan with
  | nil => rfl
  | cons item items ih =>
    rw [foldl_cons, ih]
    cases item with
    | lit c => rfl
    | conv k => cases k <;> rfl

theorem nothing_tracked (pm : scan.pm = -1) (century : scan.century = -1) (year2 : scan.year2 = -1) :
    Tracks tm [] scan where
  century := century
  year2 := year2
  pm := pm
  year _ known := by simp at known
  mon known := by simp at known
  mday known := by simp at known
  hour known := by simp at known
  min known := by simp at known
  sec known := by simp at known
  yday known := by simp at known

structure Determined (convs : List Conv) (tm got : Tm) : Prop where
  year : .year ∈ convs ∨ .century ∈ convs → got.year = tm.year
  mon : .month ∈ convs ∨ .monthName ∈ convs → got.mon = tm.mon
  mday : .mday ∈ convs → got.mday = tm.mday
  hour : .hour ∈ convs ∨ .hour12 ∈ convs → got.hour = tm.hour
  min : .min ∈ convs → got.min = tm.min
  sec : .sec ∈ convs → got.sec = tm.sec
  yday : .yday ∈ convs → got.yday = tm.yday

structure Invertible (items : List Item) : Prop where
  literals : ∀ c, .lit c ∈ items → Literal c
  paired : .century ∈ convsOf items ↔ .yearOfCentury ∈ convsOf items
  daytime : .hour12 ∈ convsOf items → .ampm ∈ convsOf items

theorem settle_hour_only : ∃ hour, settleHour scan = { scan.tm with hour } := by
  unfold settleHour
  split
  · exact ⟨_, rfl⟩
  · split <;> exact ⟨_, rfl⟩

theorem settled_hour (normal : Normal tm) (tracks : Tracks tm done scan)
    (daytime : .hour12 ∈ done → .ampm ∈ done) (known : .hour ∈ done ∨ .hour12 ∈ done) :
    (settleHour scan).hour = tm.hour := by
  obtain ⟨low, high⟩ := normal.hour
  have half : Time.hour12 tm = if tm.hour % 12 ≠ 0 then tm.hour % 12 else 12 := by
    rw [Time.hour12, Int.tmod_eq_emod_of_nonneg low]
  have pm := tracks.pm
  unfold settleHour
  cases tracks.hour known with
  | inl whole =>
    have settled : ¬ (scan.pm = 1 ∧ scan.tm.hour < 12) ∧ ¬ (scan.pm = 0 ∧ scan.tm.hour = 12) := by
      by_cases marked : .ampm ∈ done
      · rw [if_pos marked] at pm
        by_cases morning : tm.hour < 12
        · rw [if_pos morning] at pm
          omega
        · rw [if_neg morning] at pm
          omega
      · rw [if_neg marked] at pm
        omega
    rw [if_neg settled.1, if_neg settled.2, whole]
  | inr twelve =>
    obtain ⟨seen, read⟩ := twelve
    rw [if_pos (daytime seen)] at pm
    rw [half] at read
    by_cases morning : tm.hour < 12
    · rw [if_pos morning] at pm
      rw [if_neg (by omega)]
      by_cases midnight : tm.hour % 12 = 0
      · rw [if_neg (by omega)] at read
        rw [if_pos ⟨pm, read⟩]
        dsimp only
        omega
      · rw [if_pos midnight] at read
        rw [if_neg (by omega), read]
        omega
    · rw [if_neg morning] at pm
      by_cases noon : tm.hour % 12 = 0
      · rw [if_neg (by omega)] at read
        rw [if_neg (by omega), if_neg (by omega), read]
        omega
      · rw [if_pos noon] at read
        rw [if_pos (by omega)]
        dsimp only
        omega

theorem tracked_determined (normal : Normal tm) {convs : List Conv} (tracks : Tracks tm done scan)
    (same : ∀ k, k ∈ done ↔ k ∈ convs) (paired : .century ∈ convs ↔ .yearOfCentury ∈ convs)
    (daytime : .hour12 ∈ convs → .ampm ∈ convs) : Determined convs tm (settleHour scan) := by
  simp only [← same] at paired daytime
  have hour := settled_hour scan normal tracks daytime
  obtain ⟨at_, settled⟩ := settle_hour_only scan
  rw [settled] at hour ⊢
  constructor <;> simp only [← same]
  · exact tracks.year paired
  · exact tracks.mon
  · exact tracks.mday
  · exact hour
  · exact tracks.min
  · exact tracks.sec
  · exact tracks.yday

theorem delivered_text {max : Nat} {text : Bytes} {result : Nat × List (Nat × UInt8)} (mem : Nat → UInt8)
    (delivers : Delivers max text result) (room : text.length < max) :
    (List.range result.1).map (store mem result.2) = text := by
  obtain ⟨size, holds⟩ := delivers.whole room
  refine ext_getElem (by rw [length_map, length_range, size]) (fun i _ inside => ?_)
  rw [List.getElem_map, List.getElem_range, holds mem i (by omega), getD_append _ _ _ _ inside,
    getD_eq_getElem _ _ inside]

theorem strptime_inverts_strftime (mktime : Tm → Option Int) (start : Tm) (normal : Normal tm) (items : List Item)
    (invertible : Invertible items) (apart : Apart tm items) (max : Nat) (mem : Nat → UInt8)
    (room : (printed mktime (formatOf items) tm).length < max) :
    ∃ result got, strftime mktime max (formatOf items) tm = some result ∧
      strptime localtimeR ((List.range result.1).map (store mem result.2)) (formatOf items) start = some ([], got) ∧
      Determined (convsOf items) tm got := by
  obtain ⟨shown, sound⟩ := printed_items mktime tm normal invertible.literals
  obtain ⟨result, ran, delivers⟩ := strftime_printed mktime max (formatOf items) tm sound
  rw [← delivered_text mem delivers room] at shown
  have long := format_length items
  have parsed := parse_items localtimeR tm normal items invertible.literals apart ((formatOf items).length + 22)
    ⟨textOf tm items, start, -1, -1, -1⟩ (by omega)
  have tracks := items_track normal items [] ⟨[], start, -1, -1, -1⟩ (nothing_tracked _ rfl rfl rfl)
  rw [append_nil] at tracks
  refine ⟨result, _, ran, ?_, tracked_determined _ normal tracks (fun k => mem_reverse) invertible.paired
    invertible.daytime⟩
  rw [shown, strptime, parsed, map_some, items_cursor]

end

def march : Tm :=
  { sec := 7, min := 30, hour := 15, mday := 9, mon := 2, year := 126, wday := 1, yday := 67, isdst := 0, gmtoff := 0,
    zone := "UTC" }

def unusual : List Item :=
  [.conv .ampm, .lit 124, .conv .hour12, .lit 58, .conv .min, .lit 58, .conv .sec, .lit 44, .conv .yearOfCentury,
    .conv .century, .lit 45, .conv .monthName, .lit 45, .conv .mday]

theorem march_normal : Normal march := by
  constructor <;> decide

theorem unusual_invertible : Invertible unusual where
  literals c member := by
    simp only [unusual, mem_cons, Item.lit.injEq, reduceCtorEq, not_mem_nil, or_false, false_or] at member
    rcases member with rfl | rfl | rfl | rfl | rfl | rfl <;> exact ⟨by decide, by decide, by decide, by decide⟩
  paired := by decide
  daytime := by decide

theorem unusual_apart : Apart march unusual := by
  intro before after split goes_on
  have position : ∀ n < 14, unusual[n]? = some (.conv .monthName) → n = 11 := by decide
  have here : unusual[before.length]? = some (.conv .monthName) := by
    rw [split, List.getElem?_append_right (Nat.le_refl _), Nat.sub_self, List.getElem?_cons_zero]
  have shorter : before.length < 14 := by
    have := congrArg List.length split
    rw [length_append, length_cons] at this
    change 14 = _ at this
    omega
  have at_ := position before.length shorter here
  have rest : after = [.lit 45, .conv .mday] := by
    have dropped := congrArg (List.drop 12) split
    have empty : before.drop 12 = [] := drop_eq_nil_of_le (by omega)
    rw [drop_append, at_, empty, nil_append] at dropped
    exact dropped.symm
  rw [rest] at goes_on
  exact absurd goes_on.2 (by decide)

theorem strptime_reads_unusual :
    Normal march ∧ Invertible unusual ∧ Apart march unusual ∧
      (printed (fun _ => none) (formatOf unusual) march).length < 64 ∧
      ∃ result got, strftime (fun _ => none) 64 (formatOf unusual) march = some result ∧
        strptime (fun _ => none) ((List.range result.1).map (store (fun _ => 0) result.2)) (formatOf unusual) march =
          some ([], got) ∧ Determined (convsOf unusual) march got := by
  have room : (printed (fun _ => none) (formatOf unusual) march).length < 64 := by decide +kernel
  exact ⟨march_normal, unusual_invertible, unusual_apart, room,
    strptime_inverts_strftime (fun _ => none) _ march march_normal _ unusual_invertible unusual_apart 64
      (fun _ => 0) room⟩

-- "%bch%d": the literals after the abbreviation are taken as the end of "March".
theorem march_swallowed : Normal march ∧ Invertible [.conv .monthName, .lit 99, .lit 104, .conv .mday] ∧
    formatOf [.conv .monthName, .lit 99, .lit 104, .conv .mday] = ascii "%bch%d" ∧
    printed (fun _ => none) (ascii "%bch%d") march = ascii "March09" ∧
    strptime (fun _ => none) (ascii "March09") (ascii "%bch%d") march = none := by
  refine ⟨march_normal, ⟨?_, by decide, by decide⟩, by decide, by decide +kernel, by decide +kernel⟩
  intro c member
  simp only [mem_cons, Item.lit.injEq, reduceCtorEq, not_mem_nil, or_false, false_or] at member
  rcases member with rfl | rfl <;> exact ⟨by decide, by decide, by decide, by decide⟩

end Spicule.Time
