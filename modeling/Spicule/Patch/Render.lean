import Spicule.Diff.Print
import Spicule.Patch.Apply

namespace Spicule.Patch
open List Option
open Diff
open Splice Decimal

structure Delimits (tail : Bytes) : Prop where
  noDigit : NoDigitAhead tail
  noComma : ∀ rest, tail ≠ 44 :: rest

theorem delimits_nil : Delimits [] where
  noDigit := by
    intro _ _ split
    cases split
  noComma := by
    intro _ split
    cases split

theorem delimits_cons (byte : UInt8) (rest : Bytes) (other : isDigit byte = false) (comma : byte ≠ 44) :
    Delimits (byte :: rest) := by
  constructor
  · intro head tail split
    cases split
    exact other
  · intro tail split
    cases split
    exact comma rfl

variable {tail : Bytes}
theorem parse_uint_digits {n : Nat} (fits : n ≤ longMax) (stop : NoDigitAhead tail) :
    parseUint (digits n ++ tail) = some (n, tail) := by
  have read := read_digits_digits fits stop
  obtain ⟨byte, rest, split, digit⟩ := digits_cons n
  rw [split, cons_append] at read ⊢
  rw [parseUint, if_pos digit, read]

theorem parse_second_absent (fallback : Nat) (delimits : Delimits tail) :
    parseSecond fallback tail = some (fallback, tail) := by
  unfold parseSecond
  split
  · exact absurd rfl (delimits.noComma _)
  · rfl

theorem parse_second_present {fallback n : Nat} (fits : n ≤ longMax) (stop : NoDigitAhead tail) :
    parseSecond fallback (44 :: (digits n ++ tail)) = some (n, tail) :=
  parse_uint_digits fits stop

theorem no_digit_comma (rest : Bytes) : NoDigitAhead (44 :: rest) := by
  intro head tail split
  cases split
  rfl

def rangeStart (r0 r1 : Nat) : Nat := if r0 = r1 then r0 else r0 + 1

def rangeStop (r0 r1 : Nat) : Nat := if r0 = r1 then r0 else r1

theorem parse_print_range {r0 r1 : Nat} {tail : Bytes} (order : r0 ≤ r1) (fits : r1 ≤ longMax)
    (delimits : Delimits tail) :
    ∃ mid, parseUint (printRange r0 r1 44 ++ tail) = some (rangeStart r0 r1, mid) ∧
      parseSecond (rangeStart r0 r1) mid = some (rangeStop r0 r1, tail) := by
  by_cases empty : r0 = r1
  · refine ⟨tail, ?_, ?_⟩
    · rw [printRange, if_pos empty, parse_uint_digits (by omega) delimits.noDigit, rangeStart, if_pos empty]
    · rw [parse_second_absent _ delimits, rangeStart, rangeStop, if_pos empty, if_pos empty]
  · by_cases single : r1 = r0 + 1
    · refine ⟨tail, ?_, ?_⟩
      · rw [printRange, if_neg empty, if_pos single, parse_uint_digits (by omega) delimits.noDigit,
          rangeStart, if_neg empty]
      · rw [parse_second_absent _ delimits, rangeStart, rangeStop, if_neg empty, if_neg empty, single]
    · refine ⟨44 :: (digits r1 ++ tail), ?_, ?_⟩
      · rw [printRange, if_neg empty, if_neg single, append_assoc, cons_append,
          parse_uint_digits (by omega) (no_digit_comma _), rangeStart, if_neg empty]
      · rw [parse_second_present fits delimits.noDigit, rangeStop, if_neg empty]

theorem parse_print_unified_range {r0 r1 : Nat} (tail : Bytes) (order : r0 ≤ r1) (fits : r1 ≤ longMax)
    (delimits : Delimits tail) :
    ∃ mid, parseUint (printUnifiedRange r0 r1 ++ tail) = some (rangeStart r0 r1, mid) ∧
      parseSecond 1 mid = some (r1 - r0, tail) := by
  by_cases empty : r0 = r1
  · refine ⟨44 :: (digits 0 ++ tail), ?_, ?_⟩
    · have text : printUnifiedRange r0 r1 ++ tail = digits r0 ++ 44 :: (digits 0 ++ tail) := by
        simp only [printUnifiedRange, empty, Nat.sub_self, if_true, append_assoc]
        rfl
      rw [text, parse_uint_digits (by omega) (no_digit_comma _), rangeStart, if_pos empty]
    · rw [parse_second_present (by omega) delimits.noDigit, empty, Nat.sub_self]
  · have filled : ¬ r1 - r0 = 0 := by omega
    by_cases single : r1 - r0 = 1
    · refine ⟨tail, ?_, ?_⟩
      · simp only [printUnifiedRange, if_neg filled, if_pos single]
        rw [parse_uint_digits (by omega) delimits.noDigit, rangeStart, if_neg empty]
      · rw [parse_second_absent _ delimits, single]
    · refine ⟨44 :: (digits (r1 - r0) ++ tail), ?_, ?_⟩
      · have text : printUnifiedRange r0 r1 ++ tail = digits (r0 + 1) ++ 44 :: (digits (r1 - r0) ++ tail) := by
          simp only [printUnifiedRange, if_neg filled, if_neg single, append_assoc]
          rfl
        rw [text, parse_uint_digits (by omega) (no_digit_comma _), rangeStart, if_neg empty]
      · rw [parse_second_present (by omega) delimits.noDigit]

def noNewlineLine : Bytes := ascii "\\ No newline at end of file"

def hopLines (pfx : Bytes) (p : Pline) : List Bytes := (pfx ++ p.text) :: if p.hasNl then [] else [noNewlineLine]

def ended (lines : List Bytes) : List Pline := lines.map fun line => ⟨line, true⟩

@[simp] theorem ended_nil : ended [] = [] := rfl

@[simp] theorem ended_cons (line : Bytes) (rest : List Bytes) : ended (line :: rest) = ⟨line, true⟩ :: ended rest := rfl

@[simp] theorem ended_append (first second : List Bytes) : ended (first ++ second) = ended first ++ ended second :=
  map_append

variable (pfx : Bytes) (file : TextFile)
theorem print_ctxline_join (idx : Nat) (bound : idx < file.lines.length) :
    ∃ p, (stored file.lines file.noeol)[idx]? = some p ∧ printCtxline pfx file idx = some (joinLines (hopLines pfx p)) := by
  refine ⟨_, stored_get file.lines file.noeol idx bound, ?_⟩
  by_cases last : (file.noeol && decide (idx + 1 = file.lines.length)) = true
  · simp only [printCtxline, List.getElem?_eq_getElem bound, bind_eq_bind, bind_some, last, if_true, hopLines,
      Bool.not_true, Bool.false_eq_true, if_false, join_lines_cons, join_lines_nil, append_assoc]
    rfl
  · simp only [printCtxline, List.getElem?_eq_getElem bound, bind_eq_bind, bind_some, last, hopLines, Bool.not_false, if_true, join_lines_cons, join_lines_nil, append_assoc]
    rfl

theorem print_ctxlines_join (count idx : Nat) (bound : idx + count ≤ file.lines.length) :
    printCtxlines pfx file count idx =
      some (joinLines ((slice (stored file.lines file.noeol) idx (idx + count)).flatMap (hopLines pfx))) := by
  induction count generalizing idx with
  | zero => simp [printCtxlines]
  | succ count ih =>
    obtain ⟨p, here, text⟩ := print_ctxline_join pfx file idx (by omega)
    have inside : idx < (stored file.lines file.noeol).length := by rw [stored_length]; omega
    obtain rfl : (stored file.lines file.noeol)[idx] = p := by
      rwa [List.getElem?_eq_getElem inside, some.injEq] at here
    have rest := ih (idx + 1) (by omega)
    rw [show idx + 1 + count = idx + (count + 1) by omega] at rest
    rw [slice_cons _ (by omega) inside, flatMap_cons, join_lines_append]
    simp only [printCtxlines, text, rest, bind_eq_bind, bind_some]

theorem print_span_join {i j : Nat} (order : i ≤ j) (bound : j ≤ file.lines.length) :
    printCtxlines pfx file (j - i) i =
      some (joinLines ((slice (stored file.lines file.noeol) i j).flatMap (hopLines pfx))) := by
  rw [print_ctxlines_join pfx file (j - i) i (by omega), Nat.add_sub_of_le order]

theorem starts_with_append (text : Bytes) : startsWith ⟨pfx ++ text, true⟩ pfx = true := by
  rw [startsWith, List.isPrefixOf_iff_prefix]
  exact prefix_append pfx text

theorem starts_with_other {byte other : UInt8} {rest more : Bytes} {hasNl : Bool} (different : byte ≠ other) :
    startsWith ⟨byte :: rest, hasNl⟩ (other :: more) = false := by
  simp [startsWith, List.isPrefixOf, Ne.symm different]

theorem slice_hop_lines (lines : List Bytes) (noeol : Bool) {i j : Nat} (bound : j ≤ lines.length) :
    (slice (stored lines noeol) i j).flatMap (hopLines pfx) =
      (slice (stored lines noeol) i j).map (fun p => pfx ++ p.text) ++
        if noeol = true ∧ i < j ∧ j = lines.length then [noNewlineLine] else [] := by
  induction gap : j - i generalizing i with
  | zero =>
    have empty : slice (stored lines noeol) i j = [] := by simp [slice, gap]
    rw [empty, if_neg (by omega)]
    rfl
  | succ gap' ih =>
    have inside : i < (stored lines noeol).length := by rw [stored_length]; omega
    have here := stored_get lines noeol i (by omega)
    rw [List.getElem?_eq_getElem inside, some.injEq] at here
    rw [slice_cons _ (by omega) inside, flatMap_cons, map_cons, ih (by omega), here]
    by_cases last : i + 1 = lines.length
    · obtain rfl : j = i + 1 := by omega
      cases noeol with
      | false => simp [hopLines]
      | true => simp [hopLines, last, show i < lines.length by omega]
    · have later : (noeol = true ∧ i + 1 < j ∧ j = lines.length) ↔ (noeol = true ∧ i < j ∧ j = lines.length) := by
        constructor <;> rintro ⟨eol, order, whole⟩ <;> exact ⟨eol, by omega, whole⟩
      simp [hopLines, last, later]

end Spicule.Patch
