import Spicule.Diff.Lines
import Spicule.Strtol
import Spicule.Time.Gmtime

namespace Spicule.Cron
open List Ctype Strtol Time
open Diff (ascii)

structure Field where
  lo : Nat
  hi : Nat
  names : Option (List Bytes)
  spelled : ∀ list ∈ names, list.Nodup ∧ list.length = hi + 1 - lo ∧ ∀ name ∈ list, name.length = 3

def Field.dow7 (f : Field) : Bool := f.lo == 0 && f.hi == 6

def Field.top (f : Field) : Nat := if f.dow7 then 7 else f.hi

def Field.slot (f : Field) (v : Nat) : Nat := if f.dow7 && v == 7 then 0 else v

def monthNames : List Bytes :=
  [ascii "jan", ascii "feb", ascii "mar", ascii "apr", ascii "may", ascii "jun",
    ascii "jul", ascii "aug", ascii "sep", ascii "oct", ascii "nov", ascii "dec"]

def dowNames : List Bytes :=
  [ascii "sun", ascii "mon", ascii "tue", ascii "wed", ascii "thu", ascii "fri", ascii "sat"]

def minuteField : Field := ⟨0, 59, none, fun _ none_of => nomatch none_of⟩

def hourField : Field := ⟨0, 23, none, fun _ none_of => nomatch none_of⟩

def domField : Field := ⟨1, 31, none, fun _ none_of => nomatch none_of⟩

def monthField : Field := ⟨1, 12, some monthNames, fun list here => by cases here; decide⟩

def dowField : Field := ⟨0, 6, some dowNames, fun list here => by cases here; decide⟩

def sameLetters (text name : Bytes) : Bool :=
  tolower (text.getD 0 0) == name.getD 0 0 && tolower (text.getD 1 0) == name.getD 1 0 &&
    tolower (text.getD 2 0) == name.getD 2 0

def matchName (f : Field) (text : Bytes) : Option Nat :=
  match f.names with
  | none => none
  | some names =>
    if text.length ≠ 3 then none
    else (List.range' f.lo (f.hi + 1 - f.lo)).find? fun i => sameLetters text (names.getD (i - f.lo) [])

def parseOne (f : Field) (p : Bytes) : Option (Nat × Bytes) :=
  if isalpha (p.headD 0) = true then (matchName f (p.takeWhile isalpha)).map fun v => (v, p.dropWhile isalpha)
  else if isdigit (p.headD 0) = false then none
  else
    match strtol 64 p 10 with
    | (v, stop) =>
      if stop = p then none
      else if v < f.lo ∨ f.top < v then none
      else some (v.toNat, stop)

def parseSpan (f : Field) (p : Bytes) : Option ((Nat × Nat) × Bytes) :=
  match p with
  | 42 :: rest => some ((f.lo, f.hi), rest)
  | _ =>
    match parseOne f p with
    | none => none
    | some (a, 45 :: rest) => (parseOne f rest).map fun (b, rest) => ((a, b), rest)
    | some (a, rest) => some ((a, a), rest)

def intMax : Int := 2 ^ 31 - 1

def parseStep (p : Bytes) : Option (Nat × Bytes) :=
  match p with
  | 47 :: rest =>
    if isdigit (rest.headD 0) = false then none
    else
      match strtol 64 rest 10 with
      | (s, stop) =>
        if stop = rest ∨ strtolErange 64 rest 10 = true ∨ s ≤ 0 ∨ intMax < s then none
        else some (s.toNat, stop)
  | _ => some (1, p)

structure Element where
  first : Nat
  last : Nat
  step : Nat
deriving DecidableEq

def parseElement (f : Field) (p : Bytes) : Option (Element × Bytes) :=
  match parseSpan f p with
  | none => none
  | some ((a, b), rest) =>
    match parseStep rest with
    | none => none
    | some (step, rest) => if b < a then none else some (⟨a, b, step⟩, rest)

-- The caller's array and every index that was written, also one past its end.
structure Table where
  cells : List Bool
  log : List Nat
deriving DecidableEq

def Table.write (out : Table) (i : Nat) : Table := ⟨out.cells.set i true, out.log ++ [i]⟩

-- The stride is tested before it is added, so that the sum stays an int.
def markFrom (f : Field) (last step : Nat) : Nat → Nat → Table → Table
  | 0, _, out => out
  | fuel + 1, v, out =>
    if (last : Int) - step < v then out.write (f.slot v)
    else markFrom f last step fuel (v + step) (out.write (f.slot v))

def mark (f : Field) (out : Table) (e : Element) : Table :=
  markFrom f e.last e.step (e.last + 1 - e.first) e.first out

def parseElements (f : Field) : Nat → Bytes → Table → Table × Bool
  | 0, _, out => (out, false)
  | fuel + 1, p, out =>
    match parseElement f p with
    | none => (out, false)
    | some (e, []) => (mark f out e, true)
    | some (e, c :: rest) => if c = 44 then parseElements f fuel rest (mark f out e) else (mark f out e, false)

def unmarked (f : Field) : Table := ⟨List.replicate (f.hi + 1) false, []⟩

def crontimeParseField (f : Field) (text : Bytes) : Table × Bool :=
  if text = [] then (unmarked f, false) else parseElements f (text.length + 1) text (unmarked f)

def accepted (f : Field) (text : Bytes) : Option (List Bool) :=
  match crontimeParseField f text with
  | (out, true) => some out.cells
  | (_, false) => none

structure Crontime where
  minute : List Bool
  hour : List Bool
  dom : List Bool
  month : List Bool
  dow : List Bool
  domIsStar : Bool
deriving DecidableEq

def star : Bytes := [42]

structure Schedule where
  min : Bytes
  hour : Bytes
  dom : Bytes
  mon : Bytes
  dow : Bytes

def crontimeParse (texts : Schedule) : Option Crontime := do
  let minute ← accepted minuteField texts.min
  let hour ← accepted hourField texts.hour
  let dom ← accepted domField texts.dom
  let month ← accepted monthField texts.mon
  let dow ← accepted dowField texts.dow
  return { minute, hour, dom, month, dow, domIsStar := texts.dom == star }

def set (out : List Bool) (v : Int) : Bool := out.getD v.toNat false

def crontimeMatches (e : Crontime) (t : Tm) : Bool :=
  if !set e.minute t.min || !set e.hour t.hour || !set e.month (t.mon + 1) then false
  else if e.domIsStar then set e.dow t.wday
  else set e.dom t.mday && set e.dow t.wday

variable {f : Field}

inductive Number (f : Field) : Bytes → Nat → Prop where
  | name (text : Bytes) (names : List Bytes) (i : Nat) (letters : ∀ c ∈ text, isalpha c = true)
      (known : f.names = some names) (here : names[i]? = some (text.map tolower)) : Number f text (f.lo + i)
  | digits (c : UInt8) (run : Bytes) (decimal : Digits 10 (c :: run)) (low : f.lo ≤ positional 10 0 (c :: run))
      (high : positional 10 0 (c :: run) ≤ f.top) : Number f (c :: run) (positional 10 0 (c :: run))

inductive Span (f : Field) : Bytes → Nat → Nat → Prop where
  | star : Span f [42] f.lo f.hi
  | one (text : Bytes) (a : Nat) (number : Number f text a) : Span f text a a
  | range (low high : Bytes) (a b : Nat) (first : Number f low a) (last : Number f high b) :
      Span f (low ++ 45 :: high) a b

inductive Spelled (f : Field) : Bytes → Element → Prop where
  | every (text : Bytes) (a b : Nat) (span : Span f text a b) (ordered : a ≤ b) : Spelled f text ⟨a, b, 1⟩
  | stepped (text : Bytes) (a b : Nat) (c : UInt8) (run : Bytes) (span : Span f text a b) (ordered : a ≤ b)
      (decimal : Digits 10 (c :: run)) (pos : 0 < positional 10 0 (c :: run))
      (small : positional 10 0 (c :: run) ≤ 2 ^ 31 - 1) :
      Spelled f (text ++ 47 :: c :: run) ⟨a, b, positional 10 0 (c :: run)⟩

inductive Listed (f : Field) : Bytes → List Element → Prop where
  | last (text : Bytes) (e : Element) (spelled : Spelled f text e) : Listed f text [e]
  | more (text rest : Bytes) (e : Element) (es : List Element) (spelled : Spelled f text e) (listed : Listed f rest es) :
      Listed f (text ++ 44 :: rest) (e :: es)

def Element.Covers (f : Field) (e : Element) (v : Nat) : Prop :=
  ∃ k, e.first + k * e.step ≤ e.last ∧ f.slot (e.first + k * e.step) = v

def Allows (f : Field) (text : Bytes) (v : Nat) : Prop := ∃ es, Listed f text es ∧ ∃ e ∈ es, e.Covers f v

def Next (marks : List UInt8) (rest : Bytes) : Prop := ∀ c ∈ rest.head?, c ∈ marks

theorem next_mono {fewer more : List UInt8} {rest : Bytes} (sub : fewer ⊆ more) (next : Next fewer rest) :
    Next more rest := fun c head => sub (next c head)

theorem next_cons {marks : List UInt8} {c : UInt8} (rest : Bytes) (mark : c ∈ marks) : Next marks (c :: rest) := by
  intro d head
  cases head
  exact mark

theorem next_no_word {rest : Bytes} (next : Next [45, 47, 44] rest) : NoWord rest := by
  intro c head
  have mark := next c head
  simp only [mem_cons, not_mem_nil, or_false] at mark
  rcases mark with rfl | rfl | rfl <;> decide

theorem same_letters_iff {text name : Bytes} (three : text.length = 3) (spelled : name.length = 3) :
    sameLetters text name = true ↔ name = text.map tolower := by
  match text, three with
  | [a, b, c], _ =>
    match name, spelled with
    | [x, y, z], _ =>
      simp only [sameLetters, getD_cons_zero, getD_cons_succ, Bool.and_eq_true, beq_iff_eq, map_cons,
        map_nil, List.cons.injEq, and_true]
      constructor
      · rintro ⟨⟨rfl, rfl⟩, rfl⟩
        exact ⟨rfl, rfl, rfl⟩
      · rintro ⟨rfl, rfl, rfl⟩
        exact ⟨⟨rfl, rfl⟩, rfl⟩

variable {v : Nat} {text : Bytes}
theorem match_name_some (found : matchName f text = some v) :
    ∃ names i, f.names = some names ∧ v = f.lo + i ∧ names[i]? = some (text.map tolower) := by
  unfold matchName at found
  cases known : f.names with
  | none => rw [known] at found; cases found
  | some names =>
    rw [known] at found
    dsimp only at found
    split at found
    · cases found
    · rename_i three
      obtain ⟨_, size, shape⟩ := f.spelled names (known ▸ rfl)
      have same := find?_some found
      obtain ⟨low, high⟩ := mem_range'_1.mp (mem_of_find?_eq_some found)
      have inside : v - f.lo < names.length := by omega
      rw [getD_eq_getElem names [] inside] at same
      have exact := (same_letters_iff (by omega) (shape _ (List.getElem_mem inside))).mp same
      exact ⟨names, v - f.lo, rfl, by omega, by rw [List.getElem?_eq_getElem inside, exact]⟩

theorem match_name_complete {names : List Bytes} {i : Nat} (known : f.names = some names)
    (here : names[i]? = some (text.map tolower)) : matchName f text = some (f.lo + i) := by
  obtain ⟨distinct, size, shape⟩ := f.spelled names (known ▸ rfl)
  obtain ⟨inside, same⟩ := List.getElem?_eq_some_iff.mp here
  have three : text.length = 3 := by
    have := shape _ (List.getElem_mem inside)
    rwa [same, length_map] at this
  simp only [matchName, known, three, ne_eq, not_true_eq_false, if_false]
  rw [find?_range'_eq_some]
  refine ⟨?_, ?_, ?_⟩
  · rw [getD_eq_getElem names [] (by omega : f.lo + i - f.lo < names.length)]
    rw [same_letters_iff three (shape _ (List.getElem_mem _))]
    simpa only [Nat.add_sub_cancel_left] using same
  · exact mem_range'_1.mpr (by omega)
  · intro j low high
    rw [getD_eq_getElem names [] (by omega : j - f.lo < names.length), Bool.not_eq_true', ← Bool.not_eq_true]
    rw [same_letters_iff three (shape _ (List.getElem_mem _)), ← same]
    intro twice
    have := (List.Nodup.getElem_inj_iff distinct).mp twice
    omega

variable (c : UInt8)
theorem digit_not_alpha (digit : isdigit c = true) : isalpha c = false := by
  rw [← Bool.not_eq_true, (class_ranges c).2.1]
  have := (isdigit_iff c).mp digit
  omega

theorem decimal_digit {run : Bytes} (decimal : Digits 10 (c :: run)) : isdigit c = true :=
  digit_in_decimal c ▸ decimal c mem_cons_self

variable (p : Bytes)
theorem strtol_run (digit : isdigit (p.headD 0) = true) : ∃ c run rest, p = c :: run ++ rest ∧
    Digits 10 (c :: run) ∧ NoDigit 10 rest := by
  cases p with
  | nil => cases digit
  | cons c p =>
    obtain ⟨run, rest, split, decimal, stop⟩ := digits_ahead_cons 10 c p (digit_in_decimal c ▸ digit)
    exact ⟨c, run, rest, by rw [split, cons_append], decimal, stop⟩

theorem shorter_rest {run rest : Bytes} : rest ≠ c :: run ++ rest := by
  intro same
  have := congrArg List.length same
  rw [length_append, length_cons] at this
  omega

theorem strtol_digits {run rest : Bytes} (decimal : Digits 10 (c :: run)) (stop : NoDigit 10 rest) :
    strtol 64 (c :: run ++ rest) 10 = (((min (positional 10 0 (c :: run)) (2 ^ 63 - 1) : Nat) : Int), rest) ∧
      strtolErange 64 (c :: run ++ rest) 10 = decide (2 ^ 63 - 1 < positional 10 0 (c :: run)) :=
  strtol_decimal 64 (by omega) (by omega) false c run rest decimal stop

theorem parse_one_digits {run rest : Bytes} (decimal : Digits 10 (c :: run)) (stop : NoDigit 10 rest)
    (bounded : f.top < 2 ^ 63 - 1) : parseOne f (c :: run ++ rest) =
      if positional 10 0 (c :: run) < f.lo ∨ f.top < positional 10 0 (c :: run) then none
      else some (positional 10 0 (c :: run), rest) := by
  have digit := decimal_digit c decimal
  have read := (strtol_digits c decimal stop).1
  simp only [parseOne, cons_append, headD_cons, digit_not_alpha c digit, digit, Bool.false_eq_true, if_false,
    Bool.true_eq_false]
  rw [← cons_append, read]
  simp only [if_neg (shorter_rest c)]
  generalize positional 10 0 (c :: run) = value
  by_cases outside : value < f.lo ∨ f.top < value
  · rw [if_pos outside, if_pos (by omega)]
  · rw [if_neg outside, if_neg (by omega), Option.some.injEq, Prod.mk.injEq]
    exact ⟨by omega, rfl⟩

theorem parse_one_sound {rest : Bytes} (bounded : f.top < 2 ^ 63 - 1)
    (parsed : parseOne f p = some (v, rest)) : ∃ token, p = token ++ rest ∧ Number f token v := by
  by_cases letter : isalpha (p.headD 0) = true
  · rw [parseOne, if_pos letter] at parsed
    obtain ⟨found, named, same⟩ := Option.map_eq_some_iff.mp parsed
    cases same
    obtain ⟨names, i, known, rfl, here⟩ := match_name_some named
    exact ⟨p.takeWhile isalpha, takeWhile_append_dropWhile.symm,
      .name _ names i (fun c mem => mem_takeWhile_imp mem) known here⟩
  · by_cases digit : isdigit (p.headD 0) = true
    · obtain ⟨c, run, tail, rfl, decimal, stop⟩ := strtol_run p digit
      rw [parse_one_digits c decimal stop bounded] at parsed
      split at parsed
      · cases parsed
      · rename_i inside
        cases parsed
        exact ⟨c :: run, rfl, .digits c run decimal (by omega) (by omega)⟩
    · rw [parseOne, if_neg letter, if_pos (Bool.not_eq_true _ ▸ digit)] at parsed
      cases parsed

variable {token : Bytes} (rest : Bytes)
theorem parse_one_complete (bounded : f.top < 2 ^ 63 - 1) (number : Number f token v)
    (next : Next [45, 47, 44] rest) : parseOne f (token ++ rest) = some (v, rest) := by
  have apart := next_no_word next
  cases number with
  | name _ names i letters known here =>
    have three : token.length = 3 := by
      obtain ⟨inside, same⟩ := List.getElem?_eq_some_iff.mp here
      have := (f.spelled names (known ▸ rfl)).2.2 _ (List.getElem_mem inside)
      rwa [same, length_map] at this
    have stops : ∀ c ∈ rest.head?, isalpha c = false := by
      intro c head
      have := apart c head
      rw [isalnum, Bool.or_eq_false_iff] at this
      exact this.1
    have taken : (token ++ rest).takeWhile isalpha = token ∧ (token ++ rest).dropWhile isalpha = rest := by
      rw [takeWhile_append_of_pos letters, dropWhile_append_of_pos letters]
      cases rest with
      | nil => simp
      | cons c rest => simp [stops c rfl]
    have first : isalpha ((token ++ rest).headD 0) = true := by
      cases token with
      | nil => cases three
      | cons c tail => exact letters c mem_cons_self
    rw [parseOne, if_pos first, taken.1, taken.2, match_name_complete known here]
    rfl
  | digits c run decimal low high =>
    rw [parse_one_digits c decimal (no_word_no_digit 10 rest apart) bounded, if_neg (by omega)]

theorem number_first (v : Nat) (number : Number f token v) (rest : Bytes) :
    ∃ c tail, token ++ rest = c :: tail ∧ isalnum c = true := by
  cases number with
  | name _ names i letters known here =>
    obtain ⟨inside, same⟩ := List.getElem?_eq_some_iff.mp here
    have three := (f.spelled names (known ▸ rfl)).2.2 _ (List.getElem_mem inside)
    rw [same, length_map] at three
    match token, three with
    | c :: tail, _ =>
      refine ⟨c, tail ++ rest, rfl, ?_⟩
      rw [isalnum, letters c mem_cons_self, Bool.true_or]
  | digits c run decimal low high =>
    refine ⟨c, run ++ rest, rfl, ?_⟩
    rw [isalnum, decimal_digit c decimal, Bool.or_true]

theorem parse_span_number (plain : p.head? ≠ some 42) : parseSpan f p = match parseOne f p with
    | none => none
    | some (a, 45 :: rest) => (parseOne f rest).map fun (b, rest) => ((a, b), rest)
    | some (a, rest) => some ((a, a), rest) := by
  unfold parseSpan
  split
  · exact absurd rfl plain
  · rfl

theorem parse_span_sound {a b : Nat} (bounded : f.top < 2 ^ 63 - 1)
    (parsed : parseSpan f p = some ((a, b), rest)) : ∃ token, p = token ++ rest ∧ Span f token a b := by
  by_cases star : p.head? = some 42
  · obtain ⟨tail, rfl⟩ := head?_eq_some_iff.mp star
    cases parsed
    exact ⟨[42], rfl, .star⟩
  · rw [parse_span_number p star] at parsed
    split at parsed
    · cases parsed
    · rename_i first tail one
      obtain ⟨⟨last, rest'⟩, two, same⟩ := Option.map_eq_some_iff.mp parsed
      cases same
      obtain ⟨low, rfl, number⟩ := parse_one_sound p bounded one
      obtain ⟨high, rfl, number'⟩ := parse_one_sound tail bounded two
      exact ⟨low ++ 45 :: high, by rw [append_assoc, cons_append], .range low high a b number number'⟩
    · rename_i one
      cases parsed
      obtain ⟨token, rfl, number⟩ := parse_one_sound p bounded one
      exact ⟨token, rfl, .one token a number⟩

variable (token) in
theorem parse_span_complete {a b : Nat} (bounded : f.top < 2 ^ 63 - 1) (span : Span f token a b)
    (next : Next [47, 44] rest) : parseSpan f (token ++ rest) = some ((a, b), rest) := by
  have plain : ∀ token v, Number f token v → ∀ rest : Bytes, (token ++ rest).head? ≠ some 42 := by
    intro token v number rest star
    obtain ⟨c, tail, shape, word⟩ := number_first v number rest
    rw [shape, head?_cons, Option.some.injEq] at star
    rw [star] at word
    cases word
  have wider : [47, 44] ⊆ ([45, 47, 44] : List UInt8) := by decide
  cases span with
  | star => rfl
  | one _ _ number =>
    have one := parse_one_complete rest bounded number (next_mono wider next)
    rw [parse_span_number _ (plain token a number rest), one]
    split
    · rename_i none_read
      cases none_read
    · rename_i first tail here
      cases here
      exact absurd (next 45 rfl) (by decide)
    · rename_i here
      cases here
      rfl
  | range low high _ _ first last =>
    rw [append_assoc, cons_append, parse_span_number _ (plain low a first _),
      parse_one_complete (45 :: (high ++ rest)) bounded first (next_cons _ (by decide))]
    simp only [parse_one_complete rest bounded last (next_mono wider next), Option.map_some]

theorem parse_step_digits {run rest : Bytes} (decimal : Digits 10 (c :: run)) (stop : NoDigit 10 rest) :
    parseStep (47 :: (c :: run ++ rest)) =
      if positional 10 0 (c :: run) = 0 ∨ 2 ^ 31 - 1 < positional 10 0 (c :: run) then none
      else some (positional 10 0 (c :: run), rest) := by
  have digit := decimal_digit c decimal
  obtain ⟨read, range⟩ := strtol_digits c decimal stop
  simp only [parseStep, cons_append, headD_cons, digit, Bool.true_eq_false, if_false]
  rw [← cons_append, read, range, intMax]
  simp only [shorter_rest c, false_or, decide_eq_true_eq]
  generalize positional 10 0 (c :: run) = value
  by_cases outside : value = 0 ∨ 2 ^ 31 - 1 < value
  · rw [if_pos outside, if_pos (by omega)]
  · rw [if_neg outside, if_neg (by omega), Option.some.injEq, Prod.mk.injEq]
    exact ⟨by omega, rfl⟩

theorem parse_step_absent (plain : p.head? ≠ some 47) : parseStep p = some (1, p) := by
  unfold parseStep
  split
  · exact absurd rfl plain
  · rfl

theorem parse_element_sound (e : Element) (bounded : f.top < 2 ^ 63 - 1)
    (parsed : parseElement f p = some (e, rest)) : ∃ token, p = token ++ rest ∧ Spelled f token e := by
  unfold parseElement at parsed
  split at parsed
  · cases parsed
  · rename_i a b tail spanned
    obtain ⟨token, rfl, span⟩ := parse_span_sound p tail bounded spanned
    split at parsed
    · cases parsed
    · rename_i step rest' stepped
      split at parsed
      · cases parsed
      · rename_i ordered
        cases parsed
        by_cases slash : tail.head? = some 47
        · obtain ⟨tail, rfl⟩ := head?_eq_some_iff.mp slash
          by_cases digit : isdigit (tail.headD 0) = true
          · obtain ⟨c, run, more, rfl, decimal, stop⟩ := strtol_run tail digit
            rw [parse_step_digits c decimal stop] at stepped
            split at stepped
            · cases stepped
            · rename_i inside
              cases stepped
              refine ⟨token ++ 47 :: c :: run, ?_, .stepped token a b c run span (by omega) decimal (by omega) (by omega)⟩
              rw [append_assoc]
              rfl
          · simp only [parseStep, if_pos (Bool.not_eq_true _ ▸ digit : isdigit (tail.headD 0) = false)] at stepped
            cases stepped
        · rw [parse_step_absent tail slash] at stepped
          cases stepped
          exact ⟨token, rfl, .every token a b span (by omega)⟩

theorem parse_element_complete {e : Element} (bounded : f.top < 2 ^ 63 - 1)
    (spelled : Spelled f token e) (next : Next [44] rest) : parseElement f (token ++ rest) = some (e, rest) := by
  cases spelled with
  | every _ a b span ordered =>
    have unstepped : rest.head? ≠ some 47 := by
      intro slash
      exact absurd (next 47 slash) (by decide)
    simp only [parseElement, parse_span_complete token rest bounded span (next_mono (by decide) next),
      parse_step_absent rest unstepped, if_neg (Nat.not_lt.mpr ordered)]
  | stepped text a b c run span ordered decimal pos small =>
    have stop := no_word_no_digit 10 rest (next_no_word (next_mono (by decide) next))
    have stepped := parse_step_digits c decimal stop
    rw [if_neg (by omega)] at stepped
    have spanned := parse_span_complete text (47 :: (c :: run ++ rest)) bounded span (next_cons _ (by decide))
    rw [append_assoc, cons_append]
    simp only [parseElement, spanned, stepped, if_neg (Nat.not_lt.mpr ordered)]

theorem parse_elements_sound (fuel : Nat) (p : Bytes) (out done : Table) (bounded : f.top < 2 ^ 63 - 1)
    (parsed : parseElements f fuel p out = (done, true)) : ∃ es, Listed f p es ∧ done = es.foldl (mark f) out := by
  induction fuel generalizing p out with
  | zero => cases parsed
  | succ fuel ih =>
    unfold parseElements at parsed
    split at parsed
    · cases parsed
    · rename_i e one
      cases parsed
      obtain ⟨token, rfl, spelled⟩ := parse_element_sound p [] e bounded one
      exact ⟨[e], by rw [append_nil]; exact .last token e spelled, rfl⟩
    · rename_i e c rest one
      split at parsed
      · rename_i comma
        subst comma
        obtain ⟨token, rfl, spelled⟩ := parse_element_sound p (44 :: rest) e bounded one
        obtain ⟨es, listed, marked⟩ := ih rest (mark f out e) parsed
        exact ⟨e :: es, .more token rest e es spelled listed, marked⟩
      · cases parsed

variable (es : List Element)
theorem parse_elements_complete (bounded : f.top < 2 ^ 63 - 1) (listed : Listed f p es) :
    ∀ fuel out, p.length < fuel → parseElements f fuel p out = (es.foldl (mark f) out, true) := by
  induction listed with
  | last text e spelled =>
    intro fuel out enough
    rcases fuel with _ | fuel
    · omega
    have one := parse_element_complete [] bounded spelled (fun c head => nomatch head)
    rw [append_nil] at one
    simp only [parseElements, one, foldl_cons, foldl_nil]
  | more text rest e es spelled listed ih =>
    intro fuel out enough
    rcases fuel with _ | fuel
    · omega
    rw [length_append, length_cons] at enough
    have one := parse_element_complete (44 :: rest) bounded spelled (next_cons _ (by decide))
    simp only [parseElements, one, if_true, ih fuel (mark f out e) (by omega), foldl_cons]

theorem set_true (out : List Bool) (slot i : Nat) (inside : i < out.length) :
    (out.set slot true).getD i false = true ↔ out.getD i false = true ∨ slot = i := by
  rw [getD_eq_getElem _ _ (by rwa [length_set]), getD_eq_getElem _ _ inside, List.getElem_set]
  split
  · rename_i same
    exact iff_of_true rfl (.inr same)
  · rename_i other
    exact ⟨.inl, fun either => either.resolve_right other⟩

theorem mark_from_length (last step fuel v : Nat) (out : Table) :
    (markFrom f last step fuel v out).cells.length = out.cells.length := by
  induction fuel generalizing v out with
  | zero => rfl
  | succ fuel ih =>
    unfold markFrom
    split
    · exact length_set
    · rw [ih, Table.write, length_set]

theorem mark_from_iff (last step fuel v : Nat) (out : Table) (i : Nat) (pos : 0 < step) (ordered : v ≤ last)
    (enough : last < fuel + v) (inside : i < out.cells.length) : (markFrom f last step fuel v out).cells.getD i false = true ↔
      out.cells.getD i false = true ∨ ∃ k, v + k * step ≤ last ∧ f.slot (v + k * step) = i := by
  induction fuel generalizing v out with
  | zero => omega
  | succ fuel ih =>
    unfold markFrom
    split
    · rename_i final
      rw [Table.write, set_true out.cells (f.slot v) i inside]
      refine or_congr Iff.rfl ⟨fun here => ⟨0, by omega, by rwa [Nat.zero_mul]⟩, ?_⟩
      rintro ⟨k, reached, here⟩
      cases k with
      | zero => rwa [Nat.zero_mul] at here
      | succ k =>
        rw [Nat.succ_mul] at reached
        omega
    · rename_i further
      rw [ih (v + step) _ (by omega) (by omega) (by rwa [Table.write, length_set]), Table.write, set_true out.cells (f.slot v) i inside, or_assoc]
      refine or_congr Iff.rfl ⟨?_, ?_⟩
      · rintro (here | ⟨k, reached, here⟩)
        · exact ⟨0, by omega, by rwa [Nat.zero_mul]⟩
        · have shifted : v + (k + 1) * step = v + step + k * step := by rw [Nat.succ_mul]; omega
          exact ⟨k + 1, by omega, by rwa [shifted]⟩
      · rintro ⟨k, reached, here⟩
        cases k with
        | zero => exact .inl (by rwa [Nat.zero_mul] at here)
        | succ k =>
          have shifted : v + (k + 1) * step = v + step + k * step := by rw [Nat.succ_mul]; omega
          exact .inr ⟨k, by omega, by rwa [shifted] at here⟩

theorem spelled_shape {e : Element} (spelled : Spelled f token e) : e.first ≤ e.last ∧ 0 < e.step := by
  cases spelled with
  | every _ a b span ordered => exact ⟨ordered, Nat.one_pos⟩
  | stepped text a b c run span ordered decimal pos small => exact ⟨ordered, pos⟩

theorem listed_shape (listed : Listed f p es) : ∀ e ∈ es, e.first ≤ e.last ∧ 0 < e.step := by
  induction listed with
  | last text e spelled =>
    intro other mem
    cases mem_singleton.mp mem
    exact spelled_shape spelled
  | more text rest e es spelled listed ih =>
    intro other mem
    cases mem_cons.mp mem with
    | inl same => exact same ▸ spelled_shape spelled
    | inr later => exact ih other later

theorem marks_iff (shape : ∀ e ∈ es, e.first ≤ e.last ∧ 0 < e.step) (out : Table) (i : Nat)
    (inside : i < out.cells.length) :
    (es.foldl (mark f) out).cells.getD i false = true ↔ out.cells.getD i false = true ∨ ∃ e ∈ es, e.Covers f i := by
  induction es generalizing out with
  | nil => simp
  | cons e es ih =>
    obtain ⟨ordered, pos⟩ := shape e mem_cons_self
    have one : (mark f out e).cells.getD i false = true ↔ out.cells.getD i false = true ∨ e.Covers f i :=
      mark_from_iff e.last e.step _ e.first out i pos ordered (by omega) inside
    rw [foldl_cons, ih (forall_mem_cons.mp shape).2 _ (by rw [mark, mark_from_length]; exact inside), one, or_assoc]
    simp only [mem_cons, exists_eq_or_imp]

theorem parse_field_listed (bounded : f.top < 2 ^ 63 - 1) (text : Bytes) (out : List Bool) :
    accepted f text = some out ↔ ∃ es, Listed f text es ∧ (es.foldl (mark f) (unmarked f)).cells = out := by
  constructor
  · intro parsed
    unfold accepted at parsed
    split at parsed
    · rename_i done here
      cases parsed
      unfold crontimeParseField at here
      split at here
      · cases here
      · obtain ⟨es, listed, rfl⟩ := parse_elements_sound _ text _ done bounded here
        exact ⟨es, listed, rfl⟩
    · cases parsed
  · rintro ⟨es, listed, rfl⟩
    have parsed := parse_elements_complete text es bounded listed (text.length + 1) (unmarked f) (Nat.lt_succ_self _)
    have nonempty : text ≠ [] := by
      rintro rfl
      cases congrArg Prod.snd parsed
    rw [accepted, crontimeParseField, if_neg nonempty, parsed]

theorem parse_field_allows {out : List Bool} (bounded : f.top < 2 ^ 63 - 1)
    (parsed : accepted f text = some out) (v : Nat) (inside : v ≤ f.hi) :
    out.getD v false = true ↔ Allows f text v := by
  have room : v < (unmarked f).cells.length := by rw [unmarked, length_replicate]; omega
  have clear : (unmarked f).cells.getD v false = false := by
    rw [getD_eq_getElem _ _ room]
    exact List.getElem_replicate _
  have marks : ∀ es, Listed f text es →
      ((es.foldl (mark f) (unmarked f)).cells.getD v false = true ↔ ∃ e ∈ es, e.Covers f v) := by
    intro es listed
    rw [marks_iff es (listed_shape text es listed) _ v room, clear]
    simp
  obtain ⟨es, listed, rfl⟩ := (parse_field_listed bounded text out).mp parsed
  constructor
  · exact fun marked => ⟨es, listed, (marks es listed).mp marked⟩
  · rintro ⟨other, read, covered⟩
    have again := (parse_field_listed bounded text _).mpr ⟨other, read, rfl⟩
    rw [parsed, Option.some.injEq] at again
    rw [again]
    exact (marks other read).mpr covered

theorem hi_le_top : f.hi ≤ f.top := by
  unfold Field.top Field.dow7
  split
  · rename_i week
    simp only [Bool.and_eq_true, beq_iff_eq] at week
    omega
  · exact Nat.le_refl _

theorem slot_inside (v : Nat) (within : v ≤ f.top) : f.slot v ≤ f.hi := by
  unfold Field.top at within
  unfold Field.slot
  split
  · exact Nat.zero_le _
  · rename_i other
    rw [Bool.and_eq_true, beq_iff_eq] at other
    split at within
    · rename_i week
      have last : f.hi = 6 := by simpa using (Bool.and_eq_true_iff.mp week).2
      have : v ≠ 7 := fun seven => other ⟨week, seven⟩
      omega
    · exact within

theorem number_within (number : Number f token v) : v ≤ f.top := by
  cases number with
  | name _ names i letters known here =>
    have inside := (List.getElem?_eq_some_iff.mp here).1
    have size := (f.spelled names (known ▸ rfl)).2.1
    have := hi_le_top (f := f)
    omega
  | digits c run decimal low high => exact high

theorem span_within {a b : Nat} (span : Span f token a b) : b ≤ f.top := by
  cases span with
  | star => exact hi_le_top
  | one _ a number => exact number_within number
  | range low high a b first last => exact number_within last

theorem spelled_within (e : Element) (spelled : Spelled f token e) : e.last ≤ f.top := by
  cases spelled with
  | every _ a b span ordered => exact span_within span
  | stepped text a b c run span ordered decimal pos small => exact span_within span

def Table.Inside (f : Field) (out : Table) : Prop := ∀ i ∈ out.log, i ≤ f.hi

theorem write_inside {out : Table} (inside : out.Inside f) (within : v ≤ f.top) : (out.write (f.slot v)).Inside f := by
  intro i mem
  rcases mem_append.mp mem with before | here
  · exact inside i before
  · exact mem_singleton.mp here ▸ slot_inside v within

theorem mark_from_inside (last step fuel v : Nat) (out : Table) (within : last ≤ f.top) (ordered : v ≤ last)
    (inside : out.Inside f) : (markFrom f last step fuel v out).Inside f := by
  induction fuel generalizing v out with
  | zero => exact inside
  | succ fuel ih =>
    have written := write_inside inside (Nat.le_trans ordered within)
    unfold markFrom
    split
    · exact written
    · exact ih (v + step) _ (by omega) written

theorem parse_elements_inside (bounded : f.top < 2 ^ 63 - 1) (fuel : Nat) (p : Bytes) (out : Table)
    (inside : out.Inside f) : (parseElements f fuel p out).1.Inside f := by
  induction fuel generalizing p out with
  | zero => exact inside
  | succ fuel ih =>
    have marked : ∀ e rest, parseElement f p = some (e, rest) → (mark f out e).Inside f := by
      intro e rest parsed
      obtain ⟨token, _, spelled⟩ := parse_element_sound p rest e bounded parsed
      exact mark_from_inside _ _ _ _ out (spelled_within e spelled) (spelled_shape spelled).1 inside
    unfold parseElements
    split
    · exact inside
    · rename_i e one
      exact marked e [] one
    · rename_i e c rest one
      split
      · exact ih rest _ (marked e _ one)
      · exact marked e _ one

theorem accepted_iff : (crontimeParseField f text).2 = true ↔
    accepted f text = some (crontimeParseField f text).1.cells := by
  unfold accepted
  split <;> rename_i here <;> simp [here]

theorem parse_field_exact (f : Field) (int : f.hi < 2 ^ 31) (text : Bytes) :
    ((crontimeParseField f text).2 = true ↔ ∃ es, Listed f text es) ∧
    ((crontimeParseField f text).2 = true → (crontimeParseField f text).1.cells.length = f.hi + 1 ∧
      ∀ v ≤ f.hi, (crontimeParseField f text).1.cells.getD v false = true ↔ Allows f text v) ∧
    ∀ i ∈ (crontimeParseField f text).1.log, i ≤ f.hi := by
  have bounded : f.top < 2 ^ 63 - 1 := by
    unfold Field.top
    split <;> omega
  have marked : ∀ es : List Element, ∀ out, (es.foldl (mark f) out).cells.length = out.cells.length := by
    intro es
    induction es with
    | nil => exact fun out => rfl
    | cons e es ih => exact fun out => (ih (mark f out e)).trans (mark_from_length _ _ _ _ out)
  rw [accepted_iff]
  refine ⟨⟨?_, ?_⟩, ?_, ?_⟩
  · intro parsed
    obtain ⟨es, listed, _⟩ := (parse_field_listed bounded text _).mp parsed
    exact ⟨es, listed⟩
  · rintro ⟨es, listed⟩
    have parsed := (parse_field_listed bounded text _).mpr ⟨es, listed, rfl⟩
    refine accepted_iff.mp ?_
    unfold accepted at parsed
    split at parsed
    · rename_i here
      rw [here]
    · cases parsed
  · intro parsed
    refine ⟨?_, parse_field_allows bounded parsed⟩
    obtain ⟨es, _, same⟩ := (parse_field_listed bounded text _).mp parsed
    rw [← same, marked, unmarked, length_replicate]
  · have clear : (unmarked f).Inside f := fun i mem => nomatch mem
    unfold crontimeParseField
    split
    · exact clear
    · exact parse_elements_inside bounded _ text _ clear

-- "5-7/2": Friday and Sunday.
theorem parse_field_exact_weekend : crontimeParseField dowField (Diff.ascii "5-7/2") =
      (⟨[true, false, false, false, false, true, false], [5, 0]⟩, true) ∧
    ∀ v ≤ 6, [true, false, false, false, false, true, false].getD v false = true ↔
      Allows dowField (Diff.ascii "5-7/2") v :=
  ⟨by decide, ((parse_field_exact dowField (by decide) (Diff.ascii "5-7/2")).2.1 (by decide)).2⟩

end Spicule.Cron
