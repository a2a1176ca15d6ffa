import Spicule.Diff.Lines
import Spicule.Strtol

namespace Spicule.Csplit
open List
open Diff (Bytes ascii newline)

inductive Failure where
  | malformed | invalidRegex | noMatch | outOfRange
deriving DecidableEq, Repr

def putPat (patsz : Nat) (pat : Bytes) (c : UInt8) : Bytes := if pat.length + 1 < patsz then pat ++ [c] else pat

def scanPattern (delim : UInt8) (patsz : Nat) : Bytes → Bytes → Option (Bytes × Bytes)
  | [], _ => none
  | c :: rest, pat =>
    if c = delim then some (pat, rest)
    else if c = 92 then
      match rest with
      | [] => none
      | next :: rest => scanPattern delim patsz rest (putPat patsz pat next)
    else scanPattern delim patsz rest (putPat patsz pat c)

-- For targets whose long has 64 bits.
def extractDelimited (arg : Bytes) (delim : UInt8) (patsz : Nat) : Option (Bytes × Int) := do
  let (pat, rest) ← scanPattern delim patsz (arg.drop 1) []
  if rest = [] then some (pat, 0)
  else
    match Strtol.strtol 64 rest 10 with
    | (offset, []) => some (pat, offset)
    | _ => none

-- `regcomp` is none for a bad pattern; `regexec` sees a line up to its first NUL.
def findMatch (regcomp : Bytes → Option (Bytes → Bool)) (lines : List Bytes) (cur : Nat) (pattern : Bytes) :
    Except Failure Nat :=
  match regcomp pattern with
  | none => .error .invalidRegex
  | some regexec =>
    match (lines.drop cur).findIdx? fun text => regexec (text.takeWhile (· ≠ 0)) with
    | none => .error .noMatch
    | some i => .ok (cur + i)

def applyOffset (base : Nat) (offset : Int) (maximum : Nat) : Option Nat :=
  if maximum < base then none
  else if offset < 0 then if offset < -base then none else some (base - (-offset).toNat)
  else if maximum < base + offset.toNat then none else some (base + offset.toNat)

def selectLine (regcomp : Bytes → Option (Bytes → Bool)) (lines : List Bytes) (cur : Nat) (a : Bytes) :
    Except Failure Nat :=
  match extractDelimited a (a.headD 0) 512 with
  | none => .error .malformed
  | some (pat, offset) =>
    match findMatch regcomp lines cur pat with
    | .error e => .error e
    | .ok m =>
      match applyOffset m offset lines.length with
      | none => .error .outOfRange
      | some target => if target < cur then .error .outOfRange else .ok target

inductive Token where
  | byte (c : UInt8)
  | escape (c : UInt8)

def Token.text : Token → Bytes
  | .byte c => [c]
  | .escape c => [92, c]

def Token.last : Token → UInt8
  | .byte c => c
  | .escape c => c

def Token.meant (delim : UInt8) : Token → Bytes
  | .byte c => [c]
  | .escape c => if c = delim then [c] else [92, c]

def Token.Inside (delim : UInt8) : Token → Prop
  | .byte c => c ≠ delim ∧ c ≠ 92
  | .escape _ => True

def content (text : Bytes) : Bytes := if text.getLast? = some newline then text.dropLast else text

def agree (used meant : Bytes → Bool) : List Bytes → Bool
  | [] => true
  | text :: rest => used text == meant text && (used text || agree used meant rest)

-- What is compiled is the operand without its backslashes, cut to the array.
def compiled (regcomp : Bytes → Option (Bytes → Bool)) (tokens : List Token) (text : Bytes) : Bool :=
  (regcomp ((tokens.map Token.last).take 511)).any fun regexec => regexec (text.takeWhile (· ≠ 0))

def written (regcomp : Bytes → Option (Bytes → Bool)) (delim : UInt8) (tokens : List Token) (text : Bytes) : Bool :=
  (regcomp (tokens.flatMap (Token.meant delim))).any fun regexec => regexec (content text)

theorem put_pat_take {patsz : Nat} {pat : Bytes} (c : UInt8) (rest : Bytes) (fits : pat.length < patsz) :
    (putPat patsz pat c).length < patsz ∧
      (putPat patsz pat c ++ rest).take (patsz - 1) = (pat ++ c :: rest).take (patsz - 1) := by
  unfold putPat
  split
  · rename_i room
    exact ⟨by simp; omega, by simp⟩
  · rename_i full
    exact ⟨fits, by rw [take_append_of_le_length (by omega), take_append_of_le_length (by omega)]⟩

variable {delim : UInt8} {tokens : List Token}
theorem scan_pattern_tokens {patsz : Nat} (proper : delim ≠ 92) (inside : ∀ t ∈ tokens, t.Inside delim) (pat : Bytes)
    (fits : pat.length < patsz) : scanPattern delim patsz (tokens.flatMap Token.text ++ [delim]) pat =
      some ((pat ++ tokens.map Token.last).take (patsz - 1), []) := by
  induction tokens generalizing pat with
  | nil =>
    rw [map_nil, append_nil, take_of_length_le (by omega)]
    simp [scanPattern]
  | cons t tokens ih =>
    obtain ⟨own, inside⟩ := forall_mem_cons.mp inside
    obtain ⟨shorter, same⟩ := put_pat_take t.last (tokens.map Token.last) fits
    have later := ih inside (putPat patsz pat t.last) shorter
    rw [same] at later
    cases t with
    | byte c =>
      rw [flatMap_cons, Token.text, singleton_append, cons_append, scanPattern.eq_def]
      simpa [own.1, own.2, Token.last] using later
    | escape c => simpa [scanPattern, Token.text, proper.symm, Token.last] using later

theorem find_idx_agree (used meant : Bytes → Bool) (lines : List Bytes) :
    lines.findIdx? used = lines.findIdx? meant ↔ agree used meant lines = true := by
  induction lines with
  | nil => simp [agree]
  | cons text rest ih =>
    rw [findIdx?_cons, findIdx?_cons, agree]
    have apart : ∀ found : Option Nat, some 0 ≠ found.map (· + 1) := by simp [eq_comm]
    cases used text <;> cases meant text <;> simp [(Option.map_injective Nat.succ_injective).eq_iff, ih, apart]

theorem select_line_compiled (regcomp : Bytes → Option (Bytes → Bool)) (lines : List Bytes) (cur : Nat)
    (proper : delim = 47 ∨ delim = 37) (inside : ∀ t ∈ tokens, t.Inside delim) :
    (selectLine regcomp lines cur (delim :: (tokens.flatMap Token.text ++ [delim]))).toOption =
      ((lines.drop cur).findIdx? (compiled regcomp tokens)).map (cur + ·) := by
  have read := scan_pattern_tokens (by rcases proper with rfl | rfl <;> decide) inside [] (by decide : 0 < 512)
  simp only [selectLine, extractDelimited, headD_cons, drop_succ_cons, drop_zero, read, Option.bind_eq_bind,
    Option.bind_some, if_true, nil_append, findMatch]
  unfold compiled
  cases regcomp ((tokens.map Token.last).take (512 - 1)) with
  | none => simp [findIdx?_eq_none_iff, Except.toOption]
  | some regexec =>
    dsimp only [Option.any_some]
    cases found : (lines.drop cur).findIdx? fun text => regexec (text.takeWhile (· ≠ 0)) with
    | none => rfl
    | some i =>
      obtain ⟨bound, -⟩ := findIdx?_eq_some_iff_getElem.mp found
      rw [length_drop] at bound
      have kept : applyOffset (cur + i) 0 lines.length = some (cur + i) := by simp [applyOffset]; omega
      simp only [kept, if_neg (Nat.not_lt.mpr (Nat.le_add_right cur i))]
      rfl

-- Basic regular expressions of bytes, escaped bytes and dots.
def matchHere : Bytes → Bytes → Bool
  | [], _ => true
  | 92 :: c :: re, d :: s => c = d && matchHere re s
  | 46 :: re, _ :: s => matchHere re s
  | c :: re, d :: s => c = d && matchHere re s
  | _, [] => false

def matchDots (re s : Bytes) : Bool := s.tails.any (matchHere re)

end Spicule.Csplit
