import Mathlib

namespace Spicule.Diff

abbrev Bytes := List UInt8

def newline : UInt8 := 10

def ascii (text : String) : Bytes := text.toList.map fun c => UInt8.ofNat c.toNat

structure TextFile where
  lines : List Bytes
  noeol : Bool
deriving DecidableEq, Repr

def splitLinesFrom (line : Bytes) : Bytes → TextFile
  | [] => if line = [] then ⟨[], false⟩ else ⟨[line], true⟩
  | byte :: rest =>
    if byte = newline then
      let tail := splitLinesFrom [] rest
      ⟨line :: tail.lines, tail.noeol⟩
    else splitLinesFrom (line ++ [byte]) rest

def splitLines (buf : Bytes) : TextFile := splitLinesFrom [] buf

def isBlankByte (byte : UInt8) : Bool := byte == 32 || byte == 9

def trimBlanks (line : Bytes) : Bytes := (line.reverse.dropWhile isBlankByte).reverse

theorem drop_blanks_shorter (byte : UInt8) (line : Bytes) (blank : isBlankByte byte = true) :
    ((byte :: line).dropWhile isBlankByte).length < (byte :: line).length := by
  rw [List.dropWhile_cons_of_pos blank]
  exact Nat.lt_succ_of_le (List.dropWhile_sublist isBlankByte).length_le

def linesEqualBFrom (a b : Bytes) : Bool :=
  match a, b with
  | [], [] => true
  | [], _ :: _ => false
  | _ :: _, [] => false
  | c :: a', d :: b' =>
    if _both : isBlankByte c = true ∧ isBlankByte d = true then
      linesEqualBFrom ((c :: a').dropWhile isBlankByte) ((d :: b').dropWhile isBlankByte)
    else if isBlankByte c ≠ isBlankByte d then false
    else if c ≠ d then false
    else linesEqualBFrom a' b'
termination_by a.length + b.length
decreasing_by
  · have shorterA := drop_blanks_shorter c a' _both.1
    have shorterB := drop_blanks_shorter d b' _both.2
    omega
  · simp only [List.length_cons]
    omega

def linesEqualB (a b : Bytes) : Bool := linesEqualBFrom (trimBlanks a) (trimBlanks b)

def dlineEqual (a b : Bytes) (bflag : Bool) : Bool :=
  if bflag then linesEqualB a b else a == b

def lineAt (lines : List Bytes) (index : Int) : Option Bytes :=
  if 0 ≤ index then lines[index.toNat]? else none

def truncatedAt (file : TextFile) (index : Int) : Bool :=
  file.noeol && decide (index + 1 = file.lines.length)

-- `none` is an access outside one of the two line arrays.
def linesEqualFinal (a b : TextFile) (bflag : Bool) (ai bi : Int) : Option Bool :=
  if truncatedAt a ai ≠ truncatedAt b bi then some false
  else do
    let left ← lineAt a.lines ai
    let right ← lineAt b.lines bi
    some (dlineEqual left right bflag)

theorem line_at_in_range {lines : List Bytes} {index : Nat} (bound : index < lines.length) :
    lineAt lines index = some lines[index] := by
  simp [lineAt, bound]

def sameLine (a b : TextFile) (bflag : Bool) (x y : Nat) : Bool :=
  linesEqualFinal a b bflag x y == some true

theorem lines_equal_final_in_range {a b : TextFile} (bflag : Bool) {x y : Nat}
    (left : x < a.lines.length) (right : y < b.lines.length) :
    linesEqualFinal a b bflag x y = some (sameLine a b bflag x y) := by
  unfold sameLine linesEqualFinal
  rw [line_at_in_range left, line_at_in_range right]
  by_cases trunc : truncatedAt a x = truncatedAt b y <;> simp [trunc]

end Spicule.Diff
