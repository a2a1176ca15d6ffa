import Spicule.Lib.Decimal
import Spicule.Diff.Hunks

namespace Spicule.Diff
open Decimal

def printRange (r0 r1 : Nat) (sep : UInt8) : Bytes :=
  if r0 = r1 then digits r0
  else if r1 = r0 + 1 then digits (r0 + 1)
  else digits (r0 + 1) ++ sep :: digits r1

def printUnifiedRange (r0 r1 : Nat) : Bytes :=
  let count := r1 - r0
  if count = 0 then digits r0 ++ ascii ",0"
  else if count = 1 then digits (r0 + 1)
  else digits (r0 + 1) ++ ascii "," ++ digits count

-- `none` is a read past the end of the line array.
def printCtxline (pfx : Bytes) (file : TextFile) (idx : Nat) : Option Bytes := do
  let line ← file.lines[idx]?
  some (pfx ++ line ++ ascii "\n" ++
    if file.noeol && decide (idx + 1 = file.lines.length) then ascii "\\ No newline at end of file\n" else [])

def printCtxlines (pfx : Bytes) (file : TextFile) : Nat → Nat → Option Bytes
  | 0, _ => some []
  | count + 1, idx => do
      let line ← printCtxline pfx file idx
      let rest ← printCtxlines pfx file count (idx + 1)
      some (line ++ rest)

def printDefaultHunk (a b : TextFile) (h : Hunk) : Option Bytes := do
  let aEmpty := h.a0 == h.a1
  let bEmpty := h.b0 == h.b1
  let cmd := if aEmpty then ascii "a" else if bEmpty then ascii "d" else ascii "c"
  let old ← printCtxlines (ascii "< ") a (h.a1 - h.a0) h.a0
  let new ← printCtxlines (ascii "> ") b (h.b1 - h.b0) h.b0
  some (printRange h.a0 h.a1 44 ++ cmd ++ printRange h.b0 h.b1 44 ++ ascii "\n" ++
    old ++ (if !aEmpty && !bEmpty then ascii "---\n" else []) ++ new)

def printDefault (a b : TextFile) : List Hunk → Option Bytes
  | [] => some []
  | h :: rest => do
      let text ← printDefaultHunk a b h
      let later ← printDefault a b rest
      some (text ++ later)

def printLineBodies (file : TextFile) : Nat → Nat → Option Bytes
  | 0, _ => some []
  | count + 1, idx => do
      let line ← file.lines[idx]?
      let rest ← printLineBodies file count (idx + 1)
      some (line ++ ascii "\n" ++ rest)

def printEdHunk (b : TextFile) (h : Hunk) : Option Bytes :=
  if h.b0 = h.b1 then some (printRange h.a0 h.a1 44 ++ ascii "d\n")
  else do
    let body ← printLineBodies b (h.b1 - h.b0) h.b0
    let head := if h.a0 = h.a1 then digits h.a0 ++ ascii "a\n" else printRange h.a0 h.a1 44 ++ ascii "c\n"
    some (head ++ body ++ ascii ".\n")

-- An ed script runs from the last hunk to the first.
def printEd (b : TextFile) : List Hunk → Option Bytes
  | [] => some []
  | h :: rest => do
      let later ← printEd b rest
      let text ← printEdHunk b h
      some (later ++ text)

def printFalt (b : TextFile) : List Hunk → Option Bytes
  | [] => some []
  | h :: rest => do
      let text ←
        if h.b0 = h.b1 then some (ascii "d" ++ printRange h.a0 h.a1 32 ++ ascii "\n")
        else do
          let body ← printLineBodies b (h.b1 - h.b0) h.b0
          let head :=
            if h.a0 = h.a1 then ascii "a" ++ digits h.a0 ++ ascii "\n"
            else ascii "c" ++ printRange h.a0 h.a1 32 ++ ascii "\n"
          some (head ++ body ++ ascii ".\n")
      let later ← printFalt b rest
      some (text ++ later)

inductive Side where
  | sideA
  | sideB
deriving DecidableEq, Repr

def contextPrefix (side : Side) (h : Hunk) : Option Bytes :=
  match side with
  | .sideA => if h.b0 = h.b1 then some (ascii "- ") else if h.a0 = h.a1 then none else some (ascii "! ")
  | .sideB => if h.a0 = h.a1 then some (ascii "+ ") else if h.b0 = h.b1 then none else some (ascii "! ")

def printContextSide (side : Side) (file : TextFile) (stop : Nat) : List Hunk → Nat → Option Bytes
  | [], pos => printCtxlines (ascii "  ") file (stop - pos) pos
  | h :: rest, pos => do
      let hs := match side with | .sideA => h.a0 | .sideB => h.b0
      let he := match side with | .sideA => h.a1 | .sideB => h.b1
      let lead ← printCtxlines (ascii "  ") file (hs - pos) pos
      let own ← match contextPrefix side h with
        | none => some []
        | some pfx => printCtxlines pfx file (he - hs) hs
      let later ← printContextSide side file stop rest he
      some (lead ++ own ++ later)

def printContextGroup (a b : TextFile) (g : Group) : Option Bytes := do
  let anyA := g.hunks.any fun h => h.a0 != h.a1
  let anyB := g.hunks.any fun h => h.b0 != h.b1
  let old ← if anyA then printContextSide .sideA a g.ga1 g.hunks g.ga0 else some []
  let new ← if anyB then printContextSide .sideB b g.gb1 g.hunks g.gb0 else some []
  some (ascii "***************\n" ++ ascii "*** " ++ printRange g.ga0 g.ga1 44 ++ ascii " ****\n" ++ old ++
    ascii "--- " ++ printRange g.gb0 g.gb1 44 ++ ascii " ----\n" ++ new)

def printUnifiedHunks (a b : TextFile) (ga1 : Nat) : List Hunk → Nat → Option Bytes
  | [], posA => printCtxlines (ascii " ") a (ga1 - posA) posA
  | h :: rest, posA => do
      let lead ← printCtxlines (ascii " ") a (h.a0 - posA) posA
      let old ← printCtxlines (ascii "-") a (h.a1 - h.a0) h.a0
      let new ← printCtxlines (ascii "+") b (h.b1 - h.b0) h.b0
      let later ← printUnifiedHunks a b ga1 rest h.a1
      some (lead ++ old ++ new ++ later)

def printUnifiedGroup (a b : TextFile) (g : Group) : Option Bytes := do
  let body ← printUnifiedHunks a b g.ga1 g.hunks g.ga0
  some (ascii "@@ -" ++ printUnifiedRange g.ga0 g.ga1 ++ ascii " +" ++ printUnifiedRange g.gb0 g.gb1 ++ ascii " @@\n" ++
    body)

def printGroups (print : Group → Option Bytes) : List Group → Option Bytes
  | [] => some []
  | g :: rest => do
      let text ← print g
      let later ← printGroups print rest
      some (text ++ later)

inductive DiffFmt where
  | fmtDefault
  | fmtContext
  | fmtUnified
  | fmtEd
  | fmtFalt
deriving DecidableEq, Repr

structure DiffOpts where
  fmt : DiffFmt
  bflag : Bool
  context : Nat
deriving DecidableEq, Repr

-- The timestamps' formats hold no newline.
structure Operand where
  label : Bytes
  ctxTimestamp : Bytes
  unifiedTimestamp : Bytes
  ctxOneLine : newline ∉ ctxTimestamp
  unifiedOneLine : newline ∉ unifiedTimestamp

def printBody (opts : DiffOpts) (left right : Operand) (a b : TextFile) (hunks : List Hunk) : Option Bytes :=
  match opts.fmt with
  | .fmtDefault => printDefault a b hunks
  | .fmtEd => printEd b hunks
  | .fmtFalt => printFalt b hunks
  | .fmtContext => do
      let body ← printGroups (printContextGroup a b) (buildGroups hunks opts.context a.lines.length b.lines.length)
      some (ascii "*** " ++ left.label ++ ascii "\t" ++ left.ctxTimestamp ++ ascii "\n" ++
        ascii "--- " ++ right.label ++ ascii "\t" ++ right.ctxTimestamp ++ ascii "\n" ++ body)
  | .fmtUnified => do
      let body ← printGroups (printUnifiedGroup a b) (buildGroups hunks opts.context a.lines.length b.lines.length)
      some (ascii "--- " ++ left.label ++ ascii "\t" ++ left.unifiedTimestamp ++ ascii "\n" ++
        ascii "+++ " ++ right.label ++ ascii "\t" ++ right.unifiedTimestamp ++ ascii "\n" ++ body)

def lineInAnyHunkA (hunks : List Hunk) (idx : Nat) : Bool := hunks.any fun h => h.a0 ≤ idx && idx < h.a1

def lineInAnyHunkB (hunks : List Hunk) (idx : Nat) : Bool := hunks.any fun h => h.b0 ≤ idx && idx < h.b1

structure DiffResult where
  result : Nat
  out : Bytes
  diagnostics : List Bytes
deriving DecidableEq, Repr

def noeolDiagnostic (operand : Operand) : Bytes := ascii "diff: " ++ operand.label ++ ascii ": No newline at end of file\n"

-- An ed script cannot say that a line lacks its newline.
def noeolDiagnostics (opts : DiffOpts) (left right : Operand) (a b : TextFile) (hunks : List Hunk) : List Bytes :=
  if opts.fmt = .fmtEd ∨ opts.fmt = .fmtFalt then
    (if a.noeol && decide (a.lines.length > 0) && lineInAnyHunkA hunks (a.lines.length - 1) then
      [noeolDiagnostic left] else []) ++
    (if b.noeol && decide (b.lines.length > 0) && lineInAnyHunkB hunks (b.lines.length - 1) then
      [noeolDiagnostic right] else [])
  else []

-- The comparison of two files that could be read, outside a directory walk.
def diffFiles (opts : DiffOpts) (left right : Operand) (buf1 buf2 : Bytes) : Option DiffResult := do
  let a := splitLines buf1
  let b := splitLines buf2
  let ops ← myersBuildOps a b opts.bflag
  let hunks := buildHunks ops
  if hunks.length = 0 then some ⟨0, [], []⟩
  else do
    let out ← printBody opts left right a b hunks
    let diagnostics := noeolDiagnostics opts left right a b hunks
    some ⟨if diagnostics.length = 0 then 1 else 2, out, diagnostics⟩

end Spicule.Diff
