import Spicule.Lib.Splice
import Spicule.Diff.Lines
import Spicule.Lib.Decimal

namespace Spicule.Patch
open List
open Diff

structure Pline where
  text : Bytes
  hasNl : Bool
deriving DecidableEq, Repr

def readLinesFrom (line : Bytes) : Bytes → List Pline
  | [] => if line = [] then [] else [⟨line, false⟩]
  | byte :: rest =>
    if byte = newline then ⟨line, true⟩ :: readLinesFrom [] rest else readLinesFrom (line ++ [byte]) rest

def readAllLines (buf : Bytes) : List Pline := readLinesFrom [] buf

def writeLinebufStream : List Pline → Bytes
  | [] => []
  | [line] => line.text ++ if line.hasNl then [newline] else []
  | line :: next :: rest => line.text ++ newline :: writeLinebufStream (next :: rest)

theorem write_linebuf_cons (line : Pline) (rest : List Pline) (ended : line.hasNl = true) :
    writeLinebufStream (line :: rest) = line.text ++ newline :: writeLinebufStream rest := by
  cases rest with
  | nil => simp [writeLinebufStream, ended]
  | cons next rest => rfl

variable (line buf : Bytes)
theorem write_read_from : writeLinebufStream (readLinesFrom line buf) = line ++ buf := by
  induction buf generalizing line with
  | nil =>
    by_cases empty : line = [] <;> simp [readLinesFrom, empty, writeLinebufStream]
  | cons byte rest ih =>
    by_cases ended : byte = newline
    · rw [readLinesFrom, if_pos ended, write_linebuf_cons _ _ rfl, ih [], ended, nil_append]
    · rw [readLinesFrom, if_neg ended, ih (line ++ [byte]), append_assoc]
      rfl

theorem write_read : writeLinebufStream (readAllLines buf) = buf := write_read_from [] buf

def joinLines (lines : List Bytes) : Bytes := lines.flatMap (· ++ [newline])

@[simp] theorem join_lines_nil : joinLines [] = [] := rfl

variable (rest : List Bytes)

@[simp] theorem join_lines_cons : joinLines (line :: rest) = line ++ newline :: joinLines rest := by
  simp [joinLines]

theorem join_lines_append (first second : List Bytes) :
    joinLines (first ++ second) = joinLines first ++ joinLines second := by
  simp [joinLines]

def OneLine (line : Bytes) : Prop := newline ∉ line

theorem read_lines_from_ended (text rest : Bytes) (whole : OneLine text) :
    readLinesFrom line (text ++ newline :: rest) = ⟨line ++ text, true⟩ :: readLinesFrom [] rest := by
  induction text generalizing line with
  | nil => simp [readLinesFrom]
  | cons byte tail ih =>
    have other : byte ≠ newline := fun same => whole (same ▸ mem_cons_self)
    have whole' : OneLine tail := fun mem => whole (mem_cons_of_mem byte mem)
    rw [cons_append, readLinesFrom, if_neg other, ih (line ++ [byte]) whole', append_assoc]
    rfl

variable (lines : List Bytes)
theorem read_join_lines (whole : ∀ line ∈ lines, OneLine line) :
    readAllLines (joinLines lines) = lines.map fun line => ⟨line, true⟩ := by
  induction lines with
  | nil => rfl
  | cons line rest ih =>
    rw [readAllLines, join_lines_cons, read_lines_from_ended [] line _ (whole line mem_cons_self)]
    exact congrArg _ (ih (forall_mem_cons.mp whole).2)

def stored : List Bytes → Bool → List Pline
  | [], _ => []
  | [line], noeol => [⟨line, !noeol⟩]
  | line :: next :: rest, noeol => ⟨line, true⟩ :: stored (next :: rest) noeol

theorem stored_cons (noeol : Bool) (ended : rest = [] → noeol = false) :
    stored (line :: rest) noeol = ⟨line, true⟩ :: stored rest noeol := by
  cases rest with
  | nil => simp [stored, ended rfl]
  | cons next rest => rfl

theorem split_lines_from_ended (none : (splitLinesFrom line buf).lines = []) :
    (splitLinesFrom line buf).noeol = false := by
  induction buf generalizing line with
  | nil =>
    by_cases empty : line = []
    · simp [splitLinesFrom, empty]
    · simp [splitLinesFrom, empty] at none
  | cons byte rest ih =>
    by_cases ended : byte = newline
    · simp [splitLinesFrom, ended] at none
    · simp only [splitLinesFrom, if_neg ended] at none ⊢
      exact ih _ none

theorem read_lines_from_stored :
    readLinesFrom line buf = stored (splitLinesFrom line buf).lines (splitLinesFrom line buf).noeol := by
  induction buf generalizing line with
  | nil =>
    by_cases empty : line = [] <;> simp [readLinesFrom, splitLinesFrom, empty, stored]
  | cons byte rest ih =>
    by_cases ended : byte = newline
    · simp only [readLinesFrom, splitLinesFrom, if_pos ended]
      rw [ih [], stored_cons line _ _ (split_lines_from_ended [] rest)]
    · simp only [readLinesFrom, splitLinesFrom, if_neg ended]
      exact ih _

theorem read_all_lines_stored : readAllLines buf = stored (splitLines buf).lines (splitLines buf).noeol :=
  read_lines_from_stored [] buf

variable (noeol : Bool)
theorem stored_text : (stored lines noeol).map Pline.text = lines := by
  fun_induction stored lines noeol with
  | case1 => rfl
  | case2 => rfl
  | case3 noeol line next rest ih => rw [map_cons, ih]

theorem stored_terminated : stored lines false = lines.map fun line => ⟨line, true⟩ := by
  induction lines with
  | nil => rfl
  | cons line rest ih => rw [stored_cons line rest false fun _ => rfl, ih, map_cons]

@[simp] theorem stored_length : (stored lines noeol).length = lines.length := by
  rw [← length_map (f := Pline.text), stored_text]

theorem stored_get (index : Nat) (bound : index < lines.length) :
    (stored lines noeol)[index]? = some ⟨lines[index], !(noeol && decide (index + 1 = lines.length))⟩ := by
  fun_induction stored lines noeol generalizing index with
  | case1 => exact absurd bound (Nat.not_lt_zero index)
  | case2 noeol line =>
    obtain rfl : index = 0 := by simpa using bound
    simp
  | case3 noeol line next rest ih =>
    cases index with
    | zero => simp
    | succ index =>
      rw [List.getElem?_cons_succ, ih index (by simpa using bound)]
      simp

theorem split_lines_from_one_line (start : OneLine line) :
    ∀ other ∈ (splitLinesFrom line buf).lines, OneLine other := by
  induction buf generalizing line with
  | nil =>
    by_cases empty : line = []
    · simp [splitLinesFrom, empty]
    · simpa [splitLinesFrom, empty] using start
  | cons byte rest ih =>
    by_cases ended : byte = newline
    · simp only [splitLinesFrom, if_pos ended, mem_cons, forall_eq_or_imp]
      exact ⟨start, ih [] not_mem_nil⟩
    · simp only [splitLinesFrom, if_neg ended]
      refine ih _ ?_
      simp only [OneLine, mem_append, mem_singleton, not_or]
      exact ⟨start, fun same => ended same.symm⟩

inductive HopKind where
  | hopCtx
  | hopDel
  | hopAdd
deriving DecidableEq, Repr

structure Hop where
  kind : HopKind
  p : Pline
deriving DecidableEq, Repr

structure Hunk where
  oldStart : Nat
  oldCount : Nat
  newStart : Nat
  newCount : Nat
  hops : List Hop
  oldNoNl : Bool
  newNoNl : Bool
deriving DecidableEq, Repr

structure Edcmd where
  a1 : Nat
  a2 : Nat
  op : UInt8
  text : List Pline
deriving DecidableEq, Repr

inductive DiffFormat where
  | fmtUnknown
  | fmtNormal
  | fmtContext
  | fmtUnified
  | fmtEd
deriving DecidableEq, Repr

structure Patchfile where
  fmt : DiffFormat
  oldName : Option Bytes
  newName : Option Bytes
  hunks : List Hunk
  eds : List Edcmd
deriving DecidableEq, Repr

-- A long of 64 bits.
def longMax : Nat := 2 ^ 63 - 1

def startsWith (pl : Pline) (text : Bytes) : Bool := text.isPrefixOf pl.text

def isAllStars (pl : Pline) : Bool := decide (3 ≤ pl.text.length) && pl.text.all (· == 42)

def parseUint (s : Bytes) : Option (Nat × Bytes) :=
  match s with
  | [] => none
  | byte :: _ => if Decimal.isDigit byte then Decimal.readDigits longMax 0 s else none

def parseSecond (fallback : Nat) (s : Bytes) : Option (Nat × Bytes) :=
  match s with
  | 44 :: rest => parseUint rest
  | _ => some (fallback, s)

structure NormalHeader where
  o1 : Nat
  o2 : Nat
  cmd : UInt8
  n1 : Nat
  n2 : Nat
deriving DecidableEq, Repr

def isCommand (byte : UInt8) : Bool := byte == 97 || byte == 99 || byte == 100

def isNormalHeader (pl : Pline) : Option NormalHeader := do
  let (o1, s) ← parseUint pl.text
  let (o2, s) ← parseSecond o1 s
  match s with
  | [] => none
  | cmd :: s =>
    if isCommand cmd then do
      let (n1, s) ← parseUint s
      let (n2, s) ← parseSecond n1 s
      if s = [] then some ⟨o1, o2, cmd, n1, n2⟩ else none
    else none

def isNormalHeaderLine (pl : Pline) : Bool := (isNormalHeader pl).isSome

def isEdHeader (pl : Pline) : Option (Nat × Nat × UInt8) := do
  let (a1, s) ← parseUint pl.text
  let (a2, s) ← parseSecond a1 s
  match s with
  | [op] => if isCommand op then some (a1, a2, op) else none
  | _ => none

def isEdHeaderLine (pl : Pline) : Bool := (isEdHeader pl).isSome

def expect (byte : UInt8) (s : Bytes) : Option Bytes :=
  match s with
  | [] => none
  | head :: rest => if head = byte then some rest else none

def parseAtHeader (pl : Pline) : Option (Nat × Nat × Nat × Nat) :=
  if startsWith pl (ascii "@@ -") then do
    let (o1, s) ← parseUint (pl.text.drop 4)
    let (oc, s) ← parseSecond 1 s
    let s ← expect 32 s
    let s ← expect 43 s
    let (n1, s) ← parseUint s
    let (nc, s) ← parseSecond 1 s
    let s ← expect 32 s
    let s ← expect 64 s
    let _ ← expect 64 s
    some (o1, oc, n1, nc)
  else none

def parseCtxRange (pl : Pline) (pfx sfx : Bytes) : Option (Nat × Nat) :=
  if pl.text.length < pfx.length + sfx.length then none
  else if !pfx.isPrefixOf pl.text then none
  else if !sfx.isSuffixOf pl.text then none
  else do
    let (lo, s) ← parseUint (pl.text.drop pfx.length)
    let (hi, s) ← parseSecond lo s
    if s.length = sfx.length then some (lo, hi) else none

-- The name ends at the first tab.
def parseNameLine (pl : Pline) (pfx : Bytes) : Option Bytes :=
  if startsWith pl pfx then some ((pl.text.drop pfx.length).takeWhile (· != 9)) else none

def rangeCount (lo hi : Nat) : Nat := if hi ≥ lo then hi - lo + 1 else 0

def takeMarked (kind : HopKind) (pfx : Bytes) : Nat → List Pline → Option (List Hop × List Pline)
  | 0, lines => some ([], lines)
  | _ + 1, [] => none
  | count + 1, pl :: rest =>
    if startsWith pl pfx then do
      let (hops, left) ← takeMarked kind pfx count rest
      some (⟨kind, ⟨pl.text.drop 2, true⟩⟩ :: hops, left)
    else none

def takeSeparator (cmd : UInt8) (lines : List Pline) : Option (List Pline) :=
  if cmd = 99 then
    match lines with
    | [] => none
    | pl :: rest => if pl.text = ascii "---" then some rest else none
  else some lines

def parseNormalHunk (lines : List Pline) : Option (Hunk × List Pline) :=
  match lines with
  | [] => none
  | head :: rest => do
      let h ← isNormalHeader head
      let oldCount := if h.cmd = 97 then 0 else rangeCount h.o1 h.o2
      let newCount := if h.cmd = 100 then 0 else rangeCount h.n1 h.n2
      let (dels, rest) ← takeMarked .hopDel (ascii "< ") oldCount rest
      let rest ← takeSeparator h.cmd rest
      let (adds, rest) ← takeMarked .hopAdd (ascii "> ") newCount rest
      some (⟨h.o1, oldCount, h.n1, newCount, dels ++ adds, false, false⟩, rest)

def parseNormalHunks : Nat → List Pline → Option (List Hunk × List Pline)
  | 0, lines => some ([], lines)
  | _ + 1, [] => some ([], [])
  | fuel + 1, pl :: rest =>
    if isNormalHeaderLine pl then do
      let (h, left) ← parseNormalHunk (pl :: rest)
      let (hunks, left) ← parseNormalHunks fuel left
      some (h :: hunks, left)
    else some ([], pl :: rest)

def parseNormalSection (lines : List Pline) : Option (Patchfile × List Pline) := do
  let (hunks, left) ← parseNormalHunks lines.length lines
  if hunks = [] then none else some (⟨.fmtNormal, none, none, hunks, []⟩, left)

def unifiedHop (pl : Pline) : Option Hop :=
  match pl.text with
  | [] => some ⟨.hopCtx, ⟨[], true⟩⟩
  | byte :: text =>
    if byte = 32 then some ⟨.hopCtx, ⟨text, true⟩⟩
    else if byte = 45 then some ⟨.hopDel, ⟨text, true⟩⟩
    else if byte = 43 then some ⟨.hopAdd, ⟨text, true⟩⟩
    else none

def Hop.unended (hop : Hop) : Hop := { hop with p := { hop.p with hasNl := false } }

-- The counters are longs: a context line may take one of them below zero.
def unifiedBody : List Pline → Int → Int → Option (List Hop × List Pline)
  | [], oleft, nleft => if oleft > 0 ∨ nleft > 0 then none else some ([], [])
  | pl :: rest, oleft, nleft =>
    if oleft > 0 ∨ nleft > 0 then do
      let hop ← unifiedHop pl
      let oleft := if hop.kind = .hopAdd then oleft else oleft - 1
      let nleft := if hop.kind = .hopDel then nleft else nleft - 1
      match rest with
      | [] => do
          let (hops, left) ← unifiedBody [] oleft nleft
          some (hop :: hops, left)
      | mark :: later =>
        if startsWith mark (ascii "\\ ") then do
          let (hops, left) ← unifiedBody later oleft nleft
          some (hop.unended :: hops, left)
        else do
          let (hops, left) ← unifiedBody (mark :: later) oleft nleft
          some (hop :: hops, left)
    else some ([], pl :: rest)

def parseUnifiedHunk (lines : List Pline) : Option (Hunk × List Pline) :=
  match lines with
  | [] => none
  | head :: rest => do
      let (o1, oc, n1, nc) ← parseAtHeader head
      let (hops, left) ← unifiedBody rest oc nc
      let oldNoNl := hops.any fun hop => !hop.p.hasNl && hop.kind != .hopAdd
      let newNoNl := hops.any fun hop => !hop.p.hasNl && hop.kind != .hopDel
      some (⟨o1, oc, n1, nc, hops, oldNoNl, newNoNl⟩, left)

def parseUnifiedHunks : Nat → List Pline → Option (List Hunk × List Pline)
  | 0, lines => some ([], lines)
  | _ + 1, [] => some ([], [])
  | fuel + 1, pl :: rest =>
    if startsWith pl (ascii "@@ -") then do
      let (h, left) ← parseUnifiedHunk (pl :: rest)
      let (hunks, left) ← parseUnifiedHunks fuel left
      some (h :: hunks, left)
    else some ([], pl :: rest)

def parseUnifiedSection (lines : List Pline) : Option (Patchfile × List Pline) :=
  match lines with
  | [] => none
  | [_] => none
  | first :: second :: rest => do
      let oldName ← parseNameLine first (ascii "--- ")
      let newName ← parseNameLine second (ascii "+++ ")
      let (hunks, left) ← parseUnifiedHunks rest.length rest
      if hunks = [] then none else some (⟨.fmtUnified, some oldName, some newName, hunks, []⟩, left)

def ctxSideKind (isOld : Bool) (pl : Pline) : Option HopKind :=
  if startsWith pl (ascii "  ") then some .hopCtx
  else if isOld && (startsWith pl (ascii "- ") || startsWith pl (ascii "! ")) then some .hopDel
  else if !isOld && (startsWith pl (ascii "+ ") || startsWith pl (ascii "! ")) then some .hopAdd
  else none

def parseCtxSideLines (isOld : Bool) : List Pline → List Hop × List Pline
  | [] => ([], [])
  | pl :: rest =>
    match ctxSideKind isOld pl with
    | none => ([], pl :: rest)
    | some kind =>
      let hop : Hop := ⟨kind, ⟨pl.text.drop 2, true⟩⟩
      match rest with
      | [] => ([hop], [])
      | mark :: later =>
        if startsWith mark (ascii "\\ ") then
          let (hops, left) := parseCtxSideLines isOld later
          (hop.unended :: hops, left)
        else
          let (hops, left) := parseCtxSideLines isOld (mark :: later)
          (hop :: hops, left)

-- Each round takes a context line, or the next old and then new lines; `none`: no rounds left.
def mergeContextSides : Nat → List Hop → List Hop → Option (List Hop)
  | _, [], [] => some []
  | 0, _, _ => none
  | fuel + 1, ⟨.hopCtx, p⟩ :: olds, news => do
      let news := match news with
        | ⟨.hopCtx, _⟩ :: later => later
        | _ => news
      let later ← mergeContextSides fuel olds news
      some (⟨.hopCtx, p⟩ :: later)
  | fuel + 1, olds, news => do
      let changed := fun hop : Hop => hop.kind != .hopCtx
      let later ← mergeContextSides fuel (olds.dropWhile changed) (news.dropWhile changed)
      some ((olds.takeWhile changed).map (fun hop => ⟨.hopDel, hop.p⟩) ++
        (news.takeWhile changed).map (fun hop => ⟨.hopAdd, hop.p⟩) ++ later)

def parseContextHunk (lines : List Pline) : Option (Hunk × List Pline) :=
  match lines with
  | stars :: range :: rest => do
      if !isAllStars stars then none
      let (olo, ohi) ← parseCtxRange range (ascii "*** ") (ascii " ****")
      let (oldb, rest) := parseCtxSideLines true rest
      match rest with
      | [] => none
      | range :: rest => do
          let (nlo, nhi) ← parseCtxRange range (ascii "--- ") (ascii " ----")
          let (newb, rest) := parseCtxSideLines false rest
          let hops ← mergeContextSides (oldb.length + newb.length) oldb newb
          some (⟨olo, rangeCount olo ohi, nlo, rangeCount nlo nhi, hops, oldb.any (fun hop => !hop.p.hasNl),
            newb.any (fun hop => !hop.p.hasNl)⟩, rest)
  | _ => none

def parseContextHunks : Nat → List Pline → Option (List Hunk × List Pline)
  | 0, lines => some ([], lines)
  | _ + 1, [] => some ([], [])
  | fuel + 1, pl :: rest =>
    if isAllStars pl then do
      let (h, left) ← parseContextHunk (pl :: rest)
      let (hunks, left) ← parseContextHunks fuel left
      some (h :: hunks, left)
    else some ([], pl :: rest)

def parseContextSection (lines : List Pline) : Option (Patchfile × List Pline) :=
  match lines with
  | first :: second :: rest => do
      let oldName ← parseNameLine first (ascii "*** ")
      let newName ← parseNameLine second (ascii "--- ")
      let (hunks, left) ← parseContextHunks rest.length rest
      if hunks = [] then none else some (⟨.fmtContext, some oldName, some newName, hunks, []⟩, left)
  | _ => none

def edText : List Pline → Option (List Pline × List Pline)
  | [] => none
  | pl :: rest =>
    if pl.text = ascii "." then some ([], rest)
    else do
      let (text, left) ← edText rest
      some (⟨pl.text, true⟩ :: text, left)

def parseEdCmd (lines : List Pline) : Option (Edcmd × List Pline) :=
  match lines with
  | [] => none
  | head :: rest => do
      let (a1, a2, op) ← isEdHeader head
      if op = 100 then some (⟨a1, a2, op, []⟩, rest)
      else do
        let (text, left) ← edText rest
        some (⟨a1, a2, op, text⟩, left)

def parseEdCmds : Nat → List Pline → Option (List Edcmd × List Pline)
  | 0, lines => some ([], lines)
  | _ + 1, [] => some ([], [])
  | fuel + 1, pl :: rest =>
    if isEdHeaderLine pl then do
      let (e, left) ← parseEdCmd (pl :: rest)
      let (eds, left) ← parseEdCmds fuel left
      some (e :: eds, left)
    else some ([], pl :: rest)

def parseEdSection (lines : List Pline) : Option (Patchfile × List Pline) := do
  let (eds, left) ← parseEdCmds lines.length lines
  if eds = [] then none else some (⟨.fmtEd, none, none, [], eds⟩, left)

def sectionStartsHere (fmt : DiffFormat) (pl : Pline) : Bool :=
  match fmt with
  | .fmtContext => startsWith pl (ascii "*** ") && !isAllStars pl
  | .fmtUnified => startsWith pl (ascii "--- ")
  | .fmtNormal => isNormalHeaderLine pl
  | .fmtEd => isEdHeaderLine pl
  | .fmtUnknown => false

def detectAt (pl : Pline) : DiffFormat :=
  if startsWith pl (ascii "*** ") && !isAllStars pl then .fmtContext
  else if startsWith pl (ascii "--- ") then .fmtUnified
  else if isNormalHeaderLine pl then .fmtNormal
  else if isEdHeaderLine pl then .fmtEd
  else .fmtUnknown

def detect : List Pline → DiffFormat
  | [] => .fmtUnknown
  | pl :: rest => if detectAt pl = .fmtUnknown then detect rest else detectAt pl

def parseSection (fmt : DiffFormat) (lines : List Pline) : Option (Patchfile × List Pline) :=
  match fmt with
  | .fmtContext => parseContextSection lines
  | .fmtUnified => parseUnifiedSection lines
  | .fmtNormal => parseNormalSection lines
  | _ => parseEdSection lines

-- The lines before the next section are skipped; a normal diff or an ed script is one section.
def parseSections (fmt : DiffFormat) : Nat → List Pline → Option (List Patchfile)
  | 0, _ => some []
  | fuel + 1, lines =>
    match lines.dropWhile (fun pl => !sectionStartsHere fmt pl) with
    | [] => some []
    | pl :: rest => do
        let (pf, left) ← parseSection fmt (pl :: rest)
        if fmt = .fmtNormal ∨ fmt = .fmtEd then some [pf]
        else do
          let later ← parseSections fmt fuel left
          some (pf :: later)

def parsePatchStream (lines : List Pline) (forced : DiffFormat) : Option (List Patchfile) := do
  let fmt := if forced = .fmtUnknown then detect lines else forced
  if fmt = .fmtUnknown then none
  else do
    let sections ← parseSections fmt (lines.length + 1) lines
    if sections = [] then none else some sections

end Spicule.Patch
