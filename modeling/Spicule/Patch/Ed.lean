import Spicule.Patch.RoundTrip

namespace Spicule.Patch
open List Option
open Diff
open Splice Decimal

def linebufRemoveRange (lb : List Pline) (lo hi : Nat) : List Pline :=
  if hi ≤ lo then lb else lb.take lo ++ lb.drop hi

def linebufInsertBlock (lb : List Pline) (at' : Nat) (block : List Pline) : List Pline :=
  lb.take at' ++ (block ++ lb.drop at')

def applyEdCmd (work : List Pline) (e : Edcmd) : List Pline :=
  if e.op = 97 then linebufInsertBlock work (min e.a1 work.length) e.text
  else
    let hi := min e.a2 work.length
    let lo := min (e.a1 - 1) hi
    let work := linebufRemoveRange work lo hi
    if e.op = 99 then linebufInsertBlock work lo e.text else work

def applyEdSection (pf : Patchfile) (target : List Pline) : List Pline := pf.eds.foldl applyEdCmd target

def edOpts : DiffOpts := ⟨.fmtEd, false, 3⟩

def edPatchedText (left right : Operand) (bufA bufB : Bytes) : Option Bytes := do
  let diff ← diffFiles edOpts left right bufA bufB
  let sections ← parsePatchStream (readAllLines diff.out) .fmtEd
  match sections with
  | [pf] => some (writeLinebufStream (applyEdSection pf (readAllLines bufA)))
  | _ => none

section
variable {a b : TextFile}
def edHeader (h : Diff.Hunk) : Bytes := printRange h.a0 h.a1 44 ++ [if h.b0 = h.b1 then 100 else hunkCommand h]

def edLines (b : TextFile) (h : Diff.Hunk) : List Bytes :=
  edHeader h :: if h.b0 = h.b1 then [] else slice b.lines h.b0 h.b1 ++ [ascii "."]

theorem print_line_bodies_join (file : TextFile) (count idx : Nat) (bound : idx + count ≤ file.lines.length) :
    printLineBodies file count idx = some (joinLines (slice file.lines idx (idx + count))) := by
  induction count generalizing idx with
  | zero => simp [printLineBodies]
  | succ count ih =>
    have here : idx < file.lines.length := by omega
    have rest := ih (idx + 1) (by omega)
    rw [show idx + 1 + count = idx + (count + 1) by omega] at rest
    rw [slice_cons _ (by omega) here, join_lines_cons]
    simp only [printLineBodies, List.getElem?_eq_getElem here, rest, bind_eq_bind, bind_some, append_assoc]
    rfl

variable (h : Diff.Hunk)
theorem print_ed_hunk_join (inside : Inside a b h) : printEdHunk b h = some (joinLines (edLines b h)) := by
  obtain ⟨⟨spanA, spanB⟩, boundA, boundB⟩ := inside
  have body := print_line_bodies_join b (h.b1 - h.b0) h.b0 (by omega)
  rw [show h.b0 + (h.b1 - h.b0) = h.b1 by omega] at body
  by_cases emptyB : h.b0 = h.b1
  · simp [printEdHunk, edLines, edHeader, emptyB]
    rfl
  · by_cases emptyA : h.a0 = h.a1
    · simp [printEdHunk, edLines, edHeader, hunkCommand, emptyB, emptyA, body, printRange, join_lines_append]
      rfl
    · simp [printEdHunk, edLines, edHeader, hunkCommand, emptyB, emptyA, body, join_lines_append]
      rfl

variable (hunks : List Diff.Hunk)
theorem print_ed_join (inside : ∀ h ∈ hunks, Inside a b h) :
    printEd b hunks = some (joinLines (hunks.reverse.flatMap (edLines b))) := by
  induction hunks with
  | nil => rfl
  | cons h rest ih =>
    have text := print_ed_hunk_join h (inside h mem_cons_self)
    have later := ih (forall_mem_cons.mp inside).2
    simp only [printEd, text, later, bind_eq_bind, bind_some, reverse_cons, flatMap_append,
      flatMap_singleton, join_lines_append]

def edCommand (b : TextFile) (h : Diff.Hunk) : Edcmd where
  a1 := rangeStart h.a0 h.a1
  a2 := rangeStop h.a0 h.a1
  op := if h.b0 = h.b1 then 100 else hunkCommand h
  text := if h.b0 = h.b1 then [] else ended (slice b.lines h.b0 h.b1)

theorem parse_ed_header (inside : Inside a b h) (small : a.lines.length ≤ longMax) : isEdHeader ⟨edHeader h, true⟩ =
      some (rangeStart h.a0 h.a1, rangeStop h.a0 h.a1, if h.b0 = h.b1 then 100 else hunkCommand h) := by
  obtain ⟨⟨spanA, spanB⟩, boundA, boundB⟩ := inside
  have command : isCommand (if h.b0 = h.b1 then 100 else hunkCommand h) = true ∧
      isDigit (if h.b0 = h.b1 then 100 else hunkCommand h) = false ∧ (if h.b0 = h.b1 then 100 else hunkCommand h) ≠ 44 := by
    unfold hunkCommand
    split
    · decide
    · split <;> decide
  have delimits := delimits_cons (if h.b0 = h.b1 then 100 else hunkCommand h) [] command.2.1 command.2.2
  obtain ⟨mid, first, second⟩ := parse_print_range spanA (by omega) delimits
  simp only [isEdHeader, edHeader, first, second, command.1, bind_eq_bind, bind_some, if_true]

def Dotless (lines : List Bytes) : Prop := ∀ line ∈ lines, line ≠ ascii "."

theorem ed_text_printed {lines : List Bytes} (dotless : Dotless lines) (rest : List Pline) :
    edText (ended lines ++ ⟨ascii ".", true⟩ :: rest) = some (ended lines, rest) := by
  induction lines with
  | nil => rfl
  | cons line lines ih =>
    have other : line ≠ ascii "." := dotless line mem_cons_self
    have later := ih fun line' mem => dotless line' (mem_cons_of_mem line mem)
    simp only [ended_cons, cons_append, edText, if_neg other, later, bind_eq_bind, bind_some]

theorem parse_ed_cmd_printed (inside : Inside a b h) (small : a.lines.length ≤ longMax)
    (dotless : Dotless (slice b.lines h.b0 h.b1)) (rest : List Pline) :
    parseEdCmd (ended (edLines b h) ++ rest) = some (edCommand b h, rest) := by
  have header := parse_ed_header h inside small
  by_cases emptyB : h.b0 = h.b1
  · rw [if_pos emptyB] at header
    simp only [edLines, ended_cons, cons_append, parseEdCmd, header, bind_eq_bind, bind_some, edCommand,
      if_pos emptyB, if_true]
    rfl
  · rw [if_neg emptyB] at header
    have kept : hunkCommand h ≠ 100 := by
      unfold hunkCommand
      split <;> decide
    have text := ed_text_printed dotless rest
    simp only [edLines, ended_cons, cons_append, parseEdCmd, header, bind_eq_bind, bind_some, edCommand,
      if_neg emptyB, if_neg kept, ended_append, ended_nil, append_assoc, nil_append, text]

theorem parse_ed_cmds_printed (inside : ∀ h ∈ hunks, Inside a b h)
    (small : a.lines.length ≤ longMax) (dotless : ∀ h ∈ hunks, Dotless (slice b.lines h.b0 h.b1)) (fuel : Nat)
    (enough : hunks.length ≤ fuel) :
    parseEdCmds fuel (ended (hunks.flatMap (edLines b))) = some (hunks.map (edCommand b), []) := by
  induction hunks generalizing fuel with
  | nil =>
    cases fuel with
    | zero | succ => rfl
  | cons h rest ih =>
    cases fuel with
    | zero => exact absurd enough (Nat.not_succ_le_zero _)
    | succ fuel =>
      have header := parse_ed_header h (inside h mem_cons_self) small
      have this := parse_ed_cmd_printed h (inside h mem_cons_self) small (dotless h mem_cons_self)
        (ended (rest.flatMap (edLines b)))
      have later := ih (forall_mem_cons.mp inside).2
        (forall_mem_cons.mp dotless).2 fuel (Nat.le_of_succ_le_succ enough)
      have found : isEdHeaderLine ⟨edHeader h, true⟩ = true := by rw [isEdHeaderLine, header, isSome_some]
      rw [flatMap_cons, ended_append]
      simp only [edLines, ended_cons, cons_append] at this ⊢
      rw [parseEdCmds, if_pos found, this]
      simp only [bind_eq_bind, bind_some, later, map_cons]

theorem apply_ed_cmd_printed (xs later : List Pline) (h : Diff.Hunk) (inside : Inside a b h)
    (filled : h.a0 < h.a1 ∨ h.b0 < h.b1) (bound : h.a1 ≤ xs.length) :
    applyEdCmd (xs.take h.a1 ++ later) (edCommand b h) = xs.take h.a0 ++ (ended (slice b.lines h.b0 h.b1) ++ later) := by
  obtain ⟨⟨spanA, spanB⟩, -, -⟩ := inside
  have length : (xs.take h.a1).length = h.a1 := length_take_of_le bound
  have front : (xs.take h.a1 ++ later).take h.a0 = xs.take h.a0 := by
    rw [take_append_of_le_length (by omega), take_take, Nat.min_eq_left spanA]
  have back : (xs.take h.a1 ++ later).drop h.a1 = later := by
    rw [drop_append_of_le_length (by omega), drop_of_length_le (by omega), nil_append]
  have total : h.a1 ≤ (xs.take h.a1 ++ later).length := by
    rw [length_append]
    omega
  by_cases emptyA : h.a0 = h.a1
  · have filledB : ¬ h.b0 = h.b1 := by omega
    have place : min h.a0 (xs.take h.a1 ++ later).length = h.a0 := by omega
    simp only [applyEdCmd, edCommand, if_neg filledB, hunkCommand, if_pos emptyA, if_true, rangeStart, linebufInsertBlock,
      place, front]
    rw [emptyA, back]
  · have high : min h.a1 (xs.take h.a1 ++ later).length = h.a1 := by omega
    have low : min (h.a0 + 1 - 1) h.a1 = h.a0 := by omega
    have cut : linebufRemoveRange (xs.take h.a1 ++ later) h.a0 h.a1 = xs.take h.a0 ++ later := by
      rw [linebufRemoveRange, if_neg (by omega), front, back]
    by_cases emptyB : h.b0 = h.b1
    · have none : slice b.lines h.b0 h.b1 = [] := by rw [emptyB, slice_self]
      simp only [applyEdCmd, edCommand, if_pos emptyB, rangeStart, rangeStop, if_neg emptyA, high, low, cut, none]
      rfl
    · have size : (xs.take h.a0).length = h.a0 := length_take_of_le (by omega)
      have insert : linebufInsertBlock (xs.take h.a0 ++ later) h.a0 (ended (slice b.lines h.b0 h.b1)) =
          xs.take h.a0 ++ (ended (slice b.lines h.b0 h.b1) ++ later) := by
        rw [linebufInsertBlock, take_append_of_le_length (by omega), drop_append_of_le_length (by omega),
          take_take, Nat.min_self, drop_of_length_le (by omega), nil_append]
      simp only [applyEdCmd, edCommand, if_neg emptyB, hunkCommand, if_neg emptyA, rangeStart, rangeStop, high, low, cut]
      exact insert

theorem apply_ed_hunks (x y low : Nat)
    (aligned : Aligned (stored a.lines a.noeol) (stored b.lines b.noeol) a.lines.length b.lines.length x y hunks)
    (parted : Parted low hunks) (terminated : b.noeol = false) :
    (hunks.reverse.map (edCommand b)).foldl applyEdCmd (stored a.lines a.noeol) =
      (stored a.lines a.noeol).take x ++ splice (stored a.lines a.noeol) (stored b.lines b.noeol) x hunks := by
  induction hunks generalizing x y low with
  | nil => exact (take_append_drop x _).symm
  | cons h rest ih =>
    have inside := aligned_inside _ x y aligned h mem_cons_self
    obtain ⟨stretch, -, later⟩ := aligned
    obtain ⟨-, filled, parted'⟩ := parted
    have bound : h.a1 ≤ (stored a.lines a.noeol).length := by
      rw [stored_length]
      exact inside.2.1
    have text : ended (slice b.lines h.b0 h.b1) = slice (stored b.lines b.noeol) h.b0 h.b1 := by
      rw [terminated, stored_terminated, ended, slice_map]
    rw [reverse_cons, map_append, foldl_append, ih _ _ _ later parted', map_singleton, foldl_cons,
      foldl_nil, apply_ed_cmd_printed _ _ h inside filled bound, text, splice,
      ← take_slice _ stretch.order, append_assoc]

end

def Terminated (buf : Bytes) : Prop := (splitLines buf).noeol = false

structure Scriptable (bufA bufB : Bytes) : Prop where
  differ : bufA ≠ bufB
  small : (splitLines bufA).lines.length ≤ longMax
  dotless : ∀ h ∈ hunksOf (splitLines bufA) (splitLines bufB), Dotless (slice (splitLines bufB).lines h.b0 h.b1)

theorem ed_lines_one_line {b : TextFile} (whole : ∀ line ∈ b.lines, OneLine line) (h : Diff.Hunk) :
    ∀ line ∈ edLines b h, OneLine line := by
  have dot : OneLine (ascii ".") := by unfold OneLine; decide
  intro line mem
  rcases mem_cons.mp mem with rfl | listed
  · refine one_line_append (print_range_one_line) (one_line_cons ?_ not_mem_nil)
    unfold hunkCommand
    split
    · decide
    · split <;> decide
  · split at listed
    · cases listed
    · rcases mem_append.mp listed with inserted | last
      · exact whole line (mem_of_mem_drop (mem_of_mem_take inserted))
      · rw [mem_singleton.mp last]
        exact dot

theorem parse_ed_stream {a b : TextFile} (hunks : List Diff.Hunk) (nonempty : hunks ≠ []) (inside : ∀ h ∈ hunks, Inside a b h)
    (small : a.lines.length ≤ longMax) (dotless : ∀ h ∈ hunks, Dotless (slice b.lines h.b0 h.b1)) :
    parsePatchStream (ended (hunks.flatMap (edLines b))) .fmtEd =
      some [⟨.fmtEd, none, none, [], hunks.map (edCommand b)⟩] := by
  have long := flat_map_long (edLines b) (fun _ => cons_ne_nil _ _) hunks
  have cmds := parse_ed_cmds_printed hunks inside small dotless (ended (hunks.flatMap (edLines b))).length
    (by rwa [ended, length_map])
  obtain ⟨h, rest, rfl⟩ := exists_cons_of_ne_nil nonempty
  have header := parse_ed_header h (inside h mem_cons_self) small
  have found : sectionStartsHere .fmtEd ⟨edHeader h, true⟩ = true := by
    rw [sectionStartsHere, isEdHeaderLine, header, isSome_some]
  have first : ∃ lines, ended ((h :: rest).flatMap (edLines b)) = ⟨edHeader h, true⟩ :: lines := ⟨_, rfl⟩
  obtain ⟨lines, split⟩ := first
  have filled : ¬ (h :: rest).map (edCommand b) = [] := cons_ne_nil _ _
  rw [split] at cmds ⊢
  have skip : (⟨edHeader h, true⟩ :: lines).dropWhile (fun pl => !sectionStartsHere .fmtEd pl) = ⟨edHeader h, true⟩ :: lines :=
    dropWhile_cons_of_neg (by rw [found]; decide)
  have parsed : parseEdSection (⟨edHeader h, true⟩ :: lines) =
      some (⟨.fmtEd, none, none, [], (h :: rest).map (edCommand b)⟩, []) := by
    simp only [parseEdSection, cmds, bind_eq_bind, bind_some, if_neg filled]
  have sections : parseSections .fmtEd ((⟨edHeader h, true⟩ :: lines).length + 1) (⟨edHeader h, true⟩ :: lines) =
      some [⟨.fmtEd, none, none, [], (h :: rest).map (edCommand b)⟩] := by
    rw [parseSections, skip]
    simp only [parseSection, parsed, bind_eq_bind, bind_some, or_true, if_true]
  simp only [parsePatchStream, sections, bind_eq_bind, bind_some, reduceCtorEq, if_false, cons_ne_nil]

theorem ed_round_trip (left right : Operand) (bufA bufB : Bytes) (terminated : Terminated bufB)
    (scriptable : Scriptable bufA bufB) : edPatchedText left right bufA bufB = some bufB := by
  obtain ⟨differ, small, dotless⟩ := scriptable
  obtain ⟨⟨ops, built, hunks⟩, aligned, parted⟩ := hunks_of_spec (splitLines bufA) (splitLines bufB)
  have whole := split_lines_from_one_line [] bufB not_mem_nil
  have nonempty := hunks_of_differ differ
  have inside := aligned_inside _ 0 0 aligned
  have printed := print_ed_join _ inside
  have applied := apply_ed_hunks _ 0 0 0 aligned parted terminated
  rw [← stored_length (splitLines bufA).lines (splitLines bufA).noeol,
    ← stored_length (splitLines bufB).lines (splitLines bufB).noeol] at aligned
  rw [aligned_splice _ 0 0 aligned, drop_zero, take_zero, nil_append, ← read_all_lines_stored,
    ← read_all_lines_stored] at applied
  obtain ⟨result, diff⟩ : ∃ result, diffFiles edOpts left right bufA bufB =
      some ⟨result, joinLines ((hunksOf (splitLines bufA) (splitLines bufB)).reverse.flatMap (edLines (splitLines bufB))),
        noeolDiagnostics edOpts left right (splitLines bufA) (splitLines bufB)
          (hunksOf (splitLines bufA) (splitLines bufB))⟩ := by
    have some' : ¬ (hunksOf (splitLines bufA) (splitLines bufB)).length = 0 := by
      rw [length_eq_zero_iff]
      exact nonempty
    have flag : edOpts.bflag = false := rfl
    have body : printBody edOpts left right (splitLines bufA) (splitLines bufB)
        (hunksOf (splitLines bufA) (splitLines bufB)) = _ := printed
    simp only [diffFiles, flag, built, hunks, bind_eq_bind, bind_some, if_neg some', body]
    exact ⟨_, rfl⟩
  have read := read_join_lines ((hunksOf (splitLines bufA) (splitLines bufB)).reverse.flatMap (edLines (splitLines bufB)))
    fun line mem => by
      obtain ⟨h, -, listed⟩ := mem_flatMap.mp mem
      exact ed_lines_one_line whole h line listed
  have parsed := parse_ed_stream (hunksOf (splitLines bufA) (splitLines bufB)).reverse (by simpa using nonempty)
    (fun h mem => inside h (mem_reverse.mp mem)) small fun h mem => dotless h (mem_reverse.mp mem)
  rw [ended] at parsed
  simp only [edPatchedText, diff, read, parsed, applyEdSection, applied, bind_eq_bind, bind_some, write_read]

theorem ed_round_trip_two_hunks :
    edPatchedText (plainOperand "a" (by decide)) (plainOperand "b" (by decide)) (ascii "x\ny\nz\n") (ascii "p\nx\nq\n..\n") =
      some (ascii "p\nx\nq\n..\n") :=
  ed_round_trip _ _ _ _ (by unfold Terminated; decide +kernel)
    ⟨by decide, by decide +kernel, by unfold Dotless; decide +kernel⟩

theorem ed_round_trip_dot :
    Terminated (ascii "x\n") ∧ Terminated (ascii "x\n.\ny\n") ∧
    edPatchedText (plainOperand "a" (by decide)) (plainOperand "b" (by decide)) (ascii "x\n") (ascii "x\n.\ny\n") =
      some (ascii "x\n") ∧ ascii "x\n" ≠ ascii "x\n.\ny\n" := by
  unfold Terminated
  decide +kernel

end Spicule.Patch
