import Spicule.Patch.Reparse

namespace Spicule.Patch
open List
open Diff
open Splice Decimal

inductive TripFormat where
  | normal
  | unified (context : Nat)
deriving DecidableEq, Repr

def TripFormat.opts : TripFormat → DiffOpts
  | .normal => ⟨.fmtDefault, false, 3⟩
  | .unified context => ⟨.fmtUnified, false, context⟩

-- `none` when the text is not accepted or a hunk is rejected.
def patchedText (format : TripFormat) (left right : Operand) (bufA bufB : Bytes) : Option Bytes := do
  let diff ← diffFiles format.opts left right bufA bufB
  let sections ← parsePatchStream (readAllLines diff.out) .fmtUnknown
  match sections with
  | [pf] => do
      let applied ← applySection pf (readAllLines bufA) none false false
      if applied.rejects = [] then some (writeLinebufStream applied.outbuf) else none
  | _ => none

def hunksOf (a b : TextFile) : List Diff.Hunk := ((myersBuildOps a b false).map buildHunks).getD []

def printedRegions (format : TripFormat) (a b : TextFile) : List Region :=
  match format with
  | .normal => hunksOf a b
  | .unified context =>
    (buildGroups (hunksOf a b) context a.lines.length b.lines.length).map Group.region

def Expressible (format : TripFormat) (left right : Operand) (a b : TextFile) : Prop :=
  match format with
  | .normal => ∀ h ∈ hunksOf a b, Markerless a b h
  | .unified context =>
    context ≤ longMax ∧ Unwrapped context (hunksOf a b) ∧ OneLine left.label ∧ OneLine right.label

section
variable {a b : TextFile}
theorem digits_one_line {n : Nat} : OneLine (digits n) := by
  intro mem
  exact Bool.false_ne_true (digits_all n newline mem)

theorem one_line_append {first second : Bytes} (left : OneLine first) (right : OneLine second) :
    OneLine (first ++ second) := by
  simp only [OneLine, mem_append, not_or]
  exact ⟨left, right⟩

theorem one_line_cons {byte : UInt8} {rest : Bytes} (other : byte ≠ newline) (right : OneLine rest) :
    OneLine (byte :: rest) := by
  simp only [OneLine, mem_cons, not_or]
  exact ⟨other.symm, right⟩

theorem print_range_one_line {r0 r1 : Nat} : OneLine (printRange r0 r1 44) := by
  unfold printRange
  split
  · exact digits_one_line
  · split
    · exact digits_one_line
    · exact one_line_append (digits_one_line) (one_line_cons (by decide) (digits_one_line))

theorem print_unified_range_one_line (r0 r1 : Nat) : OneLine (printUnifiedRange r0 r1) := by
  unfold printUnifiedRange
  dsimp only
  split
  · exact one_line_append (digits_one_line) (by unfold OneLine; decide)
  · split
    · exact digits_one_line
    · exact one_line_append (one_line_append (digits_one_line) (by unfold OneLine; decide)) (digits_one_line)

theorem hop_lines_one_line {pfx : Bytes} (whole : OneLine pfx) {p : Pline} (text : OneLine p.text) :
    ∀ line ∈ hopLines pfx p, OneLine line := by
  have marker : OneLine noNewlineLine := by unfold OneLine; decide
  intro line mem
  rcases mem_cons.mp mem with rfl | marked
  · exact one_line_append whole text
  · cases ended : p.hasNl with
    | true => simp [ended] at marked
    | false =>
      obtain rfl : line = noNewlineLine := by simpa [ended] using marked
      exact marker

theorem slice_one_line {file : TextFile} (whole : ∀ line ∈ file.lines, OneLine line) {i j : Nat} {p : Pline}
    (mem : p ∈ slice (stored file.lines file.noeol) i j) : OneLine p.text := by
  refine whole p.text ?_
  rw [← stored_text file.lines file.noeol]
  exact mem_map_of_mem (mem_of_mem_drop (mem_of_mem_take mem))

section
variable (wholeA : ∀ line ∈ a.lines, OneLine line) (wholeB : ∀ line ∈ b.lines, OneLine line)
include wholeA wholeB

theorem default_lines_one_line (h : Diff.Hunk) : ∀ line ∈ defaultLines a b h, OneLine line := by
  have command : hunkCommand h ≠ newline := by
    unfold hunkCommand
    split
    · decide
    · split <;> decide
  intro line mem
  simp only [defaultLines, mem_cons, mem_append, mem_flatMap] at mem
  rcases mem with rfl | ⟨p, inside, listed⟩ | separator | ⟨p, inside, listed⟩
  · exact one_line_append (print_range_one_line) (one_line_cons command (print_range_one_line))
  · exact hop_lines_one_line (by unfold OneLine; decide) (slice_one_line wholeA inside) line listed
  · split at separator
    · cases separator
    · obtain rfl := mem_singleton.mp separator
      unfold OneLine
      decide
  · exact hop_lines_one_line (by unfold OneLine; decide) (slice_one_line wholeB inside) line listed

theorem group_hops_one_line
    (ga1 : Nat) (hunks : List Diff.Hunk) (pos : Nat) : ∀ hop ∈ groupHops a b ga1 hunks pos, OneLine hop.p.text := by
  induction hunks generalizing pos with
  | nil =>
    intro hop mem
    obtain ⟨p, inside, rfl⟩ := mem_map.mp mem
    exact slice_one_line wholeA inside
  | cons h rest ih =>
    intro hop mem
    simp only [groupHops, mem_append, mem_map] at mem
    rcases mem with ⟨p, inside, rfl⟩ | ⟨p, inside, rfl⟩ | ⟨p, inside, rfl⟩ | later
    · exact slice_one_line wholeA inside
    · exact slice_one_line wholeA inside
    · exact slice_one_line wholeB inside
    · exact ih h.a1 hop later

theorem group_lines_one_line (g : Group) : ∀ line ∈ groupLines a b g, OneLine line := by
  intro line mem
  simp only [groupLines, mem_cons, mem_flatMap] at mem
  rcases mem with rfl | ⟨hop, inside, listed⟩
  · refine one_line_append (by unfold OneLine; decide) (one_line_append (print_unified_range_one_line _ _) ?_)
    exact one_line_append (by unfold OneLine; decide) (one_line_append (print_unified_range_one_line _ _)
      (by unfold OneLine; decide))
  · have mark : OneLine [unifiedMark hop.kind] := by
      unfold OneLine
      cases hop.kind <;> decide
    exact hop_lines_one_line mark (group_hops_one_line wholeA wholeB g.ga1 g.hunks g.ga0 hop inside) line listed

end

theorem same_line_stored (x y : Nat) (left : x < (stored a.lines a.noeol).length)
    (right : y < (stored b.lines b.noeol).length) (same : sameLine a b false x y = true) :
    (stored a.lines a.noeol)[x]? = (stored b.lines b.noeol)[y]? := by
  rw [stored_length] at left right
  rw [stored_get a.lines a.noeol x left, stored_get b.lines b.noeol y right]
  simp only [sameLine, linesEqualFinal, line_at_in_range left,
    line_at_in_range right, beq_iff_eq] at same
  split at same
  · cases same
  · rename_i truncated
    simp only [ne_eq, not_not] at truncated
    simp only [Option.bind_eq_bind, Option.bind_some, Option.some.injEq, dlineEqual, Bool.false_eq_true, if_false,
      beq_iff_eq] at same
    simp only [truncatedAt] at truncated
    norm_cast at truncated
    rw [same, truncated]

theorem hunks_of_spec (a b : TextFile) :
    (∃ ops, myersBuildOps a b false = some ops ∧ buildHunks ops = hunksOf a b) ∧
      Aligned (stored a.lines a.noeol) (stored b.lines b.noeol) a.lines.length b.lines.length 0 0 (hunksOf a b) ∧
      Parted 0 (hunksOf a b) := by
  obtain ⟨ops, edits, run, script, -⟩ := myers_run_script a b false
  have built : myersBuildOps a b false = some ops := by rw [myersBuildOps, run]; rfl
  have hunks : hunksOf a b = buildHunks ops := by rw [hunksOf, built]; rfl
  refine ⟨⟨ops, built, hunks.symm⟩, ?_, hunks ▸ build_hunks_parted ops⟩
  rw [hunks]
  have aligned := build_hunks_aligned
    same_line_stored ops (by simpa only [stored_length] using script)
  simpa only [stored_length] using aligned

theorem aligned_inside {α : Type} {xs ys : List α} (hunks : List Diff.Hunk) (x y : Nat)
    (aligned : Aligned xs ys a.lines.length b.lines.length x y hunks) : ∀ h ∈ hunks, Inside a b h := by
  induction hunks generalizing x y with
  | nil => exact fun h mem => absurd mem not_mem_nil
  | cons h rest ih =>
    obtain ⟨-, span, later⟩ := aligned
    intro other mem
    rcases mem_cons.mp mem with rfl | mem
    · exact ⟨span, aligned_bounds rest _ _ later⟩
    · exact ih _ _ later other mem

theorem flat_map_long {α β : Type} (f : α → List β) (filled : ∀ x, f x ≠ []) (items : List α) :
    items.length ≤ (items.flatMap f).length := by
  induction items with
  | nil => exact le_refl 0
  | cons x items ih =>
    have one := length_pos_iff.mpr (filled x)
    rw [flatMap_cons, length_append, length_cons]
    omega

theorem print_range_cons (r0 r1 : Nat) : ∃ byte rest, printRange r0 r1 44 = byte :: rest ∧ isDigit byte = true := by
  unfold printRange
  split
  · exact digits_cons r0
  · obtain ⟨byte, rest, split, digit⟩ := digits_cons (r0 + 1)
    split
    · exact ⟨byte, rest, split, digit⟩
    · exact ⟨byte, rest ++ 44 :: digits r1, by rw [split, cons_append], digit⟩

theorem default_header_detected (h : Diff.Hunk) (inside : Inside a b h)
    (small : a.lines.length ≤ longMax ∧ b.lines.length ≤ longMax) : detectAt ⟨defaultHeader h, true⟩ = .fmtNormal := by
  obtain ⟨byte, rest, split, digit⟩ : ∃ byte rest, defaultHeader h = byte :: rest ∧ isDigit byte = true := by
    obtain ⟨byte, rest, split, digit⟩ := print_range_cons h.a0 h.a1
    exact ⟨byte, _, by rw [defaultHeader, split, cons_append], digit⟩
  have star : startsWith ⟨defaultHeader h, true⟩ (ascii "*** ") = false := by
    rw [split]
    exact starts_with_other fun same : byte = 42 => by simp [same, isDigit] at digit
  have dash : startsWith ⟨defaultHeader h, true⟩ (ascii "--- ") = false := by
    rw [split]
    exact starts_with_other fun same : byte = 45 => by simp [same, isDigit] at digit
  simp only [detectAt, star, dash, normal_header_printed a b h inside small, Bool.false_and, Bool.false_eq_true, if_false,
    if_true]

theorem parse_normal_stream (small : a.lines.length ≤ longMax ∧ b.lines.length ≤ longMax) {h : Diff.Hunk}
    {rest : List Diff.Hunk} (inside : ∀ other ∈ h :: rest, Inside a b other) {low : Nat}
    (parted : Parted low (h :: rest)) (markerless : ∀ other ∈ h :: rest, Markerless a b other) :
    parsePatchStream (ended ((h :: rest).flatMap (defaultLines a b))) .fmtUnknown =
      some [⟨.fmtNormal, none, none, (h :: rest).map (normalHunk a b), []⟩] := by
  have insideH := inside h mem_cons_self
  have long : (h :: rest).length ≤ (ended ((h :: rest).flatMap (defaultLines a b))).length := by
    rw [ended, length_map]
    exact flat_map_long _ (fun _ => cons_ne_nil _ _) _
  obtain ⟨left, hunks⟩ := parse_normal_hunks_printed a b small (h :: rest) _ low long inside parted markerless
  have normal : parseNormalSection (ended ((h :: rest).flatMap (defaultLines a b))) =
      some (⟨.fmtNormal, none, none, (h :: rest).map (normalHunk a b), []⟩, left) := by
    rw [parseNormalSection, hunks]
    rfl
  have header := normal_header_printed a b h insideH small
  have detected := default_header_detected h insideH small
  rw [flatMap_cons, defaultLines, cons_append, ended_cons] at normal ⊢
  simp only [parsePatchStream, if_true, detect, detected, reduceCtorEq, if_false, parseSections, sectionStartsHere, header,
    Bool.not_true, Bool.false_eq_true, not_false_eq_true, dropWhile_cons_of_neg, parseSection, normal, true_or,
    Option.bind_eq_bind, Option.bind_some, cons_ne_self]

def unifiedTitles (left right : Operand) : List Bytes :=
  [ascii "--- " ++ (left.label ++ (ascii "\t" ++ left.unifiedTimestamp)),
    ascii "+++ " ++ (right.label ++ (ascii "\t" ++ right.unifiedTimestamp))]

theorem parse_name_line_printed (pfx rest : Bytes) :
    parseNameLine ⟨pfx ++ rest, true⟩ pfx = some (rest.takeWhile (· != 9)) := by
  rw [parseNameLine, if_pos (starts_with_append pfx rest), drop_left]

def unifiedFile (left right : Operand) (groups : List Group) : Patchfile where
  fmt := .fmtUnified
  oldName := some ((left.label ++ (ascii "\t" ++ left.unifiedTimestamp)).takeWhile (· != 9))
  newName := some ((right.label ++ (ascii "\t" ++ right.unifiedTimestamp)).takeWhile (· != 9))
  hunks := groups.map (unifiedHunk a b)
  eds := []

theorem parse_unified_section_printed (small : a.lines.length ≤ longMax ∧ b.lines.length ≤ longMax) (left right : Operand)
    {groups : List Group} (nonempty : groups ≠ []) (covers : ∀ g ∈ groups, Covers a b g) :
    parseUnifiedSection (ended (unifiedTitles left right ++ groups.flatMap (groupLines a b))) =
      some (unifiedFile (a := a) (b := b) left right groups, []) := by
  have long : groups.length ≤ (ended (groups.flatMap (groupLines a b))).length := by
    rw [ended, length_map]
    exact flat_map_long _ (fun _ => cons_ne_nil _ _) _
  have hunks := parse_unified_hunks_printed a b small groups _ long covers
  have filled : groups.map (unifiedHunk a b) ≠ [] := by simpa using nonempty
  simp only [unifiedTitles, cons_append, nil_append, ended_cons, parseUnifiedSection, parse_name_line_printed, hunks,
    filled, if_false, Option.bind_eq_bind, Option.bind_some]
  rfl

theorem parse_unified_stream (small : a.lines.length ≤ longMax ∧ b.lines.length ≤ longMax) {left right : Operand}
    {groups : List Group} (nonempty : groups ≠ []) (covers : ∀ g ∈ groups, Covers a b g) :
    parsePatchStream (ended (unifiedTitles left right ++ groups.flatMap (groupLines a b))) .fmtUnknown =
      some [unifiedFile (a := a) (b := b) left right groups] := by
  have parsed := parse_unified_section_printed small left right nonempty covers
  have first : startsWith ⟨ascii "--- " ++ (left.label ++ (ascii "\t" ++ left.unifiedTimestamp)), true⟩ (ascii "--- ") =
      true := starts_with_append _ _
  have star : startsWith ⟨ascii "--- " ++ (left.label ++ (ascii "\t" ++ left.unifiedTimestamp)), true⟩ (ascii "*** ") =
      false := starts_with_other (by decide : (45 : UInt8) ≠ 42)
  rw [unifiedTitles, cons_append, ended_cons] at parsed ⊢
  simp only [parsePatchStream, if_true, detect, detectAt, star, first, Bool.false_and, Bool.false_eq_true, if_false,
    reduceCtorEq, parseSections, sectionStartsHere, Bool.not_true, not_false_eq_true, dropWhile_cons_of_neg,
    parseSection, parsed, or_self, length_cons, dropWhile_nil, Option.bind_eq_bind, Option.bind_some,
    cons_ne_self]

theorem build_groups_cover (small : a.lines.length ≤ longMax ∧ b.lines.length ≤ longMax) {context : Nat}
    (fits : context ≤ longMax) (unwrapped : Unwrapped context (hunksOf a b)) :
    Aligned (stored a.lines a.noeol) (stored b.lines b.noeol) a.lines.length b.lines.length 0 0
        (printedRegions (.unified context) a b) ∧
      ∀ g ∈ buildGroups (hunksOf a b) context a.lines.length b.lines.length, Covers a b g := by
  obtain ⟨-, aligned, -⟩ := hunks_of_spec a b
  have sizes : a.lines.length + context < sizeMod ∧ b.lines.length + context < sizeMod := by
    unfold sizeMod
    unfold longMax at small fits
    omega
  have groups := build_groups_from_aligned (stored a.lines a.noeol) (stored b.lines b.noeol) context
    (by simpa only [stored_length] using sizes) (hunksOf a b).length (hunksOf a b) 0 0 (le_refl _) unwrapped (.inl ⟨rfl, rfl⟩)
    (by simpa only [stored_length] using aligned)
  simp only [stored_length] at groups
  obtain ⟨outer, inner, -⟩ := groups
  refine ⟨outer, fun g mem => ?_⟩
  obtain ⟨-, insideA, insideB⟩ := aligned_inside _ 0 0 outer g.region (mem_map_of_mem mem)
  exact ⟨(inner g mem).1, insideA, insideB⟩

end

theorem hunks_of_differ {bufA bufB : Bytes} (differ : bufA ≠ bufB) : hunksOf (splitLines bufA) (splitLines bufB) ≠ [] := by
  intro none
  obtain ⟨-, aligned, -⟩ := hunks_of_spec (splitLines bufA) (splitLines bufB)
  rw [none] at aligned
  have equal := aligned.equal
  rw [slice_to_end _ (by rw [stored_length]), slice_to_end _ (by rw [stored_length]), drop_zero, drop_zero,
    ← read_all_lines_stored, ← read_all_lines_stored] at equal
  exact differ (by rw [← write_read bufA, equal, write_read])

theorem build_hunks_matched {ops : List EditOp} (matched : ∀ op ∈ ops, ¬isEdit op) (ai bi : Nat) :
    buildHunksFrom ops ai bi none = [] := by
  induction ops generalizing ai bi with
  | nil => rfl
  | cons op rest ih =>
    obtain ⟨first, later⟩ := forall_mem_cons.mp matched
    have type : op.type = .opMatch := by simpa [isEdit] using first
    rw [buildHunksFrom.eq_def]
    simp only [type, ih later]

theorem hunks_of_same (a : TextFile) : hunksOf a a = [] := by
  obtain ⟨ops, edits, run, -, count, -, shortest⟩ := myers_run_script a a false
  have slide : EditGraph.Slide a.lines.length a.lines.length (sameLine a a false) 0 0 a.lines.length := by
    intro i bound
    simp [sameLine, linesEqualFinal, dlineEqual, line_at_in_range bound, bound]
  have none := shortest 0 (by simpa using EditGraph.path_slide .start slide)
  rw [hunksOf, myersBuildOps, run]
  exact build_hunks_matched (countP_eq_zero.mp (count.trans (Nat.le_zero.mp none))) 0 0

-- Status 0 and an empty output are for files equal byte by byte, and no others.
theorem diff_files_same (fmt : DiffFmt) (context : Nat) (left right : Operand) (bufA bufB : Bytes) :
    (bufA = bufB → diffFiles ⟨fmt, false, context⟩ left right bufA bufB = some ⟨0, [], []⟩) ∧
      ∀ r, diffFiles ⟨fmt, false, context⟩ left right bufA bufB = some r → r.result = 0 → bufA = bufB := by
  obtain ⟨⟨ops, built, hunks⟩, -⟩ := hunks_of_spec (splitLines bufA) (splitLines bufB)
  simp only [diffFiles, built, hunks, Option.bind_eq_bind, Option.bind_some]
  constructor
  · rintro rfl
    rw [hunks_of_same]
    rfl
  · intro r ran zero
    by_contra differ
    rw [if_neg (length_pos_of_ne_nil (hunks_of_differ differ)).ne'] at ran
    obtain ⟨out, -, result⟩ := Option.bind_eq_some_iff.mp ran
    cases result
    dsimp only at zero
    split at zero <;> cases zero

theorem patched_text_printed {format : TripFormat} {left right : Operand} {bufA bufB : Bytes} {lines : List Bytes}
    (pf : Patchfile) (differ : bufA ≠ bufB)
    (printed : printBody format.opts left right (splitLines bufA) (splitLines bufB)
      (hunksOf (splitLines bufA) (splitLines bufB)) = some (joinLines lines))
    (whole : ∀ line ∈ lines, OneLine line) (parsed : parsePatchStream (ended lines) .fmtUnknown = some [pf])
    (shown : List.Forall₂ (Represents (readAllLines bufA) (readAllLines bufB)) pf.hunks
      (printedRegions format (splitLines bufA) (splitLines bufB)))
    (aligned : Aligned (readAllLines bufA) (readAllLines bufB) (readAllLines bufA).length (readAllLines bufB).length 0 0
      (printedRegions format (splitLines bufA) (splitLines bufB)))
    (placed : InPlace (splitLines bufA).lines 0 (printedRegions format (splitLines bufA) (splitLines bufB))) :
    patchedText format left right bufA bufB = some bufB := by
  obtain ⟨⟨ops, built, hunks⟩, -⟩ := hunks_of_spec (splitLines bufA) (splitLines bufB)
  have flag : format.opts.bflag = false := by cases format <;> rfl
  have nonempty : ¬ (hunksOf (splitLines bufA) (splitLines bufB)).length = 0 := by
    rw [length_eq_zero_iff]
    exact hunks_of_differ differ
  have texts : (readAllLines bufA).map Pline.text = (splitLines bufA).lines := by rw [read_all_lines_stored, stored_text]
  have applied := apply_hunks_splice pf.hunks _ shown 0 0 aligned (by rwa [texts])
  rw [aligned_splice _ 0 0 aligned, drop_zero] at applied
  obtain ⟨result, diff⟩ : ∃ result, diffFiles format.opts left right bufA bufB =
      some ⟨result, joinLines lines, noeolDiagnostics format.opts left right (splitLines bufA) (splitLines bufB)
        (hunksOf (splitLines bufA) (splitLines bufB))⟩ := by
    simp only [diffFiles, flag, built, hunks, Option.bind_eq_bind, Option.bind_some, if_neg nonempty, printed]
    exact ⟨_, rfl⟩
  have read : readAllLines (joinLines lines) = ended lines := read_join_lines lines whole
  simp only [patchedText, diff, read, parsed, applySection, Option.bind_eq_bind, Option.bind_some]
  rw [show ((0 : Nat) : Int) - ((0 : Nat) : Int) = 0 from rfl] at applied
  rw [applied]
  simp only [Option.bind_some, if_true, write_read]

structure Recoverable (format : TripFormat) (left right : Operand) (bufA bufB : Bytes) : Prop where
  differ : bufA ≠ bufB
  small : (splitLines bufA).lines.length ≤ longMax ∧ (splitLines bufB).lines.length ≤ longMax
  placed : InPlace (splitLines bufA).lines 0 (printedRegions format (splitLines bufA) (splitLines bufB))
  expressible : Expressible format left right (splitLines bufA) (splitLines bufB)

theorem unified_body_join (left right : Operand) {a b : TextFile} {context : Nat} {hunks : List Diff.Hunk}
    (covers : ∀ g ∈ buildGroups hunks context a.lines.length b.lines.length, Covers a b g) :
    printBody (TripFormat.opts (.unified context)) left right a b hunks =
      some (joinLines (unifiedTitles left right ++
        (buildGroups hunks context a.lines.length b.lines.length).flatMap (groupLines a b))) := by
  have body := print_groups_join _ fun g listed => print_unified_group_join a b g (covers g listed)
  simp only [printBody, TripFormat.opts, body, Option.bind_eq_bind, Option.bind_some, unifiedTitles, cons_append,
    nil_append, join_lines_cons, append_assoc]
  rfl

theorem unified_titles_one_line {left right : Operand} (first : OneLine left.label) (second : OneLine right.label) :
    ∀ line ∈ unifiedTitles left right, OneLine line := by
  have tab : OneLine (ascii "\t") := by unfold OneLine; decide
  intro line mem
  simp only [unifiedTitles, mem_cons, not_mem_nil, or_false] at mem
  rcases mem with rfl | rfl
  · exact one_line_append (by unfold OneLine; decide) (one_line_append first (one_line_append tab left.unifiedOneLine))
  · exact one_line_append (by unfold OneLine; decide) (one_line_append second (one_line_append tab right.unifiedOneLine))

theorem build_groups_nonempty (hunks : List Diff.Hunk) (context na nb : Nat) (nonempty : hunks ≠ []) :
    buildGroups hunks context na nb ≠ [] := by
  obtain ⟨h, rest, rfl⟩ := exists_cons_of_ne_nil nonempty
  exact cons_ne_nil _ _

theorem round_trip_recoverable (format : TripFormat) (left right : Operand) (bufA bufB : Bytes)
    (recoverable : Recoverable format left right bufA bufB) : patchedText format left right bufA bufB = some bufB := by
  obtain ⟨differ, small, placed, expressible⟩ := recoverable
  have wholeA := split_lines_from_one_line [] bufA not_mem_nil
  have wholeB := split_lines_from_one_line [] bufB not_mem_nil
  obtain ⟨-, aligned, parted⟩ := hunks_of_spec (splitLines bufA) (splitLines bufB)
  have nonempty := hunks_of_differ differ
  cases format with
  | normal =>
    have inside := aligned_inside _ 0 0 aligned
    have printed := print_default_join (splitLines bufA) (splitLines bufB) _ inside
    refine patched_text_printed
      ⟨.fmtNormal, none, none, (hunksOf (splitLines bufA) (splitLines bufB)).map
        (normalHunk (splitLines bufA) (splitLines bufB)), []⟩ differ printed ?_ ?_ ?_ ?_ placed
    · intro line mem
      obtain ⟨h, -, listed⟩ := mem_flatMap.mp mem
      exact default_lines_one_line wholeA wholeB h line listed
    · obtain ⟨h, rest, split⟩ := exists_cons_of_ne_nil nonempty
      simp only [Expressible, split] at expressible
      rw [split] at inside parted ⊢
      exact parse_normal_stream small inside parted expressible
    · rw [read_all_lines_stored, read_all_lines_stored, forall₂_map_left_iff, printedRegions, forall₂_same]
      exact fun h mem => normal_hunk_represents _ _ h (inside h mem) (expressible h mem)
    · rw [read_all_lines_stored, read_all_lines_stored, stored_length, stored_length]
      exact aligned
  | unified context =>
    obtain ⟨fits, unwrapped, labels⟩ := expressible
    obtain ⟨outer, covers⟩ := build_groups_cover small fits unwrapped
    have printed := unified_body_join left right covers
    have filled := build_groups_nonempty _ context (splitLines bufA).lines.length (splitLines bufB).lines.length nonempty
    refine patched_text_printed _ differ printed ?_
      (parse_unified_stream small filled covers) ?_ ?_ placed
    · intro line mem
      rcases mem_append.mp mem with title | mem
      · exact unified_titles_one_line labels.1 labels.2 line title
      · obtain ⟨g, -, listed⟩ := mem_flatMap.mp mem
        exact group_lines_one_line wholeA wholeB g line listed
    · rw [read_all_lines_stored, read_all_lines_stored, unifiedFile, forall₂_map_left_iff, printedRegions,
        forall₂_map_right_iff, forall₂_same]
      exact fun g mem => unified_hunk_represents _ _ g (covers g mem)
    · rw [read_all_lines_stored, read_all_lines_stored, stored_length, stored_length]
      exact outer

def plainOperand (label : String) (oneLine : newline ∉ ascii label) : Operand where
  label := ascii label
  ctxTimestamp := ascii label
  unifiedTimestamp := ascii label
  ctxOneLine := oneLine
  unifiedOneLine := oneLine

theorem round_trip_two_hunks :
    patchedText .normal (plainOperand "a" (by decide)) (plainOperand "b" (by decide)) (ascii "x\ny\nz\n")
      (ascii "p\nx\ny\nw\n") = some (ascii "p\nx\ny\nw\n") :=
  round_trip_recoverable .normal _ _ _ _
    ⟨by decide, by decide +kernel, by decide +kernel, by unfold Expressible Markerless; decide +kernel⟩

-- The second insertion is looked for one line too low, because the first one made the
-- file longer, and an empty old side matches there.
theorem round_trip_second_insertion :
    patchedText .normal (plainOperand "a" (by decide)) (plainOperand "b" (by decide)) (ascii "x\ny\n")
      (ascii "p\nx\nq\ny\n") = some (ascii "p\nx\ny\nq\n") ∧
    ascii "p\nx\ny\nq\n" ≠ ascii "p\nx\nq\ny\n" := by
  decide +kernel

end Spicule.Patch
