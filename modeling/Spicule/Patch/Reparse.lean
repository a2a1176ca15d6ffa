import Spicule.Patch.Render

namespace Spicule.Patch
open List
open Diff
open Splice Decimal

theorem take_marked_lines (kind : HopKind) (first second : UInt8) (lines : List Pline) (rest : List Pline) :
    takeMarked kind [first, second] lines.length (ended (lines.map fun p => first :: second :: p.text) ++ rest) =
      some (lines.map fun p => ⟨kind, ⟨p.text, true⟩⟩, rest) := by
  induction lines with
  | nil => rfl
  | cons p lines ih =>
    have marked : startsWith ⟨first :: second :: p.text, true⟩ [first, second] = true :=
      starts_with_append [first, second] p.text
    simp only [length_cons, map_cons, ended_cons, cons_append, takeMarked]
    rw [if_pos marked, ih]
    rfl

section
variable (a b : TextFile)
def hunkCommand (h : Diff.Hunk) : UInt8 := if h.a0 = h.a1 then 97 else if h.b0 = h.b1 then 100 else 99

def defaultHeader (h : Diff.Hunk) : Bytes := printRange h.a0 h.a1 44 ++ hunkCommand h :: printRange h.b0 h.b1 44

def defaultLines (h : Diff.Hunk) : List Bytes :=
  defaultHeader h :: ((slice (stored a.lines a.noeol) h.a0 h.a1).flatMap (hopLines (ascii "< ")) ++
    ((if h.a0 = h.a1 ∨ h.b0 = h.b1 then [] else [ascii "---"]) ++
      (slice (stored b.lines b.noeol) h.b0 h.b1).flatMap (hopLines (ascii "> "))))

def Inside (h : Diff.Hunk) : Prop :=
  (h.a0 ≤ h.a1 ∧ h.b0 ≤ h.b1) ∧ h.a1 ≤ a.lines.length ∧ h.b1 ≤ b.lines.length

variable (h : Diff.Hunk)
theorem print_default_hunk_join (inside : Inside a b h) :
    printDefaultHunk a b h = some (joinLines (defaultLines a b h)) := by
  obtain ⟨⟨spanA, spanB⟩, boundA, boundB⟩ := inside
  have old := print_span_join (ascii "< ") a spanA boundA
  have new := print_span_join (ascii "> ") b spanB boundB
  simp only [printDefaultHunk, old, new, Option.bind_eq_bind, Option.bind_some, defaultLines, join_lines_cons,
    join_lines_append, defaultHeader, hunkCommand, beq_iff_eq, append_assoc, Option.some.injEq]
  by_cases emptyA : h.a0 = h.a1
  · simp [emptyA]
    rfl
  · by_cases emptyB : h.b0 = h.b1
    · simp [emptyA, emptyB]
      rfl
    · simp [emptyA, emptyB]
      rfl

theorem print_default_join (hunks : List Diff.Hunk) (inside : ∀ h ∈ hunks, Inside a b h) :
    printDefault a b hunks = some (joinLines (hunks.flatMap (defaultLines a b))) := by
  induction hunks with
  | nil => rfl
  | cons h rest ih =>
    have text := print_default_hunk_join a b h (inside h mem_cons_self)
    have later := ih (forall_mem_cons.mp inside).2
    simp only [printDefault, text, later, Option.bind_eq_bind, Option.bind_some, flatMap_cons, join_lines_append]

theorem parse_default_header (inside : Inside a b h) (small : a.lines.length ≤ longMax ∧ b.lines.length ≤ longMax) :
    isNormalHeader ⟨defaultHeader h, true⟩ =
      some ⟨rangeStart h.a0 h.a1, rangeStop h.a0 h.a1, hunkCommand h, rangeStart h.b0 h.b1, rangeStop h.b0 h.b1⟩ := by
  obtain ⟨⟨spanA, spanB⟩, boundA, boundB⟩ := inside
  have command : isCommand (hunkCommand h) = true ∧ isDigit (hunkCommand h) = false ∧ hunkCommand h ≠ 44 := by
    unfold hunkCommand
    split
    · decide
    · split <;> decide
  have delimits := delimits_cons (hunkCommand h) (printRange h.b0 h.b1 44) command.2.1 command.2.2
  obtain ⟨mid, first, second⟩ := parse_print_range spanA (by omega) delimits
  obtain ⟨mid', first', second'⟩ := parse_print_range spanB (by omega) delimits_nil
  rw [append_nil] at first'
  simp only [isNormalHeader, defaultHeader, first, second, first', second', command.1, Option.bind_eq_bind,
    Option.bind_some, if_true]

def normalHunk (h : Diff.Hunk) : Hunk where
  oldStart := rangeStart h.a0 h.a1
  oldCount := h.a1 - h.a0
  newStart := rangeStart h.b0 h.b1
  newCount := h.b1 - h.b0
  hops := (slice (stored a.lines a.noeol) h.a0 h.a1).map (fun p => ⟨.hopDel, ⟨p.text, true⟩⟩) ++
    (slice (stored b.lines b.noeol) h.b0 h.b1).map (fun p => ⟨.hopAdd, ⟨p.text, true⟩⟩)
  oldNoNl := false
  newNoNl := false

-- The normal format has no place for the marker, except after a deletion that ends the patch.
def Markerless (h : Diff.Hunk) : Prop :=
  h.b0 < h.b1 → (¬ (b.noeol = true ∧ h.b1 = b.lines.length)) ∧
    ¬ (a.noeol = true ∧ h.a0 < h.a1 ∧ h.a1 = a.lines.length)

def trailingMarker (h : Diff.Hunk) : List Bytes :=
  if a.noeol = true ∧ h.a0 < h.a1 ∧ h.a1 = a.lines.length then [noNewlineLine] else []

theorem markerless_ended (bound : h.b1 ≤ b.lines.length) (markerless : Markerless a b h) (p : Pline)
    (mem : p ∈ slice (stored b.lines b.noeol) h.b0 h.b1) : p.hasNl = true := by
  obtain ⟨k, inside, rfl⟩ := mem_iff_getElem.mp mem
  have size := slice_length (stored b.lines b.noeol) (i := h.b0) (by simpa using bound)
  have here := stored_get b.lines b.noeol (h.b0 + k) (by omega)
  rw [List.getElem?_eq_getElem (by rw [stored_length]; omega), Option.some.injEq] at here
  simp only [slice, List.getElem_take, List.getElem_drop, here]
  by_cases last : h.b0 + k + 1 = b.lines.length
  · have ended : b.noeol = false := by
      by_contra truncated
      exact (markerless (by omega)).1 ⟨Bool.eq_true_of_not_eq_false truncated, by omega⟩
    simp [ended]
  · simp [last]

theorem range_count_filled {r0 r1 : Nat} (filled : r0 < r1) :
    rangeCount (rangeStart r0 r1) (rangeStop r0 r1) = r1 - r0 := by
  have differ : ¬ r0 = r1 := by omega
  rw [rangeStart, rangeStop, if_neg differ, if_neg differ, rangeCount, if_pos (by omega)]
  omega

section
variable (inside : Inside a b h) (small : a.lines.length ≤ longMax ∧ b.lines.length ≤ longMax)
include inside small

theorem parse_normal_hunk_printed (filled : h.a0 < h.a1 ∨ h.b0 < h.b1)
    (markerless : Markerless a b h) (rest : List Pline) :
    parseNormalHunk (ended (defaultLines a b h) ++ rest) =
      some (normalHunk a b h, ended (trailingMarker a h) ++ rest) := by
  have header := parse_default_header a b h inside small
  obtain ⟨⟨spanA, spanB⟩, boundA, boundB⟩ := inside
  have lengthA : (slice (stored a.lines a.noeol) h.a0 h.a1).length = h.a1 - h.a0 := slice_length _ (by simpa using boundA)
  have lengthB : (slice (stored b.lines b.noeol) h.b0 h.b1).length = h.b1 - h.b0 := slice_length _ (by simpa using boundB)
  have oldCount : (if hunkCommand h = 97 then 0 else rangeCount (rangeStart h.a0 h.a1) (rangeStop h.a0 h.a1)) =
      (slice (stored a.lines a.noeol) h.a0 h.a1).length := by
    by_cases emptyA : h.a0 = h.a1
    · simp [hunkCommand, emptyA]
    · rw [range_count_filled (by omega), lengthA, if_neg]
      simp only [hunkCommand, if_neg emptyA]
      split <;> decide
  have newCount : (if hunkCommand h = 100 then 0 else rangeCount (rangeStart h.b0 h.b1) (rangeStop h.b0 h.b1)) =
      (slice (stored b.lines b.noeol) h.b0 h.b1).length := by
    by_cases emptyB : h.b0 = h.b1
    · have emptyA : ¬ h.a0 = h.a1 := by omega
      simp [hunkCommand, emptyA, emptyB]
    · rw [range_count_filled (by omega), lengthB, if_neg]
      simp only [hunkCommand, if_neg emptyB]
      split <;> decide
  have linesB : (slice (stored b.lines b.noeol) h.b0 h.b1).flatMap (hopLines (ascii "> ")) =
      (slice (stored b.lines b.noeol) h.b0 h.b1).map fun p => 62 :: 32 :: p.text := by
    rw [slice_hop_lines _ _ _ boundB, if_neg, append_nil]
    · rfl
    · rintro ⟨noeol, order, last⟩
      exact (markerless order).1 ⟨noeol, last⟩
  have linesA : (slice (stored a.lines a.noeol) h.a0 h.a1).flatMap (hopLines (ascii "< ")) =
      ((slice (stored a.lines a.noeol) h.a0 h.a1).map fun p => 60 :: 32 :: p.text) ++ trailingMarker a h :=
    slice_hop_lines _ _ _ boundA
  have separator : ∀ left, takeSeparator (hunkCommand h) (ended (trailingMarker a h) ++
      (ended (if h.a0 = h.a1 ∨ h.b0 = h.b1 then [] else [ascii "---"]) ++ left)) =
        some (ended (trailingMarker a h) ++ left) := by
    intro left
    by_cases change : h.a0 = h.a1 ∨ h.b0 = h.b1
    · have other : hunkCommand h ≠ 99 := by
        unfold hunkCommand
        split
        · decide
        · rw [if_pos (by omega)]
          decide
      simp [takeSeparator, other, change]
    · have command : hunkCommand h = 99 := by
        rw [hunkCommand, if_neg (by omega), if_neg (by omega)]
      have none : trailingMarker a h = [] := if_neg (markerless (by omega)).2
      simp [takeSeparator, command, none, change]
  have adds : takeMarked .hopAdd (ascii "> ") (slice (stored b.lines b.noeol) h.b0 h.b1).length
      (ended (trailingMarker a h) ++ (ended ((slice (stored b.lines b.noeol) h.b0 h.b1).map fun p => 62 :: 32 :: p.text) ++
        rest)) = some ((slice (stored b.lines b.noeol) h.b0 h.b1).map (fun p => ⟨.hopAdd, ⟨p.text, true⟩⟩),
          ended (trailingMarker a h) ++ rest) := by
    by_cases emptyB : h.b0 = h.b1
    · simp [emptyB, takeMarked]
    · have none : trailingMarker a h = [] := if_neg (markerless (by omega)).2
      rw [none]
      exact take_marked_lines .hopAdd 62 32 _ rest
  have dels := take_marked_lines .hopDel 60 32 (slice (stored a.lines a.noeol) h.a0 h.a1)
  simp only [defaultLines, linesA, linesB, ended_cons, ended_append, cons_append, append_assoc, parseNormalHunk,
    header, oldCount, newCount, Option.bind_eq_bind, Option.bind_some]
  rw [show ascii "< " = [60, 32] from rfl, dels]
  simp only [Option.bind_some, separator, adds]
  rw [lengthA, lengthB]
  rfl

theorem normal_header_printed : isNormalHeaderLine ⟨defaultHeader h, true⟩ = true := by
  rw [isNormalHeaderLine, parse_default_header a b h inside small]
  rfl

theorem parse_normal_hunks_next {fuel : Nat} {rest tail left : List Pline} {hunks : List Hunk}
    (one : parseNormalHunk (ended (defaultLines a b h) ++ rest) = some (normalHunk a b h, tail))
    (more : parseNormalHunks fuel tail = some (hunks, left)) :
    parseNormalHunks (fuel + 1) (ended (defaultLines a b h) ++ rest) = some (normalHunk a b h :: hunks, left) := by
  rw [defaultLines, ended_cons, cons_append] at one ⊢
  simp only [parseNormalHunks, normal_header_printed a b h inside small, if_true, one, more, Option.bind_eq_bind,
    Option.bind_some]

end

theorem parse_normal_hunks_marker (fuel : Nat) (rest : List Pline) :
    parseNormalHunks fuel (⟨noNewlineLine, true⟩ :: rest) = some ([], ⟨noNewlineLine, true⟩ :: rest) := by
  have other : isNormalHeaderLine ⟨noNewlineLine, true⟩ = false := by decide
  cases fuel with
  | zero => rfl
  | succ fuel => simp only [parseNormalHunks, other, Bool.false_eq_true, if_false]

theorem parse_normal_hunks_printed (small : a.lines.length ≤ longMax ∧ b.lines.length ≤ longMax)
    (hunks : List Diff.Hunk) (fuel low : Nat) (enough : hunks.length ≤ fuel) (inside : ∀ h ∈ hunks, Inside a b h)
    (parted : Parted low hunks) (markerless : ∀ h ∈ hunks, Markerless a b h) :
    ∃ left, parseNormalHunks fuel (ended (hunks.flatMap (defaultLines a b))) =
      some (hunks.map (normalHunk a b), left) := by
  induction hunks generalizing fuel low with
  | nil =>
    cases fuel <;> exact ⟨[], rfl⟩
  | cons h rest ih =>
    simp only [length_cons] at enough
    rcases fuel with _ | fuel
    · omega
    have insideH := inside h mem_cons_self
    have insideRest : ∀ other ∈ rest, Inside a b other := (forall_mem_cons.mp inside).2
    obtain ⟨-, filled, later⟩ := parted
    have first := parse_normal_hunk_printed a b h insideH small filled (markerless h mem_cons_self)
      (ended (rest.flatMap (defaultLines a b)))
    rw [flatMap_cons, ended_append]
    by_cases marked : a.noeol = true ∧ h.a0 < h.a1 ∧ h.a1 = a.lines.length
    · have last : rest = [] := by
        cases rest with
        | nil => rfl
        | cons next more =>
          have low := later.1
          obtain ⟨⟨span, -⟩, bound, -⟩ := insideRest next mem_cons_self
          omega
      subst last
      rw [trailingMarker, if_pos marked] at first
      exact ⟨_, parse_normal_hunks_next a b h insideH small first (parse_normal_hunks_marker fuel _)⟩
    · rw [trailingMarker, if_neg marked] at first
      obtain ⟨left, more⟩ := ih fuel (h.a1 + 1) (by omega) insideRest later
        (forall_mem_cons.mp markerless).2
      exact ⟨left, parse_normal_hunks_next a b h insideH small first more⟩

theorem normal_hunk_represents (inside : Inside a b h) (markerless : Markerless a b h) :
    Represents (stored a.lines a.noeol) (stored b.lines b.noeol) (normalHunk a b h) h := by
  obtain ⟨⟨spanA, spanB⟩, boundA, boundB⟩ := inside
  have added : (slice (stored b.lines b.noeol) h.b0 h.b1).map (fun p => (⟨.hopAdd, ⟨p.text, true⟩⟩ : Hop)) =
      (slice (stored b.lines b.noeol) h.b0 h.b1).map (Hop.mk .hopAdd) := by
    refine map_congr_left fun p mem => ?_
    rw [show p = ⟨p.text, true⟩ from congrArg (Pline.mk p.text) (markerless_ended a b h boundB markerless p mem)]
  refine ⟨rfl, rfl, rfl, ?_, ?_, ?_⟩
  · have fits := fits_added ((stored a.lines a.noeol).drop h.a1) [] (slice (stored b.lines b.noeol) h.b0 h.b1) trivial
    rw [append_nil] at fits
    rw [normalHunk, added]
    exact fits_stretch_del _ _ (fun p => ⟨p.text, true⟩) (fun _ => rfl) spanA fits
  · have deleted : (slice (stored a.lines a.noeol) h.a0 h.a1).map (fun p => (⟨.hopDel, ⟨p.text, true⟩⟩ : Hop)) =
        ((slice (stored a.lines a.noeol) h.a0 h.a1).map fun p => ⟨p.text, true⟩).map (Hop.mk .hopDel) := by
      rw [map_map]
      rfl
    rw [normalHunk, added, deleted, old_lines_append, old_lines_del, old_lines_add, append_nil, length_map,
      slice_length _ (by simpa using boundA)]
  · have deleted : newLines ((slice (stored a.lines a.noeol) h.a0 h.a1).map fun p => ⟨.hopDel, ⟨p.text, true⟩⟩) = [] := by
      simp [newLines, filter_map, Function.comp_def]
    rw [normalHunk, added, new_lines_append, deleted, new_lines_add, nil_append]

end

open Option

section
variable (a b : TextFile)
def unifiedMark : HopKind → UInt8
  | .hopCtx => 32
  | .hopDel => 45
  | .hopAdd => 43

def groupHops (ga1 : Nat) : List Diff.Hunk → Nat → List Hop
  | [], pos => (slice (stored a.lines a.noeol) pos ga1).map (Hop.mk .hopCtx)
  | h :: rest, pos =>
    (slice (stored a.lines a.noeol) pos h.a0).map (Hop.mk .hopCtx) ++
      ((slice (stored a.lines a.noeol) h.a0 h.a1).map (Hop.mk .hopDel) ++
        ((slice (stored b.lines b.noeol) h.b0 h.b1).map (Hop.mk .hopAdd) ++ groupHops ga1 rest h.a1))

def hopText (hop : Hop) : List Bytes := hopLines [unifiedMark hop.kind] hop.p

theorem flat_map_hop_text (kind : HopKind) (lines : List Pline) :
    (lines.map (Hop.mk kind)).flatMap hopText = lines.flatMap (hopLines [unifiedMark kind]) := by
  rw [flatMap_map]
  rfl

theorem print_unified_hunks_join {α : Type} {xs ys : List α} {ga1 gb1 : Nat} (boundA : ga1 ≤ a.lines.length)
    (boundB : gb1 ≤ b.lines.length) (hunks : List Diff.Hunk) (pos posB : Nat)
    (aligned : Aligned xs ys ga1 gb1 pos posB hunks) :
    printUnifiedHunks a b ga1 hunks pos = some (joinLines ((groupHops a b ga1 hunks pos).flatMap hopText)) := by
  induction hunks generalizing pos posB with
  | nil =>
    rw [printUnifiedHunks, print_span_join (ascii " ") a aligned.order boundA, groupHops, flat_map_hop_text]
    rfl
  | cons h rest ih =>
    obtain ⟨stretch, ⟨spanA, spanB⟩, later⟩ := aligned
    obtain ⟨endA, endB⟩ := aligned_bounds rest _ _ later
    have lead := print_span_join (ascii " ") a stretch.order (by omega)
    have old := print_span_join (ascii "-") a spanA (by omega)
    have new := print_span_join (ascii "+") b spanB (by omega)
    simp only [printUnifiedHunks, lead, old, new, ih h.a1 h.b1 later, bind_eq_bind, bind_some, groupHops,
      flatMap_append, flat_map_hop_text, join_lines_append, append_assoc]
    rfl

theorem group_hops_images {β : Type} (f : Pline → β) {ga1 gb1 : Nat} (hunks : List Diff.Hunk) (pos posB : Nat)
    (aligned : Aligned ((stored a.lines a.noeol).map f) ((stored b.lines b.noeol).map f) ga1 gb1 pos posB hunks) :
    Fits (groupHops a b ga1 hunks pos) ((stored a.lines a.noeol).drop pos) ∧
      oldLines (groupHops a b ga1 hunks pos) = slice (stored a.lines a.noeol) pos ga1 ∧
      (newLines (groupHops a b ga1 hunks pos)).map f = slice ((stored b.lines b.noeol).map f) posB gb1 := by
  induction hunks generalizing pos posB with
  | nil =>
    refine ⟨?_, by simp [groupHops], by rw [groupHops, new_lines_ctx, slice_map, aligned.equal]⟩
    have fits := fits_stretch_ctx (stored a.lines a.noeol) [] aligned.order trivial
    rwa [append_nil] at fits
  | cons h rest ih =>
    obtain ⟨stretch, ⟨spanA, spanB⟩, later⟩ := aligned
    obtain ⟨fits, olds, news⟩ := ih h.a1 h.b1 later
    obtain ⟨endA, endB⟩ := aligned_bounds rest _ _ later
    refine ⟨?_, ?_, ?_⟩
    · have added := fits_added _ _ (slice (stored b.lines b.noeol) h.b0 h.b1) fits
      have deleted := fits_stretch_del (stored a.lines a.noeol) _ id (fun _ => rfl) spanA added
      exact fits_stretch_ctx (stored a.lines a.noeol) _ stretch.order deleted
    · simp only [groupHops, old_lines_append, old_lines_ctx, old_lines_del, old_lines_add, nil_append, olds]
      rw [slice_append _ spanA endA, slice_append _ stretch.order (spanA.trans endA)]
    · simp only [groupHops, new_lines_append, new_lines_ctx, new_lines_del, new_lines_add, nil_append, map_append, news]
      rw [slice_map, slice_map, stretch.equal, slice_append _ spanB endB, slice_append _ stretch.order_right (spanB.trans endB)]

theorem group_hops_sides {ga1 gb1 : Nat} (hunks : List Diff.Hunk) (pos posB : Nat)
    (aligned : Aligned (stored a.lines a.noeol) (stored b.lines b.noeol) ga1 gb1 pos posB hunks) :
    Fits (groupHops a b ga1 hunks pos) ((stored a.lines a.noeol).drop pos) ∧
      oldLines (groupHops a b ga1 hunks pos) = slice (stored a.lines a.noeol) pos ga1 ∧
      newLines (groupHops a b ga1 hunks pos) = slice (stored b.lines b.noeol) posB gb1 := by
  simpa using group_hops_images a b id hunks pos posB (by simpa using aligned)

def NoMarkerAhead (rest : List Pline) : Prop := ∀ pl tail, rest = pl :: tail → startsWith pl (ascii "\\ ") = false

variable (hop : Hop)
theorem unified_hop_printed :
    unifiedHop ⟨unifiedMark hop.kind :: hop.p.text, true⟩ = some ⟨hop.kind, ⟨hop.p.text, true⟩⟩ := by
  obtain ⟨kind, p⟩ := hop
  cases kind <;> rfl

variable (rest : List Pline)
theorem unified_body_ended {oleft nleft : Int} {pl : Pline} (positive : oleft > 0 ∨ nleft > 0)
    (read : unifiedHop pl = some hop) (plain : NoMarkerAhead rest) :
    unifiedBody (pl :: rest) oleft nleft = (unifiedBody rest (if hop.kind = .hopAdd then oleft else oleft - 1)
        (if hop.kind = .hopDel then nleft else nleft - 1)).map fun result => (hop :: result.1, result.2) := by
  cases rest with
  | nil =>
    simp only [unifiedBody, if_pos positive, read, bind_eq_bind, bind_some]
    rw [map_eq_bind]
    rfl
  | cons mark later =>
    rw [unifiedBody, if_pos positive, read]
    simp only [bind_eq_bind, bind_some, plain mark later rfl, Bool.false_eq_true, if_false]
    rw [map_eq_bind]
    rfl

theorem unified_body_unended (oleft nleft : Int) (pl mark : Pline)
    (positive : oleft > 0 ∨ nleft > 0) (read : unifiedHop pl = some hop) (marked : startsWith mark (ascii "\\ ") = true) :
    unifiedBody (pl :: mark :: rest) oleft nleft = (unifiedBody rest (if hop.kind = .hopAdd then oleft else oleft - 1)
        (if hop.kind = .hopDel then nleft else nleft - 1)).map fun result => (hop.unended :: result.1, result.2) := by
  rw [unifiedBody, if_pos positive, read]
  simp only [bind_eq_bind, bind_some, marked, if_true]
  rw [map_eq_bind]
  rfl

variable (hops : List Hop)
theorem hop_counts :
    ((oldLines (hop :: hops)).length : Int) = (if hop.kind = .hopAdd then 0 else 1) + (oldLines hops).length ∧
      ((newLines (hop :: hops)).length : Int) = (if hop.kind = .hopDel then 0 else 1) + (newLines hops).length := by
  obtain ⟨kind, p⟩ := hop
  cases kind <;> simp [oldLines, newLines] <;> omega

theorem no_marker_ahead_printed (rest : List Pline) (plain : NoMarkerAhead rest) :
    NoMarkerAhead (ended (hops.flatMap hopText) ++ rest) := by
  cases hops with
  | nil => exact plain
  | cons hop hops =>
    intro pl tail split
    rw [flatMap_cons, hopText, hopLines, cons_append, ended_cons, cons_append, List.cons.injEq] at split
    have other : unifiedMark hop.kind ≠ 92 := by cases hop.kind <;> decide
    rw [← split.1]
    exact starts_with_other other

theorem unified_body_printed (rest : List Pline) (plain : NoMarkerAhead rest) :
    unifiedBody (ended (hops.flatMap hopText) ++ rest) (oldLines hops).length (newLines hops).length =
      some (hops, rest) := by
  induction hops with
  | nil =>
    cases rest with
    | nil => rfl
    | cons pl rest => simp [unifiedBody, oldLines, newLines]
  | cons hop hops ih =>
    obtain ⟨olds, news⟩ := hop_counts hop hops
    have positive : ((oldLines (hop :: hops)).length : Int) > 0 ∨ ((newLines (hop :: hops)).length : Int) > 0 := by
      rw [olds, news]
      obtain ⟨kind, p⟩ := hop
      cases kind <;> simp <;> omega
    have restOld : (if hop.kind = .hopAdd then ((oldLines (hop :: hops)).length : Int)
        else (oldLines (hop :: hops)).length - 1) = (oldLines hops).length := by
      rw [olds]
      split <;> omega
    have restNew : (if hop.kind = .hopDel then ((newLines (hop :: hops)).length : Int)
        else (newLines (hop :: hops)).length - 1) = (newLines hops).length := by
      rw [news]
      split <;> omega
    have read := unified_hop_printed hop
    obtain ⟨kind, text, hasNl⟩ := hop
    cases hasNl with
    | true =>
      have step := unified_body_ended ⟨kind, text, true⟩ (ended (hops.flatMap hopText) ++ rest) positive read
        (no_marker_ahead_printed hops rest plain)
      rw [restOld, restNew, ih] at step
      exact step
    | false =>
      have step := unified_body_unended ⟨kind, text, true⟩ (ended (hops.flatMap hopText) ++ rest) _ _ _
        ⟨noNewlineLine, true⟩ positive read (by decide)
      rw [restOld, restNew, ih] at step
      exact step

def groupHeader (g : Group) : Bytes :=
  ascii "@@ -" ++ (printUnifiedRange g.ga0 g.ga1 ++ (ascii " +" ++ (printUnifiedRange g.gb0 g.gb1 ++ ascii " @@")))

def groupLines (g : Group) : List Bytes := groupHeader g :: (groupHops a b g.ga1 g.hunks g.ga0).flatMap hopText

structure Covers (g : Group) : Prop where
  aligned : Aligned (stored a.lines a.noeol) (stored b.lines b.noeol) g.ga1 g.gb1 g.ga0 g.gb0 g.hunks
  insideA : g.ga1 ≤ a.lines.length
  insideB : g.gb1 ≤ b.lines.length

def unifiedHunk (g : Group) : Hunk where
  oldStart := rangeStart g.ga0 g.ga1
  oldCount := g.ga1 - g.ga0
  newStart := rangeStart g.gb0 g.gb1
  newCount := g.gb1 - g.gb0
  hops := groupHops a b g.ga1 g.hunks g.ga0
  oldNoNl := (groupHops a b g.ga1 g.hunks g.ga0).any fun hop => !hop.p.hasNl && hop.kind != .hopAdd
  newNoNl := (groupHops a b g.ga1 g.hunks g.ga0).any fun hop => !hop.p.hasNl && hop.kind != .hopDel

variable (g : Group)
theorem print_unified_group_join (covers : Covers a b g) :
    printUnifiedGroup a b g = some (joinLines (groupLines a b g)) := by
  have body := print_unified_hunks_join a b covers.insideA covers.insideB g.hunks g.ga0 g.gb0 covers.aligned
  simp only [printUnifiedGroup, body, bind_eq_bind, bind_some, groupLines, groupHeader, join_lines_cons,
    append_assoc]
  rfl

variable (groups : List Group)
theorem print_groups_join {print : Group → Option Bytes} {lines : Group → List Bytes}
    (printed : ∀ g ∈ groups, print g = some (joinLines (lines g))) :
    printGroups print groups = some (joinLines (groups.flatMap lines)) := by
  induction groups with
  | nil => rfl
  | cons g rest ih =>
    obtain ⟨text, later⟩ := forall_mem_cons.mp printed
    simp only [printGroups, text, ih later, bind_eq_bind, bind_some, flatMap_cons, join_lines_append]

theorem parse_at_header_printed (covers : Covers a b g)
    (small : a.lines.length ≤ longMax ∧ b.lines.length ≤ longMax) :
    parseAtHeader ⟨groupHeader g, true⟩ =
      some (rangeStart g.ga0 g.ga1, g.ga1 - g.ga0, rangeStart g.gb0 g.gb1, g.gb1 - g.gb0) := by
  obtain ⟨spanA, spanB⟩ := aligned_bounds g.hunks _ _ covers.aligned
  have boundA := covers.insideA
  have boundB := covers.insideB
  obtain ⟨mid, first, second⟩ := parse_print_unified_range
    (32 :: 43 :: (printUnifiedRange g.gb0 g.gb1 ++ [32, 64, 64])) spanA (by omega) (delimits_cons 32 _ rfl (by decide))
  obtain ⟨mid', first', second'⟩ := parse_print_unified_range [32, 64, 64] spanB (by omega)
    (delimits_cons 32 _ rfl (by decide))
  have opening : startsWith ⟨groupHeader g, true⟩ (ascii "@@ -") = true := starts_with_append _ _
  have rest : (groupHeader g).drop 4 =
      printUnifiedRange g.ga0 g.ga1 ++ 32 :: 43 :: (printUnifiedRange g.gb0 g.gb1 ++ [32, 64, 64]) := rfl
  simp only [parseAtHeader, if_pos opening, rest, first, second, expect, first', second', if_true, bind_eq_bind,
    bind_some]

theorem parse_unified_hunk_printed (covers : Covers a b g)
    (small : a.lines.length ≤ longMax ∧ b.lines.length ≤ longMax) (rest : List Pline) (plain : NoMarkerAhead rest) :
    parseUnifiedHunk (ended (groupLines a b g) ++ rest) = some (unifiedHunk a b g, rest) := by
  obtain ⟨-, olds, news⟩ := group_hops_sides a b g.hunks g.ga0 g.gb0 covers.aligned
  have body := unified_body_printed (groupHops a b g.ga1 g.hunks g.ga0) rest plain
  rw [olds, news, slice_length _ (by simpa using covers.insideA), slice_length _ (by simpa using covers.insideB)] at body
  rw [groupLines, ended_cons, cons_append]
  simp only [parseUnifiedHunk, parse_at_header_printed a b g covers small, body, bind_eq_bind, bind_some]
  rfl

theorem no_marker_ahead_groups : NoMarkerAhead (ended (groups.flatMap (groupLines a b))) := by
  cases groups with
  | nil =>
    intro pl tail split
    cases split
  | cons g rest =>
    intro pl tail split
    rw [flatMap_cons, groupLines, cons_append, ended_cons, List.cons.injEq] at split
    rw [← split.1]
    exact starts_with_other (by decide : (64 : UInt8) ≠ 92)

theorem parse_unified_hunks_printed (small : a.lines.length ≤ longMax ∧ b.lines.length ≤ longMax)
    (groups : List Group) (fuel : Nat) (enough : groups.length ≤ fuel) (covers : ∀ g ∈ groups, Covers a b g) :
    parseUnifiedHunks fuel (ended (groups.flatMap (groupLines a b))) = some (groups.map (unifiedHunk a b), []) := by
  induction groups generalizing fuel with
  | nil => cases fuel <;> rfl
  | cons g rest ih =>
    simp only [length_cons] at enough
    rcases fuel with _ | fuel
    · omega
    have one := parse_unified_hunk_printed a b g (covers g mem_cons_self) small _ (no_marker_ahead_groups a b rest)
    have more := ih fuel (by omega) (forall_mem_cons.mp covers).2
    have opening : startsWith ⟨groupHeader g, true⟩ (ascii "@@ -") = true := starts_with_append _ _
    rw [flatMap_cons, ended_append]
    rw [groupLines, ended_cons, cons_append] at one ⊢
    simp only [parseUnifiedHunks, if_pos opening, one, more, bind_eq_bind, bind_some, map_cons]

theorem unified_hunk_represents (covers : Covers a b g) :
    Represents (stored a.lines a.noeol) (stored b.lines b.noeol) (unifiedHunk a b g) g.region := by
  obtain ⟨fits, olds, news⟩ := group_hops_sides a b g.hunks g.ga0 g.gb0 covers.aligned
  refine ⟨rfl, rfl, rfl, fits, ?_, news⟩
  rw [unifiedHunk, olds, slice_length _ (by simpa using covers.insideA)]
  rfl

end

end Spicule.Patch
