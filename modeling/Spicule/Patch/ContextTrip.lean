import Spicule.Patch.Context
import Spicule.Patch.RoundTrip

namespace Spicule.Patch
open List
open Diff
open Splice Decimal

def sideSpan (side : Side) (h : Diff.Hunk) : Nat × Nat :=
  match side with
  | .sideA => (h.a0, h.a1)
  | .sideB => (h.b0, h.b1)

def sideKind : Side → HopKind
  | .sideA => .hopDel
  | .sideB => .hopAdd

def isOldSide : Side → Bool
  | .sideA => true
  | .sideB => false

section
variable (side : Side) (file : TextFile) (stop : Nat)
def sideHops : List Diff.Hunk → Nat → List Hop
  | [], pos => (slice (stored file.lines file.noeol) pos stop).map (Hop.mk .hopCtx)
  | h :: rest, pos =>
    (slice (stored file.lines file.noeol) pos (sideSpan side h).1).map (Hop.mk .hopCtx) ++
      ((slice (stored file.lines file.noeol) (sideSpan side h).1 (sideSpan side h).2).map (Hop.mk (sideKind side)) ++
        sideHops rest (sideSpan side h).2)

def sideLines : List Diff.Hunk → Nat → List Bytes
  | [], pos => (slice (stored file.lines file.noeol) pos stop).flatMap (hopLines (ascii "  "))
  | h :: rest, pos =>
    (slice (stored file.lines file.noeol) pos (sideSpan side h).1).flatMap (hopLines (ascii "  ")) ++
      ((slice (stored file.lines file.noeol) (sideSpan side h).1 (sideSpan side h).2).flatMap
          (hopLines ((contextPrefix side h).getD [])) ++
        sideLines rest (sideSpan side h).2)

def Spans : List Diff.Hunk → Nat → Prop
  | [], pos => pos ≤ stop
  | h :: rest, pos => pos ≤ (sideSpan side h).1 ∧ (sideSpan side h).1 ≤ (sideSpan side h).2 ∧ Spans rest (sideSpan side h).2

variable (hunks : List Diff.Hunk) (pos : Nat)
theorem spans_bound (spans : Spans side stop hunks pos) : pos ≤ stop := by
  induction hunks generalizing pos with
  | nil => exact spans
  | cons h rest ih => exact spans.1.trans (spans.2.1.trans (ih _ spans.2.2))

theorem spans_inside (spans : Spans side stop hunks pos) :
    ∀ h ∈ hunks, pos ≤ (sideSpan side h).1 ∧ (sideSpan side h).1 ≤ stop := by
  induction hunks generalizing pos with
  | nil => exact fun h mem => absurd mem not_mem_nil
  | cons h rest ih =>
    obtain ⟨before, span, later⟩ := spans
    intro other mem
    rcases mem_cons.mp mem with rfl | mem
    · exact ⟨before, span.trans (spans_bound side stop rest _ later)⟩
    · obtain ⟨low, high⟩ := ih _ later other mem
      exact ⟨before.trans (span.trans low), high⟩

theorem side_slice_absent {h : Diff.Hunk} (absent : contextPrefix side h = none) :
    slice (stored file.lines file.noeol) (sideSpan side h).1 (sideSpan side h).2 = [] := by
  have empty : (sideSpan side h).1 = (sideSpan side h).2 := by
    cases side <;> grind [contextPrefix, sideSpan]
  rw [empty, slice_self]

theorem print_context_side_cons (h : Diff.Hunk) (rest : List Diff.Hunk) (pos : Nat) :
    printContextSide side file stop (h :: rest) pos = (do
      let lead ← printCtxlines (ascii "  ") file ((sideSpan side h).1 - pos) pos
      let own ← match contextPrefix side h with
        | none => some []
        | some pfx => printCtxlines pfx file ((sideSpan side h).2 - (sideSpan side h).1) (sideSpan side h).1
      let later ← printContextSide side file stop rest (sideSpan side h).2
      some (lead ++ own ++ later)) := by
  cases side <;> rfl

theorem print_context_side_join (bound : stop ≤ file.lines.length) (hunks : List Diff.Hunk) (pos : Nat)
    (spans : Spans side stop hunks pos) :
    printContextSide side file stop hunks pos = some (joinLines (sideLines side file stop hunks pos)) := by
  induction hunks generalizing pos with
  | nil =>
    exact print_span_join (ascii "  ") file spans bound
  | cons h rest ih =>
    obtain ⟨before, span, later⟩ := spans
    have inside := (spans_bound side stop rest _ later).trans bound
    have lead := print_span_join (ascii "  ") file before (span.trans inside)
    rw [print_context_side_cons, lead, ih _ later]
    cases pfx : contextPrefix side h with
    | none => simp [sideLines, pfx, side_slice_absent side file pfx, join_lines_append]
    | some bytes => simp [sideLines, pfx, print_span_join bytes file span inside, join_lines_append]

structure Announces (isOld : Bool) (pfx : Bytes) (kind : HopKind) : Prop where
  read : ∀ text, ctxSideKind isOld ⟨pfx ++ text, true⟩ = some kind
  two : pfx.length = 2
  unmarked : ∀ text, startsWith ⟨pfx ++ text, true⟩ (ascii "\\ ") = false

theorem announces_context (isOld : Bool) : Announces isOld (ascii "  ") .hopCtx := ⟨fun _ => rfl, rfl, fun _ => rfl⟩

variable {pfx : Bytes}
theorem announces_changed {h : Diff.Hunk} (own : contextPrefix side h = some pfx) :
    Announces (isOldSide side) pfx (sideKind side) := by
  have marks : pfx = ascii "! " ∨ pfx = bif isOldSide side then ascii "- " else ascii "+ " := by
    cases side <;> grind [contextPrefix, isOldSide]
  cases side <;> rcases marks with rfl | rfl <;> exact ⟨fun _ => rfl, rfl, fun _ => rfl⟩

variable {tail : List Pline} {isOld : Bool} {kind : HopKind} (lines : List Pline)
theorem no_marker_ahead_run (announces : Announces isOld pfx kind) (plain : NoMarkerAhead tail) :
    NoMarkerAhead (ended (lines.flatMap (hopLines pfx)) ++ tail) := by
  cases lines with
  | nil => exact plain
  | cons p lines =>
    intro pl rest split
    rw [flatMap_cons, hopLines, cons_append, ended_cons, cons_append, List.cons.injEq] at split
    rw [← split.1]
    exact announces.unmarked p.text

theorem side_run_printed (announces : Announces isOld pfx kind) (plain : NoMarkerAhead tail) :
    parseCtxSideLines isOld (ended (lines.flatMap (hopLines pfx)) ++ tail) =
      (lines.map (Hop.mk kind) ++ (parseCtxSideLines isOld tail).1, (parseCtxSideLines isOld tail).2) := by
  induction lines with
  | nil => rfl
  | cons p lines ih =>
    have next := no_marker_ahead_run lines announces plain
    have text : (pfx ++ p.text).drop 2 = p.text := by rw [← announces.two, drop_left]
    obtain ⟨bytes, hasNl⟩ := p
    cases hasNl with
    | true =>
      have step := side_lines_ended isOld
        (announces.read bytes) (by
          intro mark mem
          obtain ⟨rest, split⟩ := head?_eq_some_iff.mp mem
          exact next mark rest split)
      rw [text, ih] at step
      exact step
    | false =>
      have step := side_lines_unended isOld ⟨noNewlineLine, true⟩
        (ended (lines.flatMap (hopLines pfx)) ++ tail) (announces.read bytes) (by decide)
      rw [text, ih] at step
      exact step

def SideEnds (isOld : Bool) (tail : List Pline) : Prop :=
  NoMarkerAhead tail ∧ ∀ pl rest, tail = pl :: rest → ctxSideKind isOld pl = none

theorem side_ends_parse (ends : SideEnds isOld tail) : parseCtxSideLines isOld tail = ([], tail) := by
  cases tail with
  | nil => rfl
  | cons pl rest => exact side_lines_stop _ (ends.2 pl rest rfl)

theorem side_printed (ends : SideEnds (isOldSide side) tail) :
    NoMarkerAhead (ended (sideLines side file stop hunks pos) ++ tail) ∧
      parseCtxSideLines (isOldSide side) (ended (sideLines side file stop hunks pos) ++ tail) =
        (sideHops side file stop hunks pos, tail) := by
  have context := announces_context (isOldSide side)
  induction hunks generalizing pos with
  | nil =>
    refine ⟨no_marker_ahead_run _ context ends.1, ?_⟩
    rw [sideLines, side_run_printed _ context ends.1, side_ends_parse ends, append_nil]
    rfl
  | cons h rest ih =>
    obtain ⟨plain, parsed⟩ := ih (sideSpan side h).2
    simp only [sideLines, sideHops, ended_append, append_assoc]
    cases own : contextPrefix side h with
    | none =>
      rw [side_slice_absent side file own]
      refine ⟨no_marker_ahead_run _ context plain, ?_⟩
      rw [flatMap_nil, ended_nil, nil_append, side_run_printed _ context plain, parsed]
      rfl
    | some pfx =>
      have changed := announces_changed side own
      have middle := no_marker_ahead_run (slice (stored file.lines file.noeol) (sideSpan side h).1 (sideSpan side h).2) changed
        plain
      refine ⟨no_marker_ahead_run _ context middle, ?_⟩
      rw [Option.getD_some, side_run_printed _ context middle, side_run_printed _ changed plain, parsed]

end

variable (olds news : List Hop)
theorem merge_contexts {xs ys : List Pline} (same : xs.length = ys.length) :
    strands (xs.map (Hop.mk .hopCtx) ++ olds) (ys.map (Hop.mk .hopCtx) ++ news) = strands olds news ∧
      interleave (xs.map (Hop.mk .hopCtx) ++ olds) (ys.map (Hop.mk .hopCtx) ++ news) =
        xs.map (Hop.mk .hopCtx) ++ interleave olds news := by
  induction xs generalizing ys with
  | nil =>
    obtain rfl : ys = [] := eq_nil_of_length_eq_zero same.symm
    exact ⟨rfl, rfl⟩
  | cons x xs ih =>
    cases ys with
    | nil => cases same
    | cons y ys =>
      obtain ⟨first, second⟩ := ih (by simpa using same)
      exact ⟨first, congrArg (List.cons _) second⟩

def Resumes (hops : List Hop) : Prop := ∀ hop ∈ hops.head?, hop.changed = false

variable {hops : List Hop}
theorem resumes_drop (resumes : Resumes hops) :
    hops.dropWhile Hop.changed = hops ∧ hops.takeWhile Hop.changed = [] := by
  cases hops with
  | nil => exact ⟨rfl, rfl⟩
  | cons hop rest =>
    have context : ¬ hop.changed = true := by simp [resumes hop rfl]
    exact ⟨dropWhile_cons_of_neg context, takeWhile_cons_of_neg context⟩

theorem changed_run {kind : HopKind} (changed : kind ≠ .hopCtx) (lines : List Pline) (resumes : Resumes hops) :
    (lines.map (Hop.mk kind) ++ hops).dropWhile Hop.changed = hops ∧
      (lines.map (Hop.mk kind) ++ hops).takeWhile Hop.changed = lines.map (Hop.mk kind) := by
  have all : ∀ hop ∈ lines.map (Hop.mk kind), hop.changed = true := by
    intro hop mem
    obtain ⟨p, -, rfl⟩ := mem_map.mp mem
    simpa [Hop.changed] using changed
  rw [dropWhile_append_of_pos all, takeWhile_append_of_pos all, (resumes_drop resumes).1, (resumes_drop resumes).2,
    append_nil]
  exact ⟨rfl, rfl⟩

theorem merge_changed (dels adds : List Pline) {olds news : List Hop} (nonempty : dels ≠ []) (resumesOld : Resumes olds)
    (resumesNew : Resumes news) :
    strands (dels.map (Hop.mk .hopDel) ++ olds) (adds.map (Hop.mk .hopAdd) ++ news) = strands olds news ∧
      interleave (dels.map (Hop.mk .hopDel) ++ olds) (adds.map (Hop.mk .hopAdd) ++ news) =
        dels.map (Hop.mk .hopDel) ++ (adds.map (Hop.mk .hopAdd) ++ interleave olds news) := by
  obtain ⟨oldDrop, oldTake⟩ := changed_run (by decide : HopKind.hopDel ≠ .hopCtx) dels resumesOld
  obtain ⟨newDrop, newTake⟩ := changed_run (by decide : HopKind.hopAdd ≠ .hopCtx) adds resumesNew
  have head : ∃ old rest, dels.map (Hop.mk .hopDel) ++ olds = old :: rest ∧ old.changed = true := by
    obtain ⟨p, rest, rfl⟩ := exists_cons_of_ne_nil nonempty
    exact ⟨_, _, rfl, rfl⟩
  rw [strands_run _ _ head, interleave_run _ _ head, oldDrop, oldTake, newDrop, newTake, map_map, map_map]
  exact ⟨rfl, rfl⟩

variable (adds : List Pline)
theorem merge_added : strands [] (adds.map (Hop.mk .hopAdd)) = false ∧
      interleave [] (adds.map (Hop.mk .hopAdd)) = adds.map (Hop.mk .hopAdd) := by
  refine ⟨?_, ?_⟩
  · simp [strands, Hop.changed]
  · rw [interleave, map_map]
    rfl

def contextCount (hops : List Hop) : Nat := hops.countP fun hop => !hop.changed

theorem context_count_drop (hops : List Hop) : contextCount (hops.dropWhile Hop.changed) = contextCount hops := by
  induction hops with
  | nil => rfl
  | cons hop rest ih =>
    by_cases changed : hop.changed = true
    · rw [dropWhile_cons_of_pos changed, ih]
      simp [contextCount, changed]
    · rw [dropWhile_cons_of_neg changed]

theorem context_count_past (hops : List Hop) : contextCount hops ≤ contextCount (pastContext hops) + 1 := by
  unfold pastContext
  split
  · simp [contextCount, Hop.changed]
  · omega

theorem strands_of_fewer (fewer : contextCount olds < contextCount news) : strands olds news = true := by
  induction olds generalizing news with
  | nil =>
    obtain ⟨hop, mem, context⟩ := countP_pos_iff.mp fewer
    exact any_eq_true.mpr ⟨hop, mem, context⟩
  | cons old olds ih =>
    by_cases changed : old.changed = true
    · rw [strands, if_pos changed]
      refine ih _ ?_
      rw [context_count_drop]
      simpa [contextCount, changed] using fewer
    · rw [strands, if_neg changed]
      have past := context_count_past news
      have count : contextCount (old :: olds) = contextCount olds + 1 := by simp [contextCount, changed]
      exact ih _ (by omega)

section
variable (a b : TextFile) {ga1 gb1 : Nat}
theorem slice_filled (file : TextFile) {i j : Nat} (order : i < j) (bound : j ≤ file.lines.length) :
    slice (stored file.lines file.noeol) i j ≠ [] := by
  rw [← length_pos_iff, slice_length _ (by rwa [stored_length])]
  omega

variable {hunks : List Diff.Hunk}
theorem side_hops_resume {side : Side} {file : TextFile} {stop : Nat} {pos : Nat}
    (gap : ∀ h ∈ hunks.head?, slice (stored file.lines file.noeol) pos (sideSpan side h).1 ≠ []) :
    Resumes (sideHops side file stop hunks pos) := by
  cases hunks with
  | nil =>
    intro hop mem
    rw [sideHops, head?_map] at mem
    obtain ⟨p, -, rfl⟩ := Option.map_eq_some_iff.mp mem
    rfl
  | cons h rest =>
    obtain ⟨p, lines, split⟩ := exists_cons_of_ne_nil (gap h rfl)
    intro hop mem
    simp only [sideHops, split, map_cons, cons_append, head?_cons, Option.mem_def, Option.some.injEq] at mem
    rw [← mem]
    rfl

theorem sides_resume (boundA : ga1 ≤ a.lines.length) (pos posB : Nat)
    (aligned : Aligned (stored a.lines a.noeol) (stored b.lines b.noeol) ga1 gb1 pos posB hunks)
    (parted : Parted (pos + 1) hunks) :
    Resumes (sideHops .sideA a ga1 hunks pos) ∧ Resumes (sideHops .sideB b gb1 hunks posB) := by
  have gap : ∀ h ∈ hunks.head?, slice (stored a.lines a.noeol) pos h.a0 ≠ [] ∧ slice (stored b.lines b.noeol) posB h.b0 ≠ [] := by
    intro h mem
    obtain ⟨rest, rfl⟩ := head?_eq_some_iff.mp mem
    obtain ⟨stretch, ⟨spanA, -⟩, later⟩ := aligned
    have inside := (aligned_bounds rest _ _ later).1
    have after := parted.1
    have filled := slice_filled a (by omega : pos < h.a0) (by omega)
    exact ⟨filled, stretch.equal ▸ filled⟩
  exact ⟨side_hops_resume fun h mem => (gap h mem).1,
    side_hops_resume fun h mem => (gap h mem).2⟩

theorem merge_group (boundA : ga1 ≤ a.lines.length) (pos posB : Nat)
    (aligned : Aligned (stored a.lines a.noeol) (stored b.lines b.noeol) ga1 gb1 pos posB hunks)
    (parted : Parted pos hunks) (closing : ∀ h ∈ hunks, h.a0 = h.a1 → h.a0 = ga1) :
    strands (sideHops .sideA a ga1 hunks pos) (sideHops .sideB b gb1 hunks posB) = false ∧
      interleave (sideHops .sideA a ga1 hunks pos) (sideHops .sideB b gb1 hunks posB) = groupHops a b ga1 hunks pos := by
  induction hunks generalizing pos posB with
  | nil =>
    obtain ⟨first, second⟩ := merge_contexts [] [] (congrArg List.length aligned.equal)
    simp only [append_nil, show interleave [] [] = [] from rfl] at first second
    exact ⟨first, second⟩
  | cons h rest ih =>
    obtain ⟨stretch, ⟨spanA, spanB⟩, later⟩ := aligned
    obtain ⟨before, filled, parted⟩ := parted
    obtain ⟨stripped, taken⟩ := merge_contexts
      ((slice (stored a.lines a.noeol) h.a0 h.a1).map (Hop.mk .hopDel) ++ sideHops .sideA a ga1 rest h.a1)
      ((slice (stored b.lines b.noeol) h.b0 h.b1).map (Hop.mk .hopAdd) ++ sideHops .sideB b gb1 rest h.b1)
      (congrArg List.length stretch.equal)
    simp only [sideHops, sideSpan, sideKind, groupHops]
    rw [stripped, taken]
    have inside := (aligned_bounds rest _ _ later).1
    by_cases deleted : h.a0 < h.a1
    · obtain ⟨resumesA, resumesB⟩ := sides_resume a b boundA h.a1 h.b1 later parted
      have nonempty := slice_filled a deleted (by omega)
      obtain ⟨kept, merged⟩ := ih h.a1 h.b1 later (parted_weaken (Nat.le_succ _) parted)
        (forall_mem_cons.mp closing).2
      obtain ⟨first, second⟩ := merge_changed _ (slice (stored b.lines b.noeol) h.b0 h.b1) nonempty resumesA resumesB
      rw [first, second, kept, merged]
      exact ⟨rfl, rfl⟩
    · -- An insertion that nothing follows: the old side is used up.
      have last := closing h mem_cons_self (by omega)
      cases rest with
      | nil =>
        have diagonal := later.diagonal
        obtain ⟨kept, merged⟩ := merge_added (slice (stored b.lines b.noeol) h.b0 h.b1)
        simp only [sideHops, groupHops, show h.a1 = h.a0 by omega, show gb1 = h.b1 by omega, last, slice_self, map_nil,
          append_nil, nil_append, kept, merged, and_self]
      | cons next more =>
        have after := parted.1
        have bound := (aligned_bounds _ _ _ later.2.2).1
        have span := later.2.1.1
        omega

end

@[simp] theorem context_count_append (first second : List Hop) :
    contextCount (first ++ second) = contextCount first + contextCount second := countP_append

@[simp] theorem context_count_context (lines : List Pline) : contextCount (lines.map (Hop.mk .hopCtx)) = lines.length := by
  simp [contextCount, Hop.changed]

theorem context_count_changed {kind : HopKind} (changed : kind ≠ .hopCtx) (lines : List Pline) :
    contextCount (lines.map (Hop.mk kind)) = 0 := by
  simp [contextCount, Hop.changed, changed]

section
variable (a b : TextFile) {ga1 gb1 : Nat} (side : Side) (hunks : List Diff.Hunk) (pos posB : Nat)
theorem aligned_spans
    (aligned : Aligned (stored a.lines a.noeol) (stored b.lines b.noeol) ga1 gb1 pos posB hunks) :
    match side with
    | .sideA => Spans .sideA ga1 hunks pos
    | .sideB => Spans .sideB gb1 hunks posB := by
  cases side with
  | sideA =>
    induction hunks generalizing pos posB with
    | nil => exact aligned.order
    | cons h rest ih => exact ⟨aligned.1.order, aligned.2.1.1, ih _ _ aligned.2.2⟩
  | sideB =>
    induction hunks generalizing pos posB with
    | nil => exact aligned.order_right
    | cons h rest ih => exact ⟨aligned.1.order_right, aligned.2.1.2, ih _ _ aligned.2.2⟩

theorem side_hops_lines (file : TextFile) {stop : Nat} {hunks : List Diff.Hunk}
    (spans : Spans side stop hunks pos) :
    (sideHops side file stop hunks pos).map Hop.p = slice (stored file.lines file.noeol) pos stop := by
  induction hunks generalizing pos with
  | nil => simp [sideHops, Function.comp_def]
  | cons h rest ih =>
    obtain ⟨before, span, later⟩ := spans
    have bound := spans_bound side stop rest _ later
    simp only [sideHops, map_append, map_map, Function.comp_def, map_id', ih _ later]
    rw [slice_append _ span bound, slice_append _ before (span.trans bound)]

theorem side_context_counts
    (aligned : Aligned (stored a.lines a.noeol) (stored b.lines b.noeol) ga1 gb1 pos posB hunks) :
    contextCount (sideHops .sideA a ga1 hunks pos) = contextCount (sideHops .sideB b gb1 hunks posB) := by
  induction hunks generalizing pos posB with
  | nil => simp only [sideHops, context_count_context, aligned.equal]
  | cons h rest ih =>
    simp only [sideHops, sideSpan, sideKind, context_count_append, context_count_context,
      context_count_changed (by decide : HopKind.hopDel ≠ .hopCtx), context_count_changed (by decide : HopKind.hopAdd ≠ .hopCtx),
      aligned.1.equal, ih _ _ aligned.2.2]

theorem strands_insertion (olds news : List Hop) (nonempty : olds ≠ []) (added : adds ≠ [])
    (resumes : Resumes olds) (counts : contextCount olds = contextCount news) :
    strands olds (adds.map (Hop.mk .hopAdd) ++ news) = true := by
  obtain ⟨old, olds, rfl⟩ := exists_cons_of_ne_nil nonempty
  have context := resumes old rfl
  have waiting : pastContext (adds.map (Hop.mk .hopAdd) ++ news) = adds.map (Hop.mk .hopAdd) ++ news := by
    obtain ⟨p, more, rfl⟩ := exists_cons_of_ne_nil added
    rfl
  have one : contextCount (old :: olds) = contextCount olds + 1 := by simp [contextCount, context]
  rw [strands, context, if_neg (by decide), waiting]
  refine strands_of_fewer _ _ ?_
  rw [context_count_append, context_count_changed (by decide)]
  omega

theorem strands_group (boundA : ga1 ≤ a.lines.length) (boundB : gb1 ≤ b.lines.length) (hunks : List Diff.Hunk)
    (aligned : Aligned (stored a.lines a.noeol) (stored b.lines b.noeol) ga1 gb1 pos posB hunks)
    (parted : Parted pos hunks) (inner : ∃ h ∈ hunks, h.a0 = h.a1 ∧ h.a0 ≠ ga1) :
    strands (sideHops .sideA a ga1 hunks pos) (sideHops .sideB b gb1 hunks posB) = true := by
  induction hunks generalizing pos posB with
  | nil =>
    obtain ⟨h, mem, -⟩ := inner
    cases mem
  | cons h rest ih =>
    obtain ⟨stretch, ⟨spanA, spanB⟩, later⟩ := aligned
    obtain ⟨before, filled, parted⟩ := parted
    have stripped := (merge_contexts
      ((slice (stored a.lines a.noeol) h.a0 h.a1).map (Hop.mk .hopDel) ++ sideHops .sideA a ga1 rest h.a1)
      ((slice (stored b.lines b.noeol) h.b0 h.b1).map (Hop.mk .hopAdd) ++ sideHops .sideB b gb1 rest h.b1)
      (congrArg List.length stretch.equal)).1
    simp only [sideHops, sideSpan, sideKind]
    rw [stripped]
    obtain ⟨insideA, insideB⟩ := aligned_bounds rest _ _ later
    obtain ⟨resumesA, resumesB⟩ := sides_resume a b boundA h.a1 h.b1 later parted
    by_cases deleted : h.a0 < h.a1
    · have nonempty := slice_filled a deleted (by omega)
      rw [(merge_changed _ _ nonempty resumesA resumesB).1]
      refine ih _ _ later (parted_weaken (Nat.le_succ _) parted) ?_
      obtain ⟨other, mem, empty, before⟩ := inner
      rcases mem_cons.mp mem with rfl | mem
      · omega
      · exact ⟨other, mem, empty, before⟩
    · have open' : h.a1 < ga1 := by
        obtain ⟨other, mem, empty, before⟩ := inner
        rcases mem_cons.mp mem with rfl | mem
        · omega
        · cases rest with
          | nil => cases mem
          | cons next more =>
            have after := parted.1
            have bound := (aligned_bounds _ _ _ later.2.2).1
            have span := later.2.1.1
            omega
      have added := slice_filled b (by omega : h.b0 < h.b1) (by omega)
      have left : sideHops .sideA a ga1 rest h.a1 ≠ [] := by
        intro none
        have lines := side_hops_lines .sideA h.a1 a (aligned_spans a b .sideA rest _ _ later)
        rw [none] at lines
        exact slice_filled a open' boundA lines.symm
      rw [show h.a1 = h.a0 by omega, slice_self, map_nil, nil_append, show h.a0 = h.a1 by omega]
      exact strands_insertion _ _ _ left added resumesA (side_context_counts a b rest _ _ later)

end

theorem strands_none : strands olds [] = false := by
  induction olds with
  | nil => rfl
  | cons old olds ih =>
    unfold strands
    split <;> exact ih

theorem interleave_none (plain : ∀ hop ∈ olds, hop.kind ≠ .hopAdd) : interleave olds [] = olds := by
  induction olds with
  | nil => rfl
  | cons old olds ih =>
    have rest := ih (forall_mem_cons.mp plain).2
    obtain ⟨kind, p⟩ := old
    cases kind with
    | hopCtx => exact congrArg (List.cons _) rest
    | hopDel => simp [interleave, Hop.changed, rest]
    | hopAdd => exact absurd rfl (plain ⟨.hopAdd, p⟩ mem_cons_self)

section
variable (a b : TextFile) (ga1 pos : Nat)
theorem deletions_group {hunks : List Diff.Hunk} (deletes : ∀ h ∈ hunks, h.b0 = h.b1) :
    groupHops a b ga1 hunks pos = sideHops .sideA a ga1 hunks pos ∧
      ∀ hop ∈ sideHops .sideA a ga1 hunks pos, hop.kind ≠ .hopAdd := by
  induction hunks generalizing pos with
  | nil =>
    refine ⟨rfl, fun hop mem => ?_⟩
    obtain ⟨p, -, rfl⟩ := mem_map.mp mem
    simp
  | cons h rest ih =>
    obtain ⟨same, plain⟩ := ih h.a1 (forall_mem_cons.mp deletes).2
    refine ⟨?_, fun hop mem => ?_⟩
    · simp only [groupHops, sideHops, sideSpan, sideKind, deletes h mem_cons_self, slice_self, map_nil,
        nil_append, same]
    · simp only [sideHops, sideSpan, sideKind, mem_append, mem_map] at mem
      rcases mem with ⟨p, -, rfl⟩ | ⟨p, -, rfl⟩ | later
      · simp
      · simp
      · exact plain hop later

variable (hunks : List Diff.Hunk)
theorem insertions_group (inserts : ∀ h ∈ hunks, h.a0 = h.a1) (spans : Spans .sideA ga1 hunks pos) :
    sideHops .sideA a ga1 hunks pos = (slice (stored a.lines a.noeol) pos ga1).map (Hop.mk .hopCtx) := by
  induction hunks generalizing pos with
  | nil => rfl
  | cons h rest ih =>
    have later := ih h.a1 (forall_mem_cons.mp inserts).2 spans.2.2
    have empty := inserts h mem_cons_self
    have bound := spans_bound _ ga1 rest _ spans.2.2
    have before := spans.1
    simp only [sideSpan] at before bound
    rw [← empty] at later bound
    simp only [sideHops, sideSpan, ← empty, slice_self, map_nil, nil_append, later]
    rw [← map_append, slice_append _ before bound]

def oldShown (g : Group) : Bool := g.hunks.any fun h => h.a0 != h.a1

def newShown (g : Group) : Bool := g.hunks.any fun h => h.b0 != h.b1

def oldBody (g : Group) : List Hop := if oldShown g then sideHops .sideA a g.ga1 g.hunks g.ga0 else []

def newBody (g : Group) : List Hop := if newShown g then sideHops .sideB b g.gb1 g.hunks g.gb0 else []

def Mergeable (g : Group) : Prop :=
  if oldShown g then ∀ h ∈ g.hunks, h.a0 = h.a1 → h.a0 = g.ga1 else g.ga0 = g.ga1

instance (g : Group) : Decidable (Mergeable g) := by
  unfold Mergeable
  infer_instance

structure Printable (g : Group) : Prop where
  covers : Covers a b g
  parted : Parted g.ga0 g.hunks
  filled : g.hunks ≠ []

theorem parted_filled (low : Nat) (parted : Parted low hunks) : ∀ h ∈ hunks, h.a0 < h.a1 ∨ h.b0 < h.b1 := by
  induction hunks generalizing low with
  | nil => exact fun h mem => absurd mem not_mem_nil
  | cons h rest ih =>
    intro other mem
    rcases mem_cons.mp mem with rfl | mem
    · exact parted.2.1
    · exact ih _ parted.2.2 other mem

theorem old_hidden {g : Group} (hidden : ¬ oldShown g = true) : ∀ h ∈ g.hunks, h.a0 = h.a1 := by
  simpa [oldShown] using hidden

theorem new_hidden {g : Group} (hidden : ¬ newShown g = true) : ∀ h ∈ g.hunks, h.b0 = h.b1 := by
  simpa [newShown] using hidden

theorem new_shown {g : Group} (printable : Printable a b g) {h : Diff.Hunk} (mem : h ∈ g.hunks)
    (empty : h.a0 = h.a1) : newShown g = true := by
  by_contra hidden
  have same := new_hidden hidden h mem
  have filled := parted_filled _ _ printable.parted h mem
  omega

variable (g : Group)
theorem merge_bodies (printable : Printable a b g) (mergeable : Mergeable g) :
    strands (oldBody a g) (newBody b g) = false ∧
      interleave (oldBody a g) (newBody b g) = groupHops a b g.ga1 g.hunks g.ga0 := by
  obtain ⟨covers, parted, filled⟩ := printable
  have merge := merge_group a b covers.insideA g.ga0 g.gb0 covers.aligned parted
  by_cases old : oldShown g = true
  · rw [Mergeable, if_pos old] at mergeable
    by_cases new : newShown g = true
    · rw [oldBody, newBody, if_pos old, if_pos new]
      exact merge mergeable
    · obtain ⟨same, plain⟩ := deletions_group a b g.ga1 g.ga0 (new_hidden new)
      rw [oldBody, newBody, if_pos old, if_neg new, interleave_none _ plain, same]
      exact ⟨strands_none _, rfl⟩
  · rw [Mergeable, if_neg old] at mergeable
    have inserts := old_hidden old
    have spans := aligned_spans a b .sideA _ _ _ covers.aligned
    obtain ⟨h, rest, split⟩ := exists_cons_of_ne_nil filled
    have mem : h ∈ g.hunks := split ▸ mem_cons_self
    have none : sideHops .sideA a g.ga1 g.hunks g.ga0 = [] := by
      rw [insertions_group a g.ga1 g.ga0 g.hunks inserts spans, mergeable, slice_self, map_nil]
    rw [oldBody, newBody, if_neg old, if_pos (new_shown a b ⟨covers, parted, filled⟩ mem (inserts h mem)), ← none]
    refine merge fun other within empty => ?_
    obtain ⟨low, high⟩ := spans_inside _ _ _ _ spans _ within
    exact le_antisymm high (mergeable ▸ low)

theorem strand_bodies (printable : Printable a b g) (stuck : ¬ Mergeable g) :
    strands (oldBody a g) (newBody b g) = true := by
  obtain ⟨covers, parted, filled⟩ := printable
  by_cases old : oldShown g = true
  · rw [Mergeable, if_pos old] at stuck
    obtain ⟨h, mem, empty, inner⟩ : ∃ h ∈ g.hunks, h.a0 = h.a1 ∧ h.a0 ≠ g.ga1 := by simpa using stuck
    rw [oldBody, newBody, if_pos old, if_pos (new_shown a b ⟨covers, parted, filled⟩ mem empty)]
    exact strands_group a b g.ga0 g.gb0 covers.insideA covers.insideB g.hunks covers.aligned parted ⟨h, mem, empty, inner⟩
  · rw [Mergeable, if_neg old] at stuck
    have inserts := old_hidden old
    have spans := aligned_spans a b .sideA g.hunks _ _ covers.aligned
    have order := (aligned_bounds g.hunks _ _ covers.aligned).1
    obtain ⟨h, rest, split⟩ := exists_cons_of_ne_nil filled
    have mem : h ∈ g.hunks := split ▸ mem_cons_self
    rw [oldBody, newBody, if_neg old, if_pos (new_shown a b ⟨covers, parted, filled⟩ mem (inserts h mem))]
    refine strands_of_fewer _ _ ?_
    rw [← side_context_counts a b g.hunks g.ga0 g.gb0 covers.aligned, insertions_group a g.ga1 g.ga0 g.hunks inserts spans,
      context_count_context, slice_length _ (by rw [stored_length]; exact covers.insideA)]
    exact Nat.sub_pos_of_lt (Nat.lt_of_le_of_ne order stuck)

def rangeLine (opening closing : Bytes) (r0 r1 : Nat) : Bytes := opening ++ (printRange r0 r1 44 ++ closing)

def contextLines (g : Group) : List Bytes :=
  ascii "***************" :: rangeLine (ascii "*** ") (ascii " ****") g.ga0 g.ga1 ::
    ((if oldShown g then sideLines .sideA a g.ga1 g.hunks g.ga0 else []) ++
      rangeLine (ascii "--- ") (ascii " ----") g.gb0 g.gb1 ::
        if newShown g then sideLines .sideB b g.gb1 g.hunks g.gb0 else [])

theorem print_context_group_join (covers : Covers a b g) :
    printContextGroup a b g = some (joinLines (contextLines a b g)) := by
  have old := print_context_side_join _ a _ covers.insideA _ _
    (aligned_spans a b .sideA _ _ _ covers.aligned)
  have new := print_context_side_join _ b _ covers.insideB _ _
    (aligned_spans a b .sideB _ _ _ covers.aligned)
  have shownA : (g.hunks.any fun h => h.a0 != h.a1) = oldShown g := rfl
  have shownB : (g.hunks.any fun h => h.b0 != h.b1) = newShown g := rfl
  simp only [printContextGroup, shownA, shownB, old, new, contextLines, rangeLine]
  cases oldShown g <;> cases newShown g <;>
    simp [join_lines_cons, join_lines_append, append_assoc] <;> rfl

theorem parse_ctx_range_printed (opening closing : Bytes) (r0 r1 : Nat) (order : r0 ≤ r1) (fits : r1 ≤ longMax)
    (delimits : Delimits closing) :
    parseCtxRange ⟨rangeLine opening closing r0 r1, true⟩ opening closing = some (rangeStart r0 r1, rangeStop r0 r1) := by
  obtain ⟨mid, first, second⟩ := parse_print_range order fits delimits
  have long : ¬ (rangeLine opening closing r0 r1).length < opening.length + closing.length := by
    simp only [rangeLine, length_append]
    omega
  have opens : opening.isPrefixOf (rangeLine opening closing r0 r1) = true := by
    rw [List.isPrefixOf_iff_prefix]
    exact prefix_append _ _
  have closes : closing.isSuffixOf (rangeLine opening closing r0 r1) = true := by
    rw [isSuffixOf_iff_suffix, rangeLine, ← append_assoc]
    exact suffix_append _ _
  simp only [parseCtxRange, if_neg long, opens, closes, Bool.not_true, Bool.false_eq_true, if_false]
  rw [rangeLine, drop_left, first]
  simp [second]

theorem shown_side_printed (side : Side) (file : TextFile) (stop : Nat) (hunks : List Diff.Hunk) (shown : Bool)
    (tail : List Pline) (ends : SideEnds (isOldSide side) tail) :
    parseCtxSideLines (isOldSide side) (ended (if shown then sideLines side file stop hunks pos else []) ++ tail) =
      (if shown then sideHops side file stop hunks pos else [], tail) := by
  cases shown with
  | true => exact (side_printed side file stop hunks pos ends).2
  | false => exact side_ends_parse ends

theorem side_ends_cons {isOld : Bool} {line : Bytes} {tail : List Pline} (other : ctxSideKind isOld ⟨line, true⟩ = none)
    (plain : startsWith ⟨line, true⟩ (ascii "\\ ") = false) : SideEnds isOld (⟨line, true⟩ :: tail) := by
  constructor
  · intro pl rest split
    cases split
    exact plain
  · intro pl rest split
    cases split
    exact other

def printedSides (g : Group) : CtxSides :=
  ⟨rangeStart g.ga0 g.ga1, rangeStop g.ga0 g.ga1, rangeStart g.gb0 g.gb1, rangeStop g.gb0 g.gb1, oldBody a g, newBody b g⟩

theorem context_sides_printed (covers : Covers a b g)
    (small : a.lines.length ≤ longMax ∧ b.lines.length ≤ longMax) (rest : List Pline) (ends : SideEnds false rest) :
    contextSides (ended (contextLines a b g) ++ rest) = some (printedSides a b g, rest) := by
  obtain ⟨orderA, orderB⟩ := aligned_bounds g.hunks _ _ covers.aligned
  have insideA := covers.insideA
  have insideB := covers.insideB
  have oldRange := parse_ctx_range_printed (ascii "*** ") (ascii " ****") g.ga0 g.ga1 orderA (by omega)
    (delimits_cons 32 _ rfl (by decide))
  have newRange := parse_ctx_range_printed (ascii "--- ") (ascii " ----") g.gb0 g.gb1 orderB (by omega)
    (delimits_cons 32 _ rfl (by decide))
  have middle : SideEnds true (⟨rangeLine (ascii "--- ") (ascii " ----") g.gb0 g.gb1, true⟩ ::
      (ended (if newShown g then sideLines .sideB b g.gb1 g.hunks g.gb0 else []) ++ rest)) := side_ends_cons rfl rfl
  have olds := shown_side_printed g.ga0 .sideA a g.ga1 g.hunks (oldShown g) _ middle
  have news := shown_side_printed g.gb0 .sideB b g.gb1 g.hunks (newShown g) rest ends
  have stars : isAllStars ⟨ascii "***************", true⟩ = true := by decide
  simp only [isOldSide] at olds news
  simp only [contextLines, ended_cons, ended_append, cons_append, append_assoc, contextSides, if_pos stars, oldRange,
    olds, newRange, news, Option.bind_eq_bind, Option.bind_some, printedSides, oldBody, newBody]

theorem parse_context_hunk_printed (printable : Printable a b g)
    (small : a.lines.length ≤ longMax ∧ b.lines.length ≤ longMax) (rest : List Pline) (ends : SideEnds false rest) :
    (Mergeable g → ∃ hunk, parseContextHunk (ended (contextLines a b g) ++ rest) = some (hunk, rest) ∧
        hunk.hops = groupHops a b g.ga1 g.hunks g.ga0) ∧
      (¬ Mergeable g → parseContextHunk (ended (contextLines a b g) ++ rest) = none) := by
  have sides := context_sides_printed a b g printable.covers small rest ends
  constructor
  · intro mergeable
    obtain ⟨kept, merged⟩ := merge_bodies a b g printable mergeable
    refine ⟨(printedSides a b g).hunk (interleave (oldBody a g) (newBody b g)), ?_, merged⟩
    rw [parse_context_hunk_eq, sides, Option.bind_some]
    simp only [printedSides, merge_returns _ _ (Nat.le_refl _) kept, Option.bind_some]
  · intro stuck
    rw [parse_context_hunk_eq, sides, Option.bind_some]
    simp only [printedSides, merge_strands _ _ (strand_bodies a b g printable stuck), Option.bind_none]

theorem side_lines_one_line (side : Side) {file : TextFile} (whole : ∀ line ∈ file.lines, OneLine line) (stop : Nat)
    (hunks : List Diff.Hunk) (pos : Nat) : ∀ line ∈ sideLines side file stop hunks pos, OneLine line := by
  have blank : OneLine (ascii "  ") := by unfold OneLine; decide
  have run : ∀ pfx i j, OneLine pfx → ∀ line ∈ (slice (stored file.lines file.noeol) i j).flatMap (hopLines pfx), OneLine line := by
    intro pfx i j oneLine line mem
    obtain ⟨p, inside, listed⟩ := mem_flatMap.mp mem
    exact hop_lines_one_line oneLine (slice_one_line whole inside) line listed
  induction hunks generalizing pos with
  | nil => exact run _ _ _ blank
  | cons h rest ih =>
    have own : OneLine ((contextPrefix side h).getD []) := by
      by_cases empty : h.a0 = h.a1 <;> by_cases empty' : h.b0 = h.b1 <;> cases side <;>
        simp only [contextPrefix, empty, empty', if_true, if_false] <;> (unfold OneLine; decide)
    intro line mem
    simp only [sideLines, mem_append] at mem
    rcases mem with lead | changed | later
    · exact run _ _ _ blank line lead
    · exact run _ _ _ own line changed
    · exact ih _ line later

theorem context_lines_one_line (wholeA : ∀ line ∈ a.lines, OneLine line) (wholeB : ∀ line ∈ b.lines, OneLine line)
    (g : Group) : ∀ line ∈ contextLines a b g, OneLine line := by
  have range : ∀ opening closing r0 r1, OneLine opening → OneLine closing → OneLine (rangeLine opening closing r0 r1) :=
    fun opening closing r0 r1 first second => one_line_append first (one_line_append (print_range_one_line) second)
  intro line mem
  simp only [contextLines, mem_cons, mem_append] at mem
  rcases mem with rfl | rfl | old | rfl | new
  · unfold OneLine
    decide
  · exact range _ _ _ _ (by unfold OneLine; decide) (by unfold OneLine; decide)
  · split at old
    · exact side_lines_one_line _ wholeA _ _ _ line old
    · cases old
  · exact range _ _ _ _ (by unfold OneLine; decide) (by unfold OneLine; decide)
  · split at new
    · exact side_lines_one_line _ wholeB _ _ _ line new
    · cases new

theorem print_context_groups_join {groups : List Group} (covers : ∀ g ∈ groups, Covers a b g) :
    printGroups (printContextGroup a b) groups = some (joinLines (groups.flatMap (contextLines a b))) :=
  print_groups_join groups fun g listed => print_context_group_join a b g (covers g listed)

theorem side_ends_groups (groups : List Group) : SideEnds false (ended (groups.flatMap (contextLines a b))) := by
  cases groups with
  | nil =>
    constructor
    · intro pl rest split
      cases split
    · intro pl rest split
      cases split
  | cons g rest => exact side_ends_cons rfl rfl

end

theorem parted_append (first second : List Diff.Hunk) (low : Nat) (parted : Parted low (first ++ second)) :
    Parted low first ∧ ∃ low', Parted low' second := by
  induction first generalizing low with
  | nil => exact ⟨trivial, low, parted⟩
  | cons h rest ih =>
    obtain ⟨front, back⟩ := ih _ parted.2.2
    exact ⟨⟨parted.1, parted.2.1, front⟩, back⟩

theorem build_groups_parted (context na nb fuel : Nat) (hunks : List Diff.Hunk) (low : Nat) (parted : Parted low hunks) :
    ∀ g ∈ buildGroupsFrom context na nb fuel hunks, g.hunks ≠ [] ∧ ∃ low', Parted low' g.hunks := by
  induction fuel generalizing hunks low with
  | zero => exact fun g mem => absurd mem (by simp [buildGroupsFrom])
  | succ fuel ih =>
    cases hunks with
    | nil => exact fun g mem => absurd mem (by simp [buildGroupsFrom])
    | cons h rest =>
      have split := join_hunks_split context h rest
      rw [split, ← cons_append] at parted
      obtain ⟨front, low', back⟩ := parted_append _ _ _ parted
      intro g mem
      rcases mem_cons.mp mem with rfl | later
      · exact ⟨cons_ne_nil _ _, low, front⟩
      · exact ih _ _ back g later

theorem groups_printable {a b : TextFile} (small : a.lines.length ≤ longMax ∧ b.lines.length ≤ longMax) {context : Nat}
    (fits : context ≤ longMax) (unwrapped : Unwrapped context (hunksOf a b)) :
    ∀ g ∈ buildGroups (hunksOf a b) context a.lines.length b.lines.length, Printable a b g := by
  intro g mem
  have covers := (build_groups_cover small fits unwrapped).2 g mem
  obtain ⟨filled, low, parted⟩ := build_groups_parted context _ _ _ _ 0 (hunks_of_spec a b).2.2 g mem
  refine ⟨covers, ?_, filled⟩
  have aligned := covers.aligned
  obtain ⟨h, rest, split⟩ := exists_cons_of_ne_nil filled
  rw [split] at parted aligned ⊢
  exact ⟨aligned.1.order, parted.2⟩

def contextOpts (context : Nat) : DiffOpts := ⟨.fmtContext, false, context⟩

-- `parse_context_hunk` reads what `diff -C` prints for a group as the two stretches it
-- covers, whatever groups come after it.
def Reparses (context : Nat) (left right : Operand) (bufA bufB : Bytes) (g : Group) (after : List Group) : Prop :=
  ∃ result lead text later hunk, diffFiles (contextOpts context) left right bufA bufB = some result ∧
    result.out = lead ++ (text ++ later) ∧
    printContextGroup (splitLines bufA) (splitLines bufB) g = some text ∧
    printGroups (printContextGroup (splitLines bufA) (splitLines bufB)) after = some later ∧
    parseContextHunk (readAllLines (text ++ later)) = some (hunk, readAllLines later) ∧
    oldLines hunk.hops = slice (readAllLines bufA) g.ga0 g.ga1 ∧ newLines hunk.hops = slice (readAllLines bufB) g.gb0 g.gb1

def contextGroups (context : Nat) (bufA bufB : Bytes) : List Group :=
  buildGroups (hunksOf (splitLines bufA) (splitLines bufB)) context (splitLines bufA).lines.length
    (splitLines bufB).lines.length

theorem context_text_read {bufA bufB : Bytes} {g : Group} {after : List Group}
    (covers : ∀ other ∈ g :: after, Covers (splitLines bufA) (splitLines bufB) other) :
    ∃ text later, printContextGroup (splitLines bufA) (splitLines bufB) g = some text ∧
      printGroups (printContextGroup (splitLines bufA) (splitLines bufB)) after = some later ∧
      readAllLines (text ++ later) = ended (contextLines (splitLines bufA) (splitLines bufB) g) ++
        ended (after.flatMap (contextLines (splitLines bufA) (splitLines bufB))) ∧
      readAllLines later = ended (after.flatMap (contextLines (splitLines bufA) (splitLines bufB))) := by
  have wholeA := split_lines_from_one_line [] bufA not_mem_nil
  have wholeB := split_lines_from_one_line [] bufB not_mem_nil
  have whole : ∀ line ∈ contextLines (splitLines bufA) (splitLines bufB) g ++
      after.flatMap (contextLines (splitLines bufA) (splitLines bufB)), OneLine line := by
    intro line mem
    rcases mem_append.mp mem with first | rest
    · exact context_lines_one_line _ _ wholeA wholeB g line first
    · obtain ⟨other, -, listed⟩ := mem_flatMap.mp rest
      exact context_lines_one_line _ _ wholeA wholeB _ line listed
  have read := read_join_lines _ whole
  rw [join_lines_append] at read
  refine ⟨_, _, print_context_group_join _ _ g (covers g mem_cons_self),
    print_context_groups_join _ _ (forall_mem_cons.mp covers).2, ?_, ?_⟩
  · rw [read, ← ended_append]
    rfl
  · exact read_join_lines _ fun line mem => whole line (mem_append_right _ mem)

theorem context_diff_out {context : Nat} (left right : Operand) {bufA bufB : Bytes} {before after : List Group}
    {g : Group} (listed : contextGroups context bufA bufB = before ++ g :: after)
    (covers : ∀ other ∈ before ++ g :: after, Covers (splitLines bufA) (splitLines bufB) other) {text later : Bytes}
    (printed : printContextGroup (splitLines bufA) (splitLines bufB) g = some text)
    (printedLater : printGroups (printContextGroup (splitLines bufA) (splitLines bufB)) after = some later) :
    ∃ result lead, diffFiles (contextOpts context) left right bufA bufB = some result ∧
      result.out = lead ++ (text ++ later) := by
  obtain ⟨⟨ops, built, hunks⟩, -⟩ := hunks_of_spec (splitLines bufA) (splitLines bufB)
  have nonempty : ¬ (hunksOf (splitLines bufA) (splitLines bufB)).length = 0 := by
    intro none
    rw [contextGroups, length_eq_zero_iff.mp none] at listed
    cases before <;> cases listed
  have body := print_context_groups_join _ _ covers
  have own := print_context_group_join _ _ g (covers g (mem_append_right _ mem_cons_self))
  have rest := print_context_groups_join _ _ fun other mem =>
    covers other (mem_append_right _ (mem_cons_of_mem g mem))
  rw [printed, Option.some.injEq] at own
  rw [printedLater, Option.some.injEq] at rest
  rw [flatMap_append, flatMap_cons, join_lines_append, join_lines_append, ← own, ← rest] at body
  rw [contextGroups] at listed
  simp only [diffFiles, contextOpts, built, hunks, Option.bind_eq_bind, Option.bind_some, if_neg nonempty, printBody,
    listed, body, Option.some.injEq]
  exact ⟨_, _, rfl, (append_assoc _ _ _).symm⟩

theorem context_hunk_reparses_iff (context : Nat) (left right : Operand) (bufA bufB : Bytes)
    (small : (splitLines bufA).lines.length ≤ longMax ∧ (splitLines bufB).lines.length ≤ longMax) (fits : context ≤ longMax)
    (unwrapped : Unwrapped context (hunksOf (splitLines bufA) (splitLines bufB))) (before after : List Group)
    (g : Group) (listed : contextGroups context bufA bufB = before ++ g :: after) :
    Reparses context left right bufA bufB g after ↔ Mergeable g := by
  have printable := groups_printable small fits unwrapped
  have groups := listed
  rw [contextGroups] at groups
  rw [groups] at printable
  have covers : ∀ other ∈ before ++ g :: after, Covers (splitLines bufA) (splitLines bufB) other :=
    fun other mem => (printable other mem).covers
  have here := printable g (mem_append_right _ mem_cons_self)
  obtain ⟨text, later, printed, printedLater, read, readLater⟩ := context_text_read
    fun other mem => covers other (mem_append_right _ mem)
  obtain ⟨merges, sticks⟩ := parse_context_hunk_printed _ _ g here small _
    (side_ends_groups (splitLines bufA) (splitLines bufB) after)
  rw [← readLater] at read merges sticks
  rw [← read] at merges sticks
  constructor
  · rintro ⟨result, lead, text', later', hunk, -, -, printed', printedLater', parsed, -⟩
    rw [printed, Option.some.injEq] at printed'
    rw [printedLater, Option.some.injEq] at printedLater'
    subst printed' printedLater'
    by_contra stuck
    rw [sticks stuck] at parsed
    cases parsed
  · intro mergeable
    obtain ⟨hunk, parsed, hops⟩ := merges mergeable
    obtain ⟨-, olds, news⟩ := group_hops_sides _ _ g.hunks g.ga0 g.gb0 here.covers.aligned
    obtain ⟨result, lead, diff, out⟩ := context_diff_out left right listed covers printed
      printedLater
    refine ⟨result, lead, text, later, hunk, diff, out, printed, printedLater, parsed, ?_, ?_⟩
    · rw [hops, olds, read_all_lines_stored]
    · rw [hops, news, read_all_lines_stored]

theorem context_hunk_reparses_change :
    Reparses 3 (plainOperand "a" (by decide)) (plainOperand "b" (by decide)) (ascii "x\ny\n") (ascii "x\nz\n")
      ⟨[⟨1, 2, 1, 2⟩], 0, 2, 0, 2⟩ [] := by
  have hunks : hunksOf (splitLines (ascii "x\ny\n")) (splitLines (ascii "x\nz\n")) = [⟨1, 2, 1, 2⟩] := by decide +kernel
  have unwrapped : Unwrapped 3 (hunksOf (splitLines (ascii "x\ny\n")) (splitLines (ascii "x\nz\n"))) := by
    rw [hunks]
    trivial
  exact (context_hunk_reparses_iff 3 _ _ _ _ (by decide +kernel) (by decide) unwrapped [] [] _ (by decide +kernel)).mpr
    (by decide)

def appendedHunk : Bytes := ascii "***************\n*** 1 ****\n--- 1,2 ----\n  x\n+ y\n"

-- A line is added after the only line: the old body is omitted, and the merge stands
-- before the new context line for ever.
theorem appended_line_never_merged :
    printGroups (printContextGroup (splitLines (ascii "x\n")) (splitLines (ascii "x\ny\n")))
        (contextGroups 3 (ascii "x\n") (ascii "x\ny\n")) = some appendedHunk ∧
      contextSides (readAllLines appendedHunk) =
        some (⟨1, 1, 1, 2, [], [⟨.hopCtx, ⟨ascii "x", true⟩⟩, ⟨.hopAdd, ⟨ascii "y", true⟩⟩]⟩, []) ∧
      ∀ rounds, mergeContextSides rounds [] [⟨.hopCtx, ⟨ascii "x", true⟩⟩, ⟨.hopAdd, ⟨ascii "y", true⟩⟩] = none :=
  ⟨by decide +kernel, by decide +kernel, fun rounds => merge_strands _ _ (by decide +kernel)⟩

end Spicule.Patch
