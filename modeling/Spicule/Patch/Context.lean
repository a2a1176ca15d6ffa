import Spicule.Patch.Parse

namespace Spicule.Patch
open List Option
open Diff

def Hop.changed (hop : Hop) : Bool := hop.kind != .hopCtx

def pastContext : List Hop → List Hop
  | ⟨.hopCtx, _⟩ :: later => later
  | news => news

-- A context line of the new side is left when the old side is used up.
def strands : List Hop → List Hop → Bool
  | [], news => news.any fun hop => !hop.changed
  | old :: olds, news =>
    if old.changed then strands olds (news.dropWhile Hop.changed) else strands olds (pastContext news)

def interleave : List Hop → List Hop → List Hop
  | [], news => news.map fun hop => ⟨.hopAdd, hop.p⟩
  | old :: olds, news =>
    if old.changed then
      ⟨.hopDel, old.p⟩ ::
        if olds.head?.any Hop.changed then interleave olds news
        else (news.takeWhile Hop.changed).map (fun hop => ⟨.hopAdd, hop.p⟩) ++
          interleave olds (news.dropWhile Hop.changed)
    else ⟨.hopCtx, old.p⟩ :: interleave olds (pastContext news)

theorem past_context_length (news : List Hop) : (pastContext news).length ≤ news.length := by
  unfold pastContext
  split
  · exact Nat.le_succ _
  · exact Nat.le_refl _

variable (olds news : List Hop)
theorem strands_run (head : ∃ old rest, olds = old :: rest ∧ old.changed = true) :
    strands olds news = strands (olds.dropWhile Hop.changed) (news.dropWhile Hop.changed) := by
  obtain ⟨old, rest, rfl, changed⟩ := head
  induction rest generalizing old news with
  | nil => rw [strands, if_pos changed, dropWhile_cons_of_pos changed, dropWhile_nil]
  | cons next rest ih =>
    rw [strands, if_pos changed, dropWhile_cons_of_pos changed]
    by_cases more : next.changed = true
    · rw [ih _ next more, dropWhile_idempotent]
    · rw [dropWhile_cons_of_neg more]

theorem interleave_run (head : ∃ old rest, olds = old :: rest ∧ old.changed = true) :
    interleave olds news = (olds.takeWhile Hop.changed).map (fun hop => ⟨.hopDel, hop.p⟩) ++
      ((news.takeWhile Hop.changed).map (fun hop => ⟨.hopAdd, hop.p⟩) ++
        interleave (olds.dropWhile Hop.changed) (news.dropWhile Hop.changed)) := by
  obtain ⟨old, rest, rfl, changed⟩ := head
  induction rest generalizing old with
  | nil => simp [interleave, changed]
  | cons next rest ih =>
    rw [interleave, if_pos changed, takeWhile_cons_of_pos changed, dropWhile_cons_of_pos changed, map_cons,
      cons_append]
    by_cases more : next.changed = true
    · rw [head?_cons, any_some, if_pos more, ih next more]
    · rw [head?_cons, any_some, if_neg more, takeWhile_cons_of_neg more,
        dropWhile_cons_of_neg more, map_nil, nil_append]

variable (fuel : Nat)
theorem merge_context_line (p : Pline) (olds news : List Hop) :
    mergeContextSides (fuel + 1) (⟨.hopCtx, p⟩ :: olds) news =
      (mergeContextSides fuel olds (pastContext news)).map fun later => ⟨.hopCtx, p⟩ :: later := by
  rw [map_eq_bind]
  cases news with
  | nil => rfl
  | cons new news =>
    obtain ⟨kind, q⟩ := new
    cases kind <;> rfl

variable {fuel}
theorem merge_runs (olds news : List Hop) (head : ∀ old ∈ olds.head?, old.changed = true)
    (nonempty : olds ≠ [] ∨ news ≠ []) :
    mergeContextSides (fuel + 1) olds news =
      (mergeContextSides fuel (olds.dropWhile Hop.changed) (news.dropWhile Hop.changed)).map fun later =>
        (olds.takeWhile Hop.changed).map (fun hop => ⟨.hopDel, hop.p⟩) ++
          ((news.takeWhile Hop.changed).map (fun hop => ⟨.hopAdd, hop.p⟩) ++ later) := by
  have pairs : olds = [] → news = [] → False := fun left right => nonempty.elim (· left) (· right)
  have context : ∀ p rest, olds = ⟨.hopCtx, p⟩ :: rest → False := by
    rintro p rest rfl
    cases head ⟨.hopCtx, p⟩ rfl
  rw [mergeContextSides, map_eq_bind]
  · simp only [append_assoc]
    rfl
  · exact context
  · exact pairs

theorem strands_drop_changed (news : List Hop) : strands [] (news.dropWhile Hop.changed) = strands [] news := by
  rw [strands, strands]
  induction news with
  | nil => rfl
  | cons new news ih =>
    by_cases changed : new.changed = true
    · rw [dropWhile_cons_of_pos changed, ih, any_cons, changed]
      rfl
    · rw [dropWhile_cons_of_neg changed]

def mergeRound (sides : List Hop × List Hop) : List Hop × List Hop :=
  match sides.1 with
  | [] => ([], sides.2.dropWhile Hop.changed)
  | old :: olds =>
    if old.changed then (olds.dropWhile Hop.changed, sides.2.dropWhile Hop.changed) else (olds, pastContext sides.2)

def sidesLeft (sides : List Hop × List Hop) : Nat := sides.1.length + sides.2.length

variable (sides : List Hop × List Hop)
theorem merge_round (left : sides ≠ ([], [])) : ∃ ops, ∀ fuel, mergeContextSides (fuel + 1) sides.1 sides.2 =
      (mergeContextSides fuel (mergeRound sides).1 (mergeRound sides).2).map fun later => ops ++ later := by
  obtain ⟨olds, news⟩ := sides
  cases olds with
  | nil =>
    have nonempty : news ≠ [] := fun empty => left (by rw [empty])
    exact ⟨_, fun fuel => merge_runs [] news (fun _ mem => by cases mem) (.inr nonempty)⟩
  | cons old olds =>
    by_cases changed : old.changed = true
    · refine ⟨(old :: olds).takeWhile Hop.changed |>.map (fun hop => ⟨.hopDel, hop.p⟩) |>.append
        ((news.takeWhile Hop.changed).map (fun hop => ⟨.hopAdd, hop.p⟩)), fun fuel => ?_⟩
      rw [merge_runs _ news (by simpa using changed) (.inl (cons_ne_nil _ _))]
      simp [mergeRound, changed]
    · obtain ⟨kind, p⟩ := old
      obtain rfl : kind = .hopCtx := by simpa [Hop.changed] using changed
      refine ⟨[⟨.hopCtx, p⟩], fun fuel => ?_⟩
      rw [merge_context_line]
      simp [mergeRound, changed]

theorem round_strands : strands (mergeRound sides).1 (mergeRound sides).2 = strands sides.1 sides.2 := by
  obtain ⟨olds, news⟩ := sides
  cases olds with
  | nil => exact strands_drop_changed news
  | cons old olds =>
    by_cases changed : old.changed = true
    · rw [strands_run _ _ ⟨old, olds, rfl, changed⟩, dropWhile_cons_of_pos changed]
      simp only [mergeRound, if_pos changed]
    · simp only [mergeRound, strands, if_neg changed]

theorem merge_strands (olds news : List Hop) (stranded : strands olds news = true) :
    mergeContextSides fuel olds news = none := by
  induction fuel generalizing olds news with
  | zero =>
    match olds, news with
    | [], [] => cases stranded
    | [], _ :: _ => rfl
    | _ :: _, _ => rfl
  | succ fuel ih =>
    obtain ⟨ops, round⟩ := merge_round (olds, news) (by rintro ⟨⟩; cases stranded)
    rw [← round_strands (olds, news)] at stranded
    rw [round fuel, ih _ _ stranded, map_none]

theorem strands_nil {news : List Hop} (kept : strands [] news = false) : ∀ hop ∈ news, hop.changed = true := by
  simpa [strands] using kept

theorem merge_returns (olds news : List Hop) (enough : olds.length + news.length ≤ fuel)
    (kept : strands olds news = false) : mergeContextSides fuel olds news = some (interleave olds news) := by
  induction fuel generalizing olds news with
  | zero =>
    obtain rfl : olds = [] := eq_nil_of_length_eq_zero (by omega)
    obtain rfl : news = [] := eq_nil_of_length_eq_zero (by omega)
    rfl
  | succ fuel ih =>
    cases olds with
    | nil =>
      cases news with
      | nil => rfl
      | cons new news =>
        have adds := strands_nil kept
        have all : (new :: news).dropWhile Hop.changed = [] := dropWhile_eq_nil_iff.mpr adds
        have taken : (new :: news).takeWhile Hop.changed = new :: news := takeWhile_eq_self_iff.mpr adds
        rw [merge_runs [] _ (fun _ mem => by cases mem) (.inr (cons_ne_nil _ _)), all, taken,
          dropWhile_nil, ih [] [] (Nat.zero_le fuel) rfl]
        simp [interleave]
    | cons old olds =>
      simp only [length_cons] at enough
      by_cases changed : old.changed = true
      · have head : ∃ first rest, old :: olds = first :: rest ∧ first.changed = true := ⟨old, olds, rfl, changed⟩
        have shorter : (news.dropWhile Hop.changed).length ≤ news.length := (dropWhile_sublist Hop.changed).length_le
        have less : ((old :: olds).dropWhile Hop.changed).length ≤ olds.length := by
          rw [dropWhile_cons_of_pos changed]
          exact (dropWhile_sublist Hop.changed).length_le
        rw [strands_run _ _ head] at kept
        rw [merge_runs _ news (by simpa using changed) (.inl (cons_ne_nil _ _)), ih _ _ (by omega) kept,
          interleave_run _ _ head, map_some]
      · obtain ⟨kind, p⟩ := old
        obtain rfl : kind = .hopCtx := by simpa [Hop.changed] using changed
        have less := past_context_length news
        rw [strands, if_neg changed] at kept
        rw [merge_context_line, ih _ _ (by omega) kept, interleave, if_neg changed, map_some]

theorem round_shrinks (kept : strands sides.1 sides.2 = false) :
    sides = ([], []) ∨ sidesLeft (mergeRound sides) < sidesLeft sides := by
  obtain ⟨olds, news⟩ := sides
  have shorter : (news.dropWhile Hop.changed).length ≤ news.length := (dropWhile_sublist Hop.changed).length_le
  have past := past_context_length news
  cases olds with
  | nil =>
    cases news with
    | nil => exact .inl rfl
    | cons new news =>
      have all : (new :: news).dropWhile Hop.changed = [] := dropWhile_eq_nil_iff.mpr (strands_nil kept)
      exact .inr (by simp [mergeRound, sidesLeft, all])
  | cons old olds =>
    refine .inr ?_
    have fewer : (olds.dropWhile Hop.changed).length ≤ olds.length := (dropWhile_sublist Hop.changed).length_le
    by_cases changed : old.changed = true
    · simp only [mergeRound, sidesLeft, if_pos changed, length_cons]
      omega
    · simp only [mergeRound, sidesLeft, if_neg changed, length_cons]
      omega

theorem merge_more_rounds (olds news hops : List Hop) (merged : mergeContextSides fuel olds news = some hops) :
    mergeContextSides (fuel + 1) olds news = some hops := by
  induction fuel generalizing olds news hops with
  | zero =>
    match olds, news with
    | [], [] => exact merged
    | [], _ :: _ => cases merged
    | _ :: _, _ => cases merged
  | succ fuel ih =>
    by_cases left : (olds, news) = ([], [])
    · cases left
      exact merged
    · obtain ⟨ops, round⟩ := merge_round (olds, news) left
      rw [round, map_eq_some_iff] at merged ⊢
      obtain ⟨later, rest, equal⟩ := merged
      exact ⟨later, ih _ _ _ rest, equal⟩

theorem merge_result {olds news hops : List Hop} (merged : mergeContextSides fuel olds news = some hops) :
    hops = interleave olds news := by
  have more : ∀ extra, mergeContextSides (fuel + extra) olds news = some hops := by
    intro extra
    induction extra with
    | zero => exact merged
    | succ extra ih => exact merge_more_rounds _ _ _ ih
  have enough := more (olds.length + news.length)
  cases stranded : strands olds news with
  | true =>
    rw [merge_strands _ _ stranded] at enough
    cases enough
  | false =>
    rw [merge_returns _ _ (Nat.le_add_left _ _) stranded] at enough
    exact (some.inj enough).symm

structure CtxSides where
  olo : Nat
  ohi : Nat
  nlo : Nat
  nhi : Nat
  oldb : List Hop
  newb : List Hop
deriving DecidableEq, Repr

def contextSides (lines : List Pline) : Option (CtxSides × List Pline) :=
  match lines with
  | stars :: range :: rest =>
    if isAllStars stars then do
      let old ← parseCtxRange range (ascii "*** ") (ascii " ****")
      let olds := parseCtxSideLines true rest
      match olds.2 with
      | [] => none
      | range :: rest => do
          let new ← parseCtxRange range (ascii "--- ") (ascii " ----")
          let news := parseCtxSideLines false rest
          some (⟨old.1, old.2, new.1, new.2, olds.1, news.1⟩, news.2)
    else none
  | _ => none

def CtxSides.hunk (sides : CtxSides) (hops : List Hop) : Hunk :=
  ⟨sides.olo, rangeCount sides.olo sides.ohi, sides.nlo, rangeCount sides.nlo sides.nhi, hops,
    sides.oldb.any (fun hop => !hop.p.hasNl), sides.newb.any (fun hop => !hop.p.hasNl)⟩

def CtxSides.stranded (sides : CtxSides) : Bool := strands sides.oldb sides.newb

theorem parse_context_hunk_eq (lines : List Pline) :
    parseContextHunk lines = (contextSides lines).bind fun (sides, rest) =>
      (mergeContextSides (sides.oldb.length + sides.newb.length) sides.oldb sides.newb).bind fun hops =>
        some (sides.hunk hops, rest) := by
  cases lines with
  | nil => rfl
  | cons stars lines =>
    cases lines with
    | nil => rfl
    | cons range rest =>
      by_cases opening : isAllStars stars = true
      · cases old : parseCtxRange range (ascii "*** ") (ascii " ****") with
        | none => simp [parseContextHunk, contextSides, opening, old]
        | some olds =>
          obtain ⟨olo, ohi⟩ := olds
          rcases side : parseCtxSideLines true rest with ⟨oldb, _ | ⟨range', rest'⟩⟩
          · simp [parseContextHunk, contextSides, opening, old, side]
          · cases new : parseCtxRange range' (ascii "--- ") (ascii " ----") with
            | none => simp [parseContextHunk, contextSides, opening, old, side, new]
            | some news => simp [parseContextHunk, contextSides, opening, old, side, new, CtxSides.hunk]
      · simp [parseContextHunk, contextSides, opening]

variable (isOld : Bool) {pl : Pline} {rest : List Pline}
theorem side_lines_stop (other : ctxSideKind isOld pl = none) :
    parseCtxSideLines isOld (pl :: rest) = ([], pl :: rest) := by
  rw [parseCtxSideLines, other]

theorem side_lines_ended {kind : HopKind}
    (found : ctxSideKind isOld pl = some kind) (plain : ∀ mark ∈ rest.head?, startsWith mark (ascii "\\ ") = false) :
    parseCtxSideLines isOld (pl :: rest) =
      (⟨kind, ⟨pl.text.drop 2, true⟩⟩ :: (parseCtxSideLines isOld rest).1, (parseCtxSideLines isOld rest).2) := by
  cases rest with
  | nil => simp only [parseCtxSideLines, found]
  | cons mark later =>
    rw [parseCtxSideLines, found]
    simp only [plain mark rfl, Bool.false_eq_true, if_false]

theorem side_lines_unended (mark : Pline) (later : List Pline) {kind : HopKind}
    (found : ctxSideKind isOld pl = some kind) (marked : startsWith mark (ascii "\\ ") = true) :
    parseCtxSideLines isOld (pl :: mark :: later) =
      (⟨kind, ⟨pl.text.drop 2, false⟩⟩ :: (parseCtxSideLines isOld later).1, (parseCtxSideLines isOld later).2) := by
  rw [parseCtxSideLines, found]
  simp only [marked, if_true]
  rfl

theorem parse_ctx_side_lines_left (lines : List Pline) :
    (parseCtxSideLines isOld lines).1.length + (parseCtxSideLines isOld lines).2.length ≤ lines.length := by
  induction lines using parseCtxSideLines.induct isOld with
  | case1 => simp [parseCtxSideLines]
  | case2 pl rest other => simp [side_lines_stop isOld other]
  | case3 pl kind found => simp [parseCtxSideLines, found]
  | case4 pl kind found mark later marked hops left read ih =>
    rw [side_lines_unended isOld mark later found marked]
    simp only [length_cons]
    omega
  | case5 pl kind found mark later plain hops left read ih =>
    rw [side_lines_ended isOld found (by simpa using plain)]
    simp only [length_cons] at ih ⊢
    omega

theorem context_sides_left {lines left : List Pline} {sides : CtxSides} (read : contextSides lines = some (sides, left)) :
    sides.oldb.length + sides.newb.length + left.length + 3 ≤ lines.length := by
  match lines with
  | [] => cases read
  | [_] => cases read
  | stars :: range :: rest =>
    have olds := parse_ctx_side_lines_left true rest
    simp only [contextSides, ite_none_right_eq_some, bind_eq_bind, bind_eq_some_iff] at read
    obtain ⟨-, old, -, read⟩ := read
    cases side : (parseCtxSideLines true rest).2 with
    | nil => simp [side] at read
    | cons range' rest' =>
      have news := parse_ctx_side_lines_left false rest'
      simp only [side, bind_eq_some_iff, some.injEq, Prod.mk.injEq] at read
      obtain ⟨new, -, rfl, rfl⟩ := read
      simp only [side, length_cons] at olds ⊢
      omega

end Spicule.Patch
