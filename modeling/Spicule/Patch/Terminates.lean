import Spicule.Lib.Clock
import Spicule.Patch.Context

namespace Spicule.Patch
open List Option Nat Prod
open Diff
open Clock

variable (left : List Pline) (hops : List Hop)
theorem take_marked_left (kind : HopKind) (pfx : Bytes) (count : Nat) (lines : List Pline)
    (read : takeMarked kind pfx count lines = some (hops, left)) : left.length ≤ lines.length := by
  induction count generalizing lines hops left with
  | zero =>
    cases read
    exact le_refl _
  | succ count ih =>
    cases lines with
    | nil => cases read
    | cons pl rest =>
      simp only [takeMarked, bind_eq_bind, ite_none_right_eq_some, bind_eq_some_iff, Prod.exists] at read
      obtain ⟨-, found, rest', taken, equal⟩ := read
      have less := ih _ _ _ taken
      cases equal
      exact le_succ_of_le less

theorem take_separator_left {cmd : UInt8} {lines left : List Pline} (read : takeSeparator cmd lines = some left) :
    left.length ≤ lines.length := by
  unfold takeSeparator at read
  split at read
  · cases lines with
    | nil => cases read
    | cons pl rest =>
      simp only [ite_none_right_eq_some, some.injEq] at read
      rw [← read.2]
      exact le_succ _
  · cases read
    exact le_refl _

theorem parse_normal_hunk_consumes : Consumes parseNormalHunk := by
  intro lines h left read
  cases lines with
  | nil => cases read
  | cons head rest =>
    simp only [parseNormalHunk, bind_eq_bind, bind_eq_some_iff, Prod.exists, some.injEq, mk.injEq] at read
    obtain ⟨header, -, dels, rest₁, old, rest₂, separator, adds, rest₃, new, -, rfl⟩ := read
    have first := take_marked_left _ _ _ _ _ _ old
    have second := take_separator_left separator
    have third := take_marked_left _ _ _ _ _ _ new
    simp only [length_cons]
    omega

variable (lines : List Pline)
theorem unified_body_left (oleft nleft : Int)
    (read : unifiedBody lines oleft nleft = some (hops, left)) : left.length ≤ lines.length := by
  induction lines, oleft, nleft using unifiedBody.induct generalizing hops with
  | case1 oleft nleft more => simp [unifiedBody, more] at read
  | case2 oleft nleft done =>
    rw [unifiedBody, if_neg done] at read
    cases read
    exact le_refl _
  | case3 pl rest oleft nleft more ih =>
    rw [unifiedBody, if_pos more] at read
    simp only [bind_eq_bind, bind_eq_some_iff] at read
    obtain ⟨hop, -, read⟩ := read
    have shorter := ih hop
    cases rest with
    | nil =>
      simp only [bind_eq_some_iff, some.injEq, mk.injEq] at read
      obtain ⟨later, body, -, rfl⟩ := read
      exact le_succ_of_le (shorter _ body)
    | cons mark later =>
      by_cases marked : startsWith mark (ascii "\\ ") = true
      · simp only [if_pos marked, bind_eq_some_iff, some.injEq, mk.injEq] at read
        obtain ⟨found, body, -, rfl⟩ := read
        exact le_succ_of_le (le_succ_of_le (shorter.1 _ body))
      · simp only [if_neg marked, bind_eq_some_iff, some.injEq, mk.injEq] at read
        obtain ⟨found, body, -, rfl⟩ := read
        exact le_succ_of_le (shorter.2 _ body)
  | case4 pl rest oleft nleft done =>
    rw [unifiedBody, if_neg done] at read
    cases read
    exact le_refl _

theorem parse_unified_hunk_consumes : Consumes parseUnifiedHunk := by
  intro lines h left read
  cases lines with
  | nil => cases read
  | cons head rest =>
    simp only [parseUnifiedHunk, bind_eq_bind, bind_eq_some_iff, Prod.exists, some.injEq, mk.injEq] at read
    obtain ⟨o1, oc, n1, nc, -, hops, rest', body, -, rfl⟩ := read
    exact lt_succ_of_le (unified_body_left _ _ _ _ _ body)

theorem ed_text_left (text : List Pline) (read : edText lines = some (text, left)) :
    left.length ≤ lines.length := by
  induction lines generalizing text with
  | nil => cases read
  | cons pl rest ih =>
    unfold edText at read
    split at read
    · cases read
      exact le_succ _
    · simp only [bind_eq_bind, bind_eq_some_iff, Prod.exists, some.injEq, mk.injEq] at read
      obtain ⟨more, rest', later, -, rfl⟩ := read
      exact le_succ_of_le (ih _ later)

theorem parse_ed_cmd_consumes : Consumes parseEdCmd := by
  intro lines e left read
  cases lines with
  | nil => cases read
  | cons head rest =>
    simp only [parseEdCmd, bind_eq_bind, bind_eq_some_iff, Prod.exists] at read
    obtain ⟨a1, a2, op, -, read⟩ := read
    split at read
    · cases read
      exact lt_succ_self _
    · simp only [bind_eq_some_iff, Prod.exists, some.injEq, mk.injEq] at read
      obtain ⟨text, rest', found, -, rfl⟩ := read
      exact lt_succ_of_le (ed_text_left _ _ _ found)

def parseContextHunkIn (clock : Nat) (lines : List Pline) : Outcome (Hunk × List Pline) :=
  (Outcome.answer (contextSides lines)).bind fun (sides, rest) =>
    match mergeContextSides clock sides.oldb sides.newb with
    | none => .running
    | some hops => .returned (sides.hunk hops, rest)

def sectionNames (oldPfx newPfx : Bytes) (lines : List Pline) : Option ((Bytes × Bytes) × List Pline) :=
  match lines with
  | first :: second :: rest => do
      let oldName ← parseNameLine first oldPfx
      let newName ← parseNameLine second newPfx
      some ((oldName, newName), rest)
  | _ => none

def parseSectionIn (clock : Nat) (fmt : DiffFormat) (lines : List Pline) : Outcome (Patchfile × List Pline) :=
  match fmt with
  | .fmtContext =>
    (Outcome.answer (sectionNames (ascii "*** ") (ascii "--- ") lines)).bind fun ((oldName, newName), rest) =>
      (itemsIn isAllStars (parseContextHunkIn clock) clock rest).bind fun (hunks, left) =>
        if hunks = [] then .refused else .returned (⟨.fmtContext, some oldName, some newName, hunks, []⟩, left)
  | .fmtUnified =>
    (Outcome.answer (sectionNames (ascii "--- ") (ascii "+++ ") lines)).bind fun ((oldName, newName), rest) =>
      (itemsIn (fun pl => startsWith pl (ascii "@@ -")) (fun lines => Outcome.answer (parseUnifiedHunk lines)) clock rest).bind
        fun (hunks, left) =>
          if hunks = [] then .refused else .returned (⟨.fmtUnified, some oldName, some newName, hunks, []⟩, left)
  | .fmtNormal =>
    (itemsIn isNormalHeaderLine (fun lines => Outcome.answer (parseNormalHunk lines)) clock lines).bind fun (hunks, left) =>
      if hunks = [] then .refused else .returned (⟨.fmtNormal, none, none, hunks, []⟩, left)
  | _ =>
    (itemsIn isEdHeaderLine (fun lines => Outcome.answer (parseEdCmd lines)) clock lines).bind fun (eds, left) =>
      if eds = [] then .refused else .returned (⟨.fmtEd, none, none, [], eds⟩, left)

def parseSectionsIn (clock : Nat) (fmt : DiffFormat) : Nat → List Pline → Outcome (List Patchfile)
  | 0, _ => .running
  | rounds + 1, lines =>
    match lines.dropWhile (fun pl => !sectionStartsHere fmt pl) with
    | [] => .returned []
    | pl :: rest =>
      (parseSectionIn clock fmt (pl :: rest)).bind fun (pf, left) =>
        if fmt = .fmtNormal ∨ fmt = .fmtEd then .returned [pf]
        else (parseSectionsIn clock fmt rounds left).bind fun later => .returned (pf :: later)

-- `parse_patch_stream` with at most `clock` rounds for each of its loops; those over the
-- lines of a hunk are recursions on the lines.
def parsePatchStreamIn (clock : Nat) (lines : List Pline) (forced : DiffFormat) : Outcome (List Patchfile) :=
  let fmt := if forced = .fmtUnknown then detect lines else forced
  if fmt = .fmtUnknown then .refused
  else
    (parseSectionsIn clock fmt clock lines).bind fun sections =>
      if sections = [] then .refused else .returned sections

def CtxSides.merged (sides : CtxSides) : Hunk := sides.hunk (interleave sides.oldb sides.newb)

def hunkSides : Nat → List Pline → List CtxSides × Option (List Pline)
  | 0, _ => ([], none)
  | _ + 1, [] => ([], some [])
  | fuel + 1, pl :: rest =>
    if isAllStars pl then
      match contextSides (pl :: rest) with
      | none => ([], none)
      | some (sides, left) => (sides :: (hunkSides fuel left).1, (hunkSides fuel left).2)
    else ([], some (pl :: rest))

def sectionSides (lines : List Pline) : List CtxSides × Option (List Pline) :=
  match sectionNames (ascii "*** ") (ascii "--- ") lines with
  | none => ([], none)
  | some (_, rest) =>
    let met := hunkSides (rest.length + 1) rest
    (met.1, if met.1 = [] then none else met.2)

def streamSides : Nat → List Pline → List CtxSides
  | 0, _ => []
  | fuel + 1, lines =>
    match lines.dropWhile (fun pl => !sectionStartsHere .fmtContext pl) with
    | [] => []
    | pl :: rest =>
      match sectionSides (pl :: rest) with
      | (met, none) => met
      | (met, some left) => met ++ streamSides fuel left

def sidesMet (lines : List Pline) (forced : DiffFormat) : List CtxSides :=
  if (if forced = .fmtUnknown then detect lines else forced) = .fmtContext then streamSides (lines.length + 1) lines else []

variable {sides : CtxSides}
theorem parse_context_hunk_kept {lines left : List Pline} (read : contextSides lines = some (sides, left))
    (kept : sides.stranded = false) : parseContextHunk lines = some (sides.merged, left) := by
  rw [parse_context_hunk_eq, read, bind_some]
  simp only
  rw [merge_returns _ _ (le_refl _) kept]
  rfl

variable {clock : Nat}
theorem parse_context_hunk_in_kept {lines left : List Pline}
    (read : contextSides lines = some (sides, left)) (kept : sides.stranded = false)
    (enough : sides.oldb.length + sides.newb.length ≤ clock) :
    parseContextHunkIn clock lines = .returned (sides.merged, left) := by
  simp only [parseContextHunkIn, read, Outcome.answer_some, Outcome.returned_bind, merge_returns _ _ enough kept]
  rfl

theorem parse_context_hunk_in_stranded (clock : Nat) {lines left : List Pline}
    (read : contextSides lines = some (sides, left)) (stranded : sides.stranded = true) :
    parseContextHunkIn clock lines = .running := by
  simp only [parseContextHunkIn, read, Outcome.answer_some, Outcome.returned_bind, merge_strands _ _ stranded]

theorem parse_context_hunk_in_cases (clock : Nat) {lines left : List Pline}
    (read : contextSides lines = some (sides, left)) :
    parseContextHunkIn clock lines = .running ∨ parseContextHunkIn clock lines = .returned (sides.merged, left) := by
  cases merged : mergeContextSides clock sides.oldb sides.newb with
  | none => exact .inl (by simp [parseContextHunkIn, read, merged])
  | some hops =>
    refine .inr ?_
    simp only [parseContextHunkIn, read, Outcome.answer_some, Outcome.returned_bind, merged]
    rw [merge_result merged]
    rfl

def mergedHunks (met : List CtxSides × Option (List Pline)) : Option (List Hunk × List Pline) :=
  met.2.map fun left => (met.1.map CtxSides.merged, left)

theorem context_hunks_kept (clock rounds fuel walk : Nat) (lines : List Pline) (room : lines.length ≤ clock)
    (enoughRounds : lines.length < rounds) (enough : lines.length ≤ fuel) (walked : lines.length < walk)
    (kept : ∀ sides ∈ (hunkSides walk lines).1, sides.stranded = false) :
    itemsIn isAllStars (parseContextHunkIn clock) rounds lines = Outcome.answer (mergedHunks (hunkSides walk lines)) ∧
      parseContextHunks fuel lines = mergedHunks (hunkSides walk lines) := by
  induction walk generalizing rounds fuel lines with
  | zero => exact absurd walked (not_lt_zero _)
  | succ walk ih =>
    obtain ⟨rounds, rfl⟩ : ∃ k, rounds = k + 1 := exists_eq_succ_of_ne_zero (by omega)
    cases lines with
    | nil =>
      refine ⟨rfl, ?_⟩
      cases fuel <;> rfl
    | cons pl rest =>
      obtain ⟨fuel, rfl⟩ : ∃ k, fuel = k + 1 := exists_eq_succ_of_ne_zero (by simp at enough; omega)
      by_cases stars : isAllStars pl = true
      · cases read : contextSides (pl :: rest) with
        | none =>
          have refused : parseContextHunk (pl :: rest) = none := by rw [parse_context_hunk_eq, read, bind_none]
          simp [itemsIn, hunkSides, stars, read, mergedHunks, parseContextHunkIn, parseContextHunks, refused]
        | some found =>
          obtain ⟨sides, left⟩ := found
          simp only [hunkSides, if_pos stars, read, forall_mem_cons] at kept
          have size := context_sides_left read
          obtain ⟨first, second⟩ := ih rounds fuel left (by omega) (by omega) (by omega) (by omega) kept.2
          have parsed := parse_context_hunk_kept read kept.1
          have inner := parse_context_hunk_in_kept read kept.1 (by omega : _ ≤ clock)
          cases stop : (hunkSides walk left).2 with
          | none | some =>
            rw [mergedHunks, stop] at first second
            simp [itemsIn, hunkSides, stars, read, mergedHunks, inner, parseContextHunks, parsed, first, second, stop]
      · simp [itemsIn, hunkSides, stars, mergedHunks, parseContextHunks]

theorem context_hunks_cases (clock rounds walk : Nat) (lines : List Pline) (walked : lines.length < walk) :
    itemsIn isAllStars (parseContextHunkIn clock) rounds lines = .running ∨
      itemsIn isAllStars (parseContextHunkIn clock) rounds lines = Outcome.answer (mergedHunks (hunkSides walk lines)) := by
  induction walk generalizing rounds lines with
  | zero => exact absurd walked (not_lt_zero _)
  | succ walk ih =>
    cases rounds with
    | zero => exact .inl rfl
    | succ rounds =>
      cases lines with
      | nil => exact .inr rfl
      | cons pl rest =>
        by_cases stars : isAllStars pl = true
        · cases read : contextSides (pl :: rest) with
          | none => exact .inr (by simp [itemsIn, hunkSides, stars, read, mergedHunks, parseContextHunkIn])
          | some found =>
            obtain ⟨sides, left⟩ := found
            have size := context_sides_left read
            rcases parse_context_hunk_in_cases clock read with stuck | merged
            · exact .inl (by simp [itemsIn, stars, stuck])
            · rcases ih rounds left (by omega) with stuck | loop
              · exact .inl (by simp [itemsIn, stars, merged, stuck])
              · cases stop : (hunkSides walk left).2 with
                | none | some => exact .inr (by simp [itemsIn, hunkSides, stars, read, merged, loop, mergedHunks, stop])
        · exact .inr (by simp [itemsIn, hunkSides, stars, mergedHunks])

theorem context_hunks_stranded (clock rounds walk : Nat) (lines : List Pline)
    (stranded : ∃ sides ∈ (hunkSides walk lines).1, sides.stranded = true) :
    itemsIn isAllStars (parseContextHunkIn clock) rounds lines = .running := by
  induction walk generalizing rounds lines with
  | zero => simp [hunkSides] at stranded
  | succ walk ih =>
    cases rounds with
    | zero => rfl
    | succ rounds =>
      cases lines with
      | nil => simp [hunkSides] at stranded
      | cons pl rest =>
        by_cases stars : isAllStars pl = true
        · cases read : contextSides (pl :: rest) with
          | none => simp [hunkSides, stars, read] at stranded
          | some found =>
            obtain ⟨sides, left⟩ := found
            by_cases here : sides.stranded = true
            · simp [itemsIn, stars, parse_context_hunk_in_stranded clock read here]
            · have later : ∃ sides ∈ (hunkSides walk left).1, sides.stranded = true := by
                simpa [hunkSides, stars, read, here] using stranded
              cases merged : mergeContextSides clock sides.oldb sides.newb with
              | none => simp [itemsIn, stars, parseContextHunkIn, read, merged]
              | some hops => simp [itemsIn, stars, parseContextHunkIn, read, merged, ih rounds left later]
        · simp [hunkSides, stars] at stranded

theorem parse_context_hunk_consumes : Consumes parseContextHunk := by
  intro lines h left parsed
  simp only [parse_context_hunk_eq, bind_eq_some_iff, some.injEq, mk.injEq] at parsed
  obtain ⟨⟨sides, rest⟩, read, hops, -, -, rfl⟩ := parsed
  have size := context_sides_left read
  have less : rest.length < lines.length := by omega
  exact less

variable (fuel : Nat)
theorem parse_context_hunks_items : parseContextHunks fuel lines = items isAllStars parseContextHunk fuel lines :=
  items_unique (fun _ => rfl) (fun _ => rfl) (fun _ _ _ => rfl) fuel lines

theorem parse_normal_hunks_items :
    parseNormalHunks fuel lines = items isNormalHeaderLine parseNormalHunk fuel lines :=
  items_unique (fun _ => rfl) (fun _ => rfl) (fun _ _ _ => rfl) fuel lines

theorem parse_unified_hunks_items :
    parseUnifiedHunks fuel lines = items (fun pl => startsWith pl (ascii "@@ -")) parseUnifiedHunk fuel lines :=
  items_unique (fun _ => rfl) (fun _ => rfl) (fun _ _ _ => rfl) fuel lines

theorem parse_ed_cmds_items : parseEdCmds fuel lines = items isEdHeaderLine parseEdCmd fuel lines :=
  items_unique (fun _ => rfl) (fun _ => rfl) (fun _ _ _ => rfl) fuel lines

theorem section_names_left {oldPfx newPfx : Bytes} {lines rest : List Pline} {names : Bytes × Bytes}
    (read : sectionNames oldPfx newPfx lines = some (names, rest)) : rest.length + 2 = lines.length := by
  match lines with
  | [] => cases read
  | [_] => cases read
  | first :: second :: tail =>
    simp only [sectionNames, bind_eq_bind, bind_eq_some_iff, some.injEq, mk.injEq] at read
    obtain ⟨_, -, _, -, -, rfl⟩ := read
    rfl

theorem parse_context_section_eq :
    parseContextSection lines = (sectionNames (ascii "*** ") (ascii "--- ") lines).bind fun (names, rest) =>
      (parseContextHunks rest.length rest).bind fun (hunks, left) =>
        if hunks = [] then none else some (⟨.fmtContext, some names.1, some names.2, hunks, []⟩, left) := by
  match lines with
  | [] => rfl
  | [_] => rfl
  | first :: second :: tail =>
    simp [parseContextSection, sectionNames, bind_assoc]

theorem parse_unified_section_eq :
    parseUnifiedSection lines = (sectionNames (ascii "--- ") (ascii "+++ ") lines).bind fun (names, rest) =>
      (parseUnifiedHunks rest.length rest).bind fun (hunks, left) =>
        if hunks = [] then none else some (⟨.fmtUnified, some names.1, some names.2, hunks, []⟩, left) := by
  match lines with
  | [] => rfl
  | [_] => rfl
  | first :: second :: tail =>
    simp [parseUnifiedSection, sectionNames, bind_assoc]

variable {fmt : DiffFormat}
theorem parse_section_left {lines left : List Pline} {pf : Patchfile}
    (named : fmt = .fmtContext ∨ fmt = .fmtUnified) (parsed : parseSection fmt lines = some (pf, left)) :
    left.length < lines.length := by
  rcases named with rfl | rfl
  · simp only [parseSection, parse_context_section_eq, bind_eq_some_iff] at parsed
    obtain ⟨⟨names, rest⟩, read, ⟨hunks, left'⟩, found, parsed⟩ := parsed
    have size := section_names_left read
    rw [parse_context_hunks_items] at found
    have less : left'.length ≤ rest.length := items_left parse_context_hunk_consumes _ _ _ _ found
    simp only [ite_none_left_eq_some, some.injEq, mk.injEq] at parsed
    obtain ⟨-, -, rfl⟩ := parsed
    omega
  · simp only [parseSection, parse_unified_section_eq, bind_eq_some_iff] at parsed
    obtain ⟨⟨names, rest⟩, read, ⟨hunks, left'⟩, found, parsed⟩ := parsed
    have size := section_names_left read
    rw [parse_unified_hunks_items] at found
    have less : left'.length ≤ rest.length := items_left parse_unified_hunk_consumes _ _ _ _ found
    simp only [ite_none_left_eq_some, some.injEq, mk.injEq] at parsed
    obtain ⟨-, -, rfl⟩ := parsed
    omega

theorem context_section_kept {lines : List Pline} (room : lines.length ≤ clock)
    (kept : ∀ sides ∈ (sectionSides lines).1, sides.stranded = false) :
    parseSectionIn clock .fmtContext lines = Outcome.answer (parseSection .fmtContext lines) ∧
      (parseSection .fmtContext lines).map snd = (sectionSides lines).2 := by
  simp only [parseSectionIn, parseSection, parse_context_section_eq]
  cases read : sectionNames (ascii "*** ") (ascii "--- ") lines with
  | none => simp [sectionSides, read]
  | some found =>
    obtain ⟨names, rest⟩ := found
    have size := section_names_left read
    simp only [sectionSides, read] at kept ⊢
    obtain ⟨loop, parsed⟩ := context_hunks_kept clock clock rest.length (rest.length + 1) rest (by omega) (by omega)
      (le_refl _) (lt_succ_self _) kept
    simp only [Outcome.answer_some, Outcome.returned_bind, bind_some, loop, parsed, mergedHunks]
    cases stop : (hunkSides (rest.length + 1) rest).2 with
    | none => simp
    | some left =>
      by_cases none : (hunkSides (rest.length + 1) rest).1 = [] <;> simp [none]

theorem context_section_cases (clock : Nat) (lines : List Pline) : parseSectionIn clock .fmtContext lines = .running ∨
      (parseSectionIn clock .fmtContext lines = .refused ∧ (sectionSides lines).2 = none) ∨
      ∃ pf left, parseSectionIn clock .fmtContext lines = .returned (pf, left) ∧ (sectionSides lines).2 = some left := by
  cases read : sectionNames (ascii "*** ") (ascii "--- ") lines with
  | none => exact .inr (.inl (by simp [parseSectionIn, sectionSides, read]))
  | some found =>
    obtain ⟨names, rest⟩ := found
    rcases context_hunks_cases clock clock (rest.length + 1) rest (lt_succ_self _) with stuck | loop
    · exact .inl (by simp [parseSectionIn, read, stuck])
    · refine .inr ?_
      cases stop : (hunkSides (rest.length + 1) rest).2 with
      | none => exact .inl (by simp [parseSectionIn, sectionSides, read, loop, mergedHunks, stop])
      | some left =>
        by_cases none : (hunkSides (rest.length + 1) rest).1 = []
        · exact .inl (by simp [parseSectionIn, sectionSides, read, loop, mergedHunks, stop, none])
        · refine .inr ⟨⟨.fmtContext, some names.1, some names.2,
            (hunkSides (rest.length + 1) rest).1.map CtxSides.merged, []⟩, left, ?_, ?_⟩
          · simp only [parseSectionIn, read, loop, mergedHunks, stop, Outcome.answer_some, Outcome.returned_bind,
              map_some, map_eq_nil_iff, if_neg none]
          · simp [sectionSides, read, none, stop]

theorem context_section_stranded (clock : Nat) {lines : List Pline}
    (stranded : ∃ sides ∈ (sectionSides lines).1, sides.stranded = true) :
    parseSectionIn clock .fmtContext lines = .running := by
  cases read : sectionNames (ascii "*** ") (ascii "--- ") lines with
  | none => simp [sectionSides, read] at stranded
  | some found =>
    obtain ⟨names, rest⟩ := found
    simp only [sectionSides, read] at stranded
    simp [parseSectionIn, read, context_hunks_stranded clock clock _ rest stranded]

theorem nonempty_answer {H : Type} (found : Option (List H × List Pline)) (file : List H → Patchfile) :
    ((Outcome.answer found).bind fun (hs, left) => if hs = [] then .refused else .returned (file hs, left)) =
      Outcome.answer (found.bind fun (hs, left) => if hs = [] then none else some (file hs, left)) := by
  cases found with
  | none => rfl
  | some pair =>
    by_cases empty : pair.1 = [] <;> simp [empty]

theorem other_section_answers {lines : List Pline} (other : fmt ≠ .fmtContext)
    (room : lines.length < clock) : parseSectionIn clock fmt lines = Outcome.answer (parseSection fmt lines) := by
  have ed := items_in_answer isEdHeaderLine parse_ed_cmd_consumes clock lines.length lines room (le_refl _)
  rw [← parse_ed_cmds_items] at ed
  cases fmt with
  | fmtContext => exact absurd rfl other
  | fmtNormal =>
    have normal := items_in_answer isNormalHeaderLine parse_normal_hunk_consumes clock lines.length lines room
      (le_refl _)
    rw [← parse_normal_hunks_items] at normal
    simp only [parseSectionIn, normal]
    exact nonempty_answer _ fun hunks => ⟨.fmtNormal, none, none, hunks, []⟩
  | fmtUnified =>
    simp only [parseSectionIn, parseSection, parse_unified_section_eq]
    cases read : sectionNames (ascii "--- ") (ascii "+++ ") lines with
    | none => rfl
    | some found =>
      obtain ⟨names, rest⟩ := found
      have size := section_names_left read
      have unified := items_in_answer (fun pl => startsWith pl (ascii "@@ -")) parse_unified_hunk_consumes clock rest.length
        rest (by omega) (le_refl _)
      rw [← parse_unified_hunks_items] at unified
      simp only [Outcome.answer_some, Outcome.returned_bind, bind_some, unified]
      exact nonempty_answer _ fun hunks => ⟨.fmtUnified, some names.1, some names.2, hunks, []⟩
  | fmtEd | fmtUnknown =>
    simp only [parseSectionIn, ed]
    exact nonempty_answer _ fun eds => ⟨.fmtEd, none, none, [], eds⟩

theorem stream_sides_step {walk : Nat} {lines rest : List Pline} {pl : Pline}
    (skipped : lines.dropWhile (fun pl => !sectionStartsHere .fmtContext pl) = pl :: rest) : streamSides (walk + 1) lines =
      (sectionSides (pl :: rest)).1 ++ ((sectionSides (pl :: rest)).2.map (streamSides walk)).getD [] := by
  rcases met : sectionSides (pl :: rest) with ⟨first, _ | stop⟩ <;> simp [streamSides, skipped, met]

theorem sections_kept (known : fmt ≠ .fmtUnknown) (rounds fuel walk : Nat)
    (lines : List Pline) (room : lines.length < clock) (enoughRounds : lines.length < rounds) (enough : lines.length < fuel)
    (walked : lines.length < walk) (kept : fmt = .fmtContext → ∀ sides ∈ streamSides walk lines, sides.stranded = false) :
    parseSectionsIn clock fmt rounds lines = Outcome.answer (parseSections fmt fuel lines) := by
  induction rounds generalizing fuel walk lines with
  | zero => exact absurd enoughRounds (not_lt_zero _)
  | succ rounds ih =>
    obtain ⟨fuel, rfl⟩ : ∃ k, fuel = k + 1 := exists_eq_succ_of_ne_zero (by omega)
    obtain ⟨walk, rfl⟩ : ∃ k, walk = k + 1 := exists_eq_succ_of_ne_zero (by omega)
    have shorter : (lines.dropWhile fun pl => !sectionStartsHere fmt pl).length ≤ lines.length :=
      (dropWhile_sublist _).length_le
    simp only [parseSectionsIn, parseSections]
    cases skipped : lines.dropWhile fun pl => !sectionStartsHere fmt pl with
    | nil => rfl
    | cons pl rest =>
      rw [skipped] at shorter
      have answered : parseSectionIn clock fmt (pl :: rest) = Outcome.answer (parseSection fmt (pl :: rest)) := by
        by_cases context : fmt = .fmtContext
        · subst context
          refine (context_section_kept (by omega) fun sides member => kept rfl sides ?_).1
          exact stream_sides_step skipped ▸ mem_append_left _ member
        · exact other_section_answers context (by omega)
      simp only [answered]
      cases parsed : parseSection fmt (pl :: rest) with
      | none => rfl
      | some found =>
        obtain ⟨pf, left⟩ := found
        by_cases single : fmt = .fmtNormal ∨ fmt = .fmtEd
        · simp [single]
        · have named : fmt = .fmtContext ∨ fmt = .fmtUnified := by
            cases fmt <;> simp_all
          have less := parse_section_left named parsed
          have rest : parseSectionsIn clock fmt rounds left = Outcome.answer (parseSections fmt fuel left) := by
            refine ih fuel walk left (by omega) (by omega) (by omega) (by omega) ?_
            rintro rfl sides member
            have stop := (context_section_kept (by omega : _ ≤ clock) fun sides member =>
              kept rfl sides (stream_sides_step skipped ▸ mem_append_left _ member)).2
            rw [parsed, map_some] at stop
            refine kept rfl sides ?_
            rw [stream_sides_step skipped, ← stop]
            exact mem_append_right _ member
          simp only [Outcome.answer_some, Outcome.returned_bind, if_neg single, rest, bind_eq_bind, bind_some]
          exact Outcome.answer_bind _ fun later => some (pf :: later)

theorem sections_stranded (clock rounds walk : Nat) (lines : List Pline)
    (stranded : ∃ sides ∈ streamSides walk lines, sides.stranded = true) :
    parseSectionsIn clock .fmtContext rounds lines = .running := by
  induction rounds generalizing walk lines with
  | zero => rfl
  | succ rounds ih =>
    cases walk with
    | zero => simp [streamSides] at stranded
    | succ walk =>
      simp only [parseSectionsIn]
      cases skipped : lines.dropWhile fun pl => !sectionStartsHere .fmtContext pl with
      | nil => simp [streamSides, skipped] at stranded
      | cons pl rest =>
        by_cases here : ∃ sides ∈ (sectionSides (pl :: rest)).1, sides.stranded = true
        · simp only [context_section_stranded clock here, Outcome.running_bind]
        · rcases context_section_cases clock (pl :: rest) with stuck | refused | ⟨pf, left, parsed, stop⟩
          · simp only [stuck, Outcome.running_bind]
          · rw [stream_sides_step skipped, refused.2, map_none, getD_none, append_nil] at stranded
            exact absurd stranded here
          · rw [stream_sides_step skipped, stop] at stranded
            have later : ∃ sides ∈ streamSides walk left, sides.stranded = true := by
              obtain ⟨sides, member, strand⟩ := stranded
              rcases mem_append.mp member with first | second
              · exact absurd ⟨sides, first, strand⟩ here
              · exact ⟨sides, second, strand⟩
            simp [parsed, ih walk left later]

theorem stream_stranded (clock : Nat) {lines : List Pline} {forced : DiffFormat}
    (stranded : ∃ sides ∈ sidesMet lines forced, sides.stranded = true) :
    parsePatchStreamIn clock lines forced = .running := by
  unfold sidesMet at stranded
  simp only [parsePatchStreamIn]
  generalize (if forced = .fmtUnknown then detect lines else forced) = fmt at stranded ⊢
  by_cases context : fmt = .fmtContext
  · subst context
    rw [if_neg (by decide), sections_stranded clock clock _ lines (by simpa using stranded)]
    rfl
  · simp [context] at stranded

theorem stream_kept {lines : List Pline} {forced : DiffFormat} (room : lines.length < clock)
    (kept : ∀ sides ∈ sidesMet lines forced, sides.stranded = false) :
    parsePatchStreamIn clock lines forced = Outcome.answer (parsePatchStream lines forced) := by
  unfold sidesMet at kept
  simp only [parsePatchStreamIn, parsePatchStream]
  generalize (if forced = .fmtUnknown then detect lines else forced) = fmt at kept ⊢
  by_cases unknown : fmt = .fmtUnknown
  · simp [unknown]
  · have sections := sections_kept unknown clock (lines.length + 1) (lines.length + 1) lines room room (lt_succ_self _)
      (lt_succ_self _) (by
        rintro rfl
        simpa using kept)
    rw [if_neg unknown, if_neg unknown, sections]
    cases parseSections fmt (lines.length + 1) lines with
    | none => rfl
    | some found =>
      by_cases empty : found = [] <;> simp [empty]

def RoundsConsume (sides : List Hop × List Hop) : Prop :=
  ∀ rounds, mergeRound^[rounds] sides = ([], []) ∨
    sidesLeft (mergeRound (mergeRound^[rounds] sides)) < sidesLeft (mergeRound^[rounds] sides)

theorem iterate_round_strands (rounds : Nat) (sides : List Hop × List Hop) :
    strands (mergeRound^[rounds] sides).1 (mergeRound^[rounds] sides).2 = strands sides.1 sides.2 := by
  induction rounds with
  | zero => rfl
  | succ rounds ih => rw [Function.iterate_succ_apply', round_strands, ih]

theorem rounds_consume_iff (sides : List Hop × List Hop) : RoundsConsume sides ↔ strands sides.1 sides.2 = false := by
  constructor
  · intro consume
    by_contra stranded
    rw [Bool.not_eq_false] at stranded
    have shrink : ∀ rounds, sidesLeft (mergeRound^[rounds] sides) + rounds ≤ sidesLeft sides := by
      intro rounds
      induction rounds with
      | zero => exact le_refl _
      | succ rounds ih =>
        rcases consume rounds with done | less
        · have left := iterate_round_strands rounds sides
          rw [done, stranded] at left
          cases left
        · rw [Function.iterate_succ_apply']
          omega
    have last := shrink (sidesLeft sides + 1)
    omega
  · intro kept rounds
    exact round_shrinks _ (by rw [iterate_round_strands, kept])

structure Terminates (lines : List Pline) (forced : DiffFormat) : Prop where
  returns : ∀ clock, lines.length < clock → parsePatchStreamIn clock lines forced = Outcome.answer (parsePatchStream lines forced)
  consuming : ∀ sides ∈ sidesMet lines forced, RoundsConsume (sides.oldb, sides.newb)

theorem parse_patch_stream_terminates_iff (buf : Bytes) (forced : DiffFormat) :
    Terminates (readAllLines buf) forced ↔ ∀ sides ∈ sidesMet (readAllLines buf) forced, sides.stranded = false := by
  constructor
  · intro terminates sides member
    exact (rounds_consume_iff _).mp (terminates.consuming sides member)
  · intro kept
    exact ⟨fun clock room => stream_kept room kept, fun sides member => (rounds_consume_iff _).mpr (kept sides member)⟩

theorem stranded_never_returns (lines : List Pline) (forced : DiffFormat)
    (stranded : ∃ sides ∈ sidesMet lines forced, sides.stranded = true) :
    ¬ Terminates lines forced ∧ ∀ clock, parsePatchStreamIn clock lines forced = .running := by
  refine ⟨fun terminates => ?_, fun clock => stream_stranded clock stranded⟩
  have answered := terminates.returns _ (lt_succ_self _)
  rw [stream_stranded _ stranded] at answered
  cases parsed : parsePatchStream lines forced <;> simp [parsed, Outcome.answer] at answered

def omittedOldSide : Bytes :=
  ascii "*** a\n--- b\n***************\n*** 1 ****\n--- 1,2 ----\n  x\n+ y\n"

theorem omitted_old_side_never_returns :
    ¬ Terminates (readAllLines omittedOldSide) .fmtUnknown ∧
      ∀ clock, parsePatchStreamIn clock (readAllLines omittedOldSide) .fmtUnknown = .running :=
  stranded_never_returns _ _ (by decide +kernel)

end Spicule.Patch
