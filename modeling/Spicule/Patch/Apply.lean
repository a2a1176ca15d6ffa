import Spicule.Patch.Parse

namespace Spicule.Patch
open List Function
open Diff

def cString (text : Bytes) : Bytes := text.takeWhile (· != 0)

def wsLooseEqual (a b : Bytes) : Bool := linesEqualBFrom (cString a) (cString b)

def textMatches (loose : Bool) (a b : Bytes) : Bool := if loose then wsLooseEqual a b else a == b

def sideMatchesFrom (wantOld : Bool) (target : List Pline) (loose : Bool) : List Hop → Nat → Bool
  | [], _ => true
  | hop :: rest, t =>
    if hop.kind = (if wantOld then .hopAdd else .hopDel) then sideMatchesFrom wantOld target loose rest t
    else
      match target[t]? with
      | none => false
      | some line => textMatches loose hop.p.text line.text && sideMatchesFrom wantOld target loose rest (t + 1)

def sideMatches (h : Hunk) (wantOld : Bool) (target : List Pline) (pos : Nat) (loose : Bool) : Bool :=
  if pos > target.length then false else sideMatchesFrom wantOld target loose h.hops pos

def findAround (found : Nat → Bool) (n lo expected : Nat) : Nat → Nat → Option Nat
  | 0, _ => none
  | fuel + 1, d =>
    if expected + d ≤ n ∧ found (expected + d) = true then some (expected + d)
    else if lo + d ≤ expected ∧ found (expected - d) = true then some (expected - d)
    else if expected + d ≤ n ∨ lo + d ≤ expected then findAround found n lo expected fuel (d + 1)
    else none

def clamp (expected : Int) (lo n : Nat) : Nat :=
  let raised := if expected < lo then (lo : Int) else expected
  if raised > n then n else raised.toNat

def findMatch (h : Hunk) (wantOld : Bool) (target : List Pline) (expected : Int) (loBound : Nat) (loose : Bool) :
    Option Nat :=
  let n := target.length
  let start := clamp expected loBound n
  if sideMatches h wantOld target start loose then some start
  else findAround (fun pos => sideMatches h wantOld target pos loose) n loBound start (n + 1) 1

def guardLine (text define : Bytes) : Pline := ⟨(text ++ define).take 511, true⟩

def emitBlock (define : Option Bytes) (dels adds : List Pline) : List Pline :=
  match define with
  | none => adds
  | some name =>
    (if dels = [] then [] else guardLine (ascii "#ifndef ") name :: dels) ++
      (if dels = [] ∨ adds = [] then [] else [⟨ascii "#else", true⟩]) ++
      (if adds = [] then [] else (if dels = [] then [guardLine (ascii "#ifdef ") name] else []) ++ adds) ++
      (if dels = [] ∧ adds = [] then [] else [⟨ascii "#endif", true⟩])

def deletedLines (define : Option Bytes) (target : List Pline) (t count : Nat) : Option (List Pline) :=
  match define with
  | none => some []
  | some _ => if count = 0 ∨ t + count ≤ target.length then some (Splice.slice target t (t + count)) else none

def emitHunk (define : Option Bytes) (target : List Pline) : Nat → List Hop → Nat → Option (List Pline)
  | _, [], _ => some []
  | 0, _ :: _, _ => none
  | fuel + 1, hop :: rest, t =>
    if hop.kind = .hopCtx then do
      let line ← target[t]?
      let later ← emitHunk define target fuel rest (t + 1)
      some (line :: later)
    else do
      let dels := (hop :: rest).takeWhile fun hop => hop.kind = .hopDel
      let left := (hop :: rest).dropWhile fun hop => hop.kind = .hopDel
      let adds := left.takeWhile fun hop => hop.kind = .hopAdd
      let left := left.dropWhile fun hop => hop.kind = .hopAdd
      let deleted ← deletedLines define target t dels.length
      let later ← emitHunk define target fuel left (t + dels.length)
      some (emitBlock define deleted (adds.map Hop.p) ++ later)

structure Applied where
  outbuf : List Pline
  rejects : List Hunk
deriving DecidableEq, Repr

inductive Placement where
  | found (pos : Nat)
  | alreadyApplied (stop : Nat)
  | rejected
deriving DecidableEq, Repr

-- The old side is looked for first; the new one only tells whether `-N` passes over it.
def placeHunk (h : Hunk) (target : List Pline) (loose ignoreApplied : Bool) (src : Nat) (offset : Int) : Placement :=
  let expected := (if h.oldCount = 0 then (h.oldStart : Int) else h.oldStart - 1) + offset
  match findMatch h true target expected src loose with
  | some pos => .found pos
  | none =>
    match findMatch h false target expected src loose with
    | some npos => if ignoreApplied then .alreadyApplied (min (npos + h.newCount) target.length) else .rejected
    | none => .rejected

-- The loop of `apply_section`, from the target line `src` with the shift `offset`: what is
-- still to be written and rejected.
def applyHunks (target : List Pline) (define : Option Bytes) (loose ignoreApplied : Bool) :
    List Hunk → Nat → Int → Option Applied
  | [], src, _ => some ⟨target.drop src, []⟩
  | h :: rest, src, offset =>
    match placeHunk h target loose ignoreApplied src offset with
    | .found pos => do
        let emitted ← emitHunk define target h.hops.length h.hops pos
        let later ← applyHunks target define loose ignoreApplied rest (pos + h.oldCount)
          (offset + (h.newCount - h.oldCount))
        some ⟨Splice.slice target src pos ++ emitted ++ later.outbuf, later.rejects⟩
    | .alreadyApplied stop => do
        let later ← applyHunks target define loose ignoreApplied rest stop (offset + (h.newCount - h.oldCount))
        some ⟨Splice.slice target src stop ++ later.outbuf, later.rejects⟩
    | .rejected => do
        let later ← applyHunks target define loose ignoreApplied rest src offset
        some ⟨later.outbuf, h :: later.rejects⟩

def applySection (pf : Patchfile) (target : List Pline) (define : Option Bytes) (loose ignoreApplied : Bool) :
    Option Applied :=
  applyHunks target define loose ignoreApplied pf.hunks 0 0

open Splice

theorem find_around_own {found : Nat → Bool} {n lo start own : Nat} (after : lo ≤ own) (inside : own ≤ n)
    (within : lo ≤ start ∧ start ≤ n) (hit : found own = true) (alone : ∀ pos, lo ≤ pos → pos ≤ n → Sooner start pos own → found pos = false)
    (fuel d : Nat) (reached : d ≤ (own - start) + (start - own)) (enough : (own - start) + (start - own) < d + fuel) :
    findAround found n lo start fuel d = some own := by
  induction fuel generalizing d with
  | zero => omega
  | succ fuel ih =>
    by_cases ahead : own = start + d
    · rw [findAround, if_pos ⟨by omega, ahead ▸ hit⟩, ahead]
    · have notAhead : ¬ (start + d ≤ n ∧ found (start + d) = true) := by
        rintro ⟨bound, other⟩
        rw [alone (start + d) (by omega) bound (by unfold Sooner; omega)] at other
        exact Bool.false_ne_true other
      rw [findAround, if_neg notAhead]
      by_cases behind : own + d = start
      · rw [if_pos ⟨by omega, by rwa [show start - d = own by omega]⟩]
        exact congrArg some (by omega)
      · have notBehind : ¬ (lo + d ≤ start ∧ found (start - d) = true) := by
          rintro ⟨bound, other⟩
          rw [alone (start - d) (by omega) (by omega) (by unfold Sooner; omega)] at other
          exact Bool.false_ne_true other
        rw [if_neg notBehind, if_pos (by omega)]
        exact ih (d + 1) (by omega) (by omega)

theorem clamp_nat (expected lo n : Nat) : clamp expected lo n = min (max expected lo) n := by
  unfold clamp
  dsimp only
  split <;> split <;> omega

def oldLines (hops : List Hop) : List Pline := (hops.filter fun hop => hop.kind != .hopAdd).map Hop.p

def newLines (hops : List Hop) : List Pline := (hops.filter fun hop => hop.kind != .hopDel).map Hop.p

variable (target : List Pline) (hops : List Hop)
theorem side_matches_from_old (t : Nat) : sideMatchesFrom true target false hops t = true ↔
      (oldLines hops).map Pline.text <+: (target.map Pline.text).drop t := by
  induction hops generalizing t with
  | nil => simp [sideMatchesFrom, oldLines]
  | cons hop rest ih =>
    by_cases added : hop.kind = .hopAdd
    · simpa [sideMatchesFrom, oldLines, added] using ih t
    · have old : oldLines (hop :: rest) = hop.p :: oldLines rest := by simp [oldLines, added]
      rw [old, map_cons]
      by_cases bound : t < target.length
      · have head : (target.map Pline.text).drop t = target[t].text :: (target.map Pline.text).drop (t + 1) := by
          rw [drop_eq_getElem_cons (by simpa using bound), List.getElem_map]
        rw [head, cons_prefix_cons, ← ih (t + 1)]
        simp [sideMatchesFrom, added, bound, textMatches]
      · have empty : (target.map Pline.text).drop t = [] := drop_eq_nil_of_le (by simpa using bound)
        rw [empty]
        simp [sideMatchesFrom, added, bound]

theorem side_matches_old (h : Hunk) {target : List Pline} {pos : Nat} (inside : pos ≤ target.length) :
    sideMatches h true target pos false = true ↔
      (oldLines h.hops).map Pline.text <+: (target.map Pline.text).drop pos := by
  rw [sideMatches, if_neg (by omega), side_matches_from_old]

-- A context line is there as it is, of a deleted one only the text counts.
def Fits : List Hop → List Pline → Prop
  | [], _ => True
  | ⟨.hopAdd, _⟩ :: rest, target => Fits rest target
  | ⟨_, _⟩ :: _, [] => False
  | ⟨.hopCtx, p⟩ :: rest, line :: target => line = p ∧ Fits rest target
  | ⟨.hopDel, p⟩ :: rest, line :: target => line.text = p.text ∧ Fits rest target

theorem fits_old_texts (target : List Pline) (fits : Fits hops target) :
    (oldLines hops).map Pline.text <+: target.map Pline.text := by
  induction hops generalizing target with
  | nil => simp [oldLines]
  | cons hop rest ih =>
    obtain ⟨kind, p⟩ := hop
    cases kind with
    | hopAdd => exact ih target fits
    | hopCtx =>
      cases target with
      | nil => exact fits.elim
      | cons line target => exact cons_prefix_cons.mpr ⟨congrArg Pline.text fits.1.symm, ih target fits.2⟩
    | hopDel =>
      cases target with
      | nil => exact fits.elim
      | cons line target => exact cons_prefix_cons.mpr ⟨fits.1.symm, ih target fits.2⟩

theorem fits_skip_dels (target : List Pline) (t : Nat) (fits : Fits hops (target.drop t)) :
    Fits (hops.dropWhile fun hop => hop.kind = .hopDel)
      (target.drop (t + (hops.takeWhile fun hop => hop.kind = .hopDel).length)) ∧
      newLines (hops.dropWhile fun hop => hop.kind = .hopDel) = newLines hops := by
  induction hops generalizing t with
  | nil => exact ⟨trivial, rfl⟩
  | cons hop rest ih =>
    obtain ⟨kind, p⟩ := hop
    cases kind with
    | hopAdd | hopCtx => exact ⟨fits, rfl⟩
    | hopDel =>
      have later : Fits rest (target.drop (t + 1)) := by
        cases found : target.drop t with
        | nil => exact (found ▸ fits : Fits (⟨.hopDel, p⟩ :: rest) []).elim
        | cons line left =>
          rw [found] at fits
          rw [← drop_drop, found]
          exact fits.2
      obtain ⟨moved, news⟩ := ih (t + 1) later
      simp only [decide_true, dropWhile_cons_of_pos, takeWhile_cons_of_pos, length_cons]
      rw [show t + ((rest.takeWhile fun hop => hop.kind = .hopDel).length + 1) =
        t + 1 + (rest.takeWhile fun hop => hop.kind = .hopDel).length by omega]
      exact ⟨moved, news⟩

theorem fits_skip_adds (target : List Pline) (fits : Fits hops target) :
    Fits (hops.dropWhile fun hop => hop.kind = .hopAdd) target ∧
      newLines hops = (hops.takeWhile fun hop => hop.kind = .hopAdd).map Hop.p ++
        newLines (hops.dropWhile fun hop => hop.kind = .hopAdd) := by
  induction hops with
  | nil => exact ⟨trivial, rfl⟩
  | cons hop rest ih =>
    obtain ⟨kind, p⟩ := hop
    cases kind with
    | hopCtx | hopDel => exact ⟨fits, rfl⟩
    | hopAdd =>
      obtain ⟨left, news⟩ := ih fits
      refine ⟨left, ?_⟩
      rw [takeWhile_cons_of_pos rfl, dropWhile_cons_of_pos rfl, map_cons, cons_append, ← news]
      rfl

variable (define : Option Bytes)
theorem emit_hunk_ctx (target : List Pline) (fuel : Nat) (p : Pline) (rest : List Hop) (t : Nat) :
    emitHunk define target (fuel + 1) (⟨.hopCtx, p⟩ :: rest) t =
      (target[t]?).bind fun line => (emitHunk define target fuel rest (t + 1)).bind fun later => some (line :: later) := rfl

theorem emit_hunk_block (target : List Pline) (fuel : Nat) (hop : Hop) (rest : List Hop) (t : Nat)
    (change : hop.kind ≠ .hopCtx) :
    emitHunk define target (fuel + 1) (hop :: rest) t =
      (deletedLines define target t ((hop :: rest).takeWhile fun hop => hop.kind = .hopDel).length).bind fun deleted =>
        (emitHunk define target fuel (((hop :: rest).dropWhile fun hop => hop.kind = .hopDel).dropWhile
          fun hop => hop.kind = .hopAdd) (t + ((hop :: rest).takeWhile fun hop => hop.kind = .hopDel).length)).bind
            fun later => some (emitBlock define deleted ((((hop :: rest).dropWhile fun hop => hop.kind = .hopDel).takeWhile
              fun hop => hop.kind = .hopAdd).map Hop.p) ++ later) :=
  if_neg change

theorem emit_hunk_news (fuel : Nat) (hops : List Hop) (t : Nat) (enough : hops.length ≤ fuel)
    (fits : Fits hops (target.drop t)) : emitHunk none target fuel hops t = some (newLines hops) := by
  induction fuel generalizing hops t with
  | zero =>
    obtain rfl : hops = [] := eq_nil_of_length_eq_zero (by omega)
    rfl
  | succ fuel ih =>
    cases hops with
    | nil => rfl
    | cons hop rest =>
      have shorter : rest.length ≤ fuel := by simpa using enough
      by_cases context : hop.kind = .hopCtx
      · obtain ⟨kind, p⟩ := hop
        obtain rfl : kind = .hopCtx := context
        cases found : target.drop t with
        | nil => exact (found ▸ fits : Fits (⟨.hopCtx, p⟩ :: rest) []).elim
        | cons line left =>
          rw [found] at fits
          obtain ⟨rfl, later⟩ := fits
          have here : target[t]? = some line := by rw [← head?_drop, found]; rfl
          have next : target.drop (t + 1) = left := by rw [← drop_drop, found]; rfl
          rw [emit_hunk_ctx, here, ih rest (t + 1) shorter (next ▸ later)]
          rfl
      · -- A run of deleted lines and one of added lines; at least one of
        -- them is not empty, so the rest is shorter.
        obtain ⟨afterDels, newsDels⟩ := fits_skip_dels (hop :: rest) target t fits
        obtain ⟨afterAdds, newsAdds⟩ := fits_skip_adds _ _ afterDels
        have left : (((hop :: rest).dropWhile fun hop => hop.kind = .hopDel).dropWhile
            fun hop => hop.kind = .hopAdd).length ≤ fuel := by
          refine Nat.le_trans ?_ shorter
          by_cases deleted : hop.kind = .hopDel
          · rw [dropWhile_cons_of_pos (by simpa using deleted)]
            exact ((dropWhile_sublist _).trans (dropWhile_sublist _)).length_le
          · have added : hop.kind = .hopAdd := by cases kind : hop.kind <;> simp_all
            rw [dropWhile_cons_of_neg (by simpa using deleted), dropWhile_cons_of_pos (by simpa using added)]
            exact (dropWhile_sublist _).length_le
        rw [emit_hunk_block none target fuel hop rest t context, ih _ _ left afterAdds]
        simp only [deletedLines, Option.bind_some, emitBlock, ← newsAdds, newsDels]

theorem fits_stretch_ctx {i j : Nat} (order : i ≤ j)
    (fits : Fits hops (target.drop j)) : Fits ((slice target i j).map (Hop.mk .hopCtx) ++ hops) (target.drop i) := by
  rw [← slice_drop target order]
  generalize slice target i j = lines
  induction lines with
  | nil => exact fits
  | cons line lines ih => exact ⟨rfl, ih⟩

theorem fits_stretch_del (f : Pline → Pline) (texts : ∀ p, (f p).text = p.text)
    {i j : Nat} (order : i ≤ j) (fits : Fits hops (target.drop j)) :
    Fits ((slice target i j).map (fun p => Hop.mk .hopDel (f p)) ++ hops) (target.drop i) := by
  rw [← slice_drop target order]
  generalize slice target i j = lines
  induction lines with
  | nil => exact fits
  | cons line lines ih => exact ⟨(texts line).symm, ih⟩

theorem fits_added (added : List Pline) (fits : Fits hops target) :
    Fits (added.map (Hop.mk .hopAdd) ++ hops) target := by
  induction added with
  | nil => exact fits
  | cons line added ih => exact ih

theorem old_lines_append (first second : List Hop) : oldLines (first ++ second) = oldLines first ++ oldLines second := by
  simp [oldLines]

theorem new_lines_append (first second : List Hop) : newLines (first ++ second) = newLines first ++ newLines second := by
  simp [newLines]

variable (lines : List Pline)

@[simp] theorem old_lines_ctx : oldLines (lines.map (Hop.mk .hopCtx)) = lines := by
  simp [oldLines, filter_map, comp_def]

@[simp] theorem old_lines_del : oldLines (lines.map (Hop.mk .hopDel)) = lines := by
  simp [oldLines, filter_map, comp_def]

@[simp] theorem old_lines_add : oldLines (lines.map (Hop.mk .hopAdd)) = [] := by
  simp [oldLines, filter_map, comp_def]

@[simp] theorem new_lines_ctx : newLines (lines.map (Hop.mk .hopCtx)) = lines := by
  simp [newLines, filter_map, comp_def]

@[simp] theorem new_lines_del : newLines (lines.map (Hop.mk .hopDel)) = [] := by
  simp [newLines, filter_map, comp_def]

@[simp] theorem new_lines_add : newLines (lines.map (Hop.mk .hopAdd)) = lines := by
  simp [newLines, filter_map, comp_def]

structure Represents (target result : List Pline) (h : Hunk) (r : Region) : Prop where
  oldStart : h.oldStart = if r.a0 = r.a1 then r.a0 else r.a0 + 1
  oldCount : h.oldCount = r.a1 - r.a0
  newCount : h.newCount = r.b1 - r.b0
  fits : Fits h.hops (target.drop r.a0)
  olds : (oldLines h.hops).length = r.a1 - r.a0
  news : newLines h.hops = slice result r.b0 r.b1

-- The search for a region starts from its line in the new file and meets nothing equal sooner.
def InPlace (lines : List Bytes) : Nat → List Region → Prop
  | _, [] => True
  | src, r :: rest =>
    (∀ pos ≤ lines.length, src ≤ pos → Sooner (min (max r.b0 src) lines.length) pos r.a0 →
      ¬ slice lines r.a0 r.a1 <+: lines.drop pos) ∧ InPlace lines r.a1 rest

instance decidableInPlace (lines : List Bytes) : ∀ src regions, Decidable (InPlace lines src regions)
  | _, [] => isTrue trivial
  | _, r :: rest =>
    have := decidableInPlace lines r.a1 rest
    inferInstanceAs (Decidable (_ ∧ _))

variable {h : Hunk} {r : Region}
theorem represents_old_texts {target result : List Pline} (shown : Represents target result h r) :
    (oldLines h.hops).map Pline.text = slice (target.map Pline.text) r.a0 r.a1 := by
  have texts := fits_old_texts _ _ shown.fits
  rw [map_drop] at texts
  rw [slice, ← shown.olds, ← length_map (f := Pline.text)]
  exact prefix_iff_eq_take.mp texts

theorem find_match_own {target result : List Pline} (shown : Represents target result h r)
    {src : Nat} (after : src ≤ r.a0) (inside : r.a0 ≤ target.length)
    (alone : ∀ pos ≤ target.length, src ≤ pos → Sooner (min (max r.b0 src) target.length) pos r.a0 →
      ¬ slice (target.map Pline.text) r.a0 r.a1 <+: (target.map Pline.text).drop pos) :
    findMatch h true target r.b0 src false = some r.a0 := by
  have own : sideMatches h true target r.a0 false = true := by
    rw [side_matches_old h inside, ← map_drop]
    exact fits_old_texts h.hops _ shown.fits
  have others : ∀ pos, src ≤ pos → pos ≤ target.length → Sooner (min (max r.b0 src) target.length) pos r.a0 →
      sideMatches h true target pos false = false := by
    intro pos low high sooner
    rw [Bool.eq_false_iff, ne_eq, side_matches_old h high, represents_old_texts shown]
    exact alone pos high low sooner
  simp only [findMatch, clamp_nat]
  by_cases here : r.a0 = min (max r.b0 src) target.length
  · rw [← here, if_pos own]
  · rw [others _ (by omega) (by omega) (by unfold Sooner; omega), if_neg Bool.false_ne_true]
    exact find_around_own after inside (by omega) own others (target.length + 1) 1 (by omega) (by omega)

theorem apply_hunks_found {target : List Pline} {define : Option Bytes} {loose ignoreApplied : Bool}
    {rest : List Hunk} {src pos : Nat} {offset : Int}
    (found : placeHunk h target loose ignoreApplied src offset = .found pos) :
    applyHunks target define loose ignoreApplied (h :: rest) src offset =
      (emitHunk define target h.hops.length h.hops pos).bind fun emitted =>
        (applyHunks target define loose ignoreApplied rest (pos + h.oldCount) (offset + (h.newCount - h.oldCount))).bind
          fun later => some ⟨slice target src pos ++ emitted ++ later.outbuf, later.rejects⟩ := by
  change (match placeHunk h target loose ignoreApplied src offset with
    | .found pos => _ | .alreadyApplied stop => _ | .rejected => _) = _
  rw [found]
  rfl

theorem apply_hunks_splice {target result : List Pline} (hunks : List Hunk) (regions : List Region)
    (shown : List.Forall₂ (Represents target result) hunks regions) (x y : Nat)
    (aligned : Aligned target result target.length result.length x y regions)
    (placed : InPlace (target.map Pline.text) x regions) :
    applyHunks target none false false hunks x ((y : Int) - x) = some ⟨splice target result x regions, []⟩ := by
  induction shown generalizing x y with
  | nil => rfl
  | @cons h r hunks regions first rest ih =>
    obtain ⟨stretch, ⟨spanA, spanB⟩, later⟩ := aligned
    obtain ⟨alone, placed⟩ := placed
    have diagonal := stretch.diagonal
    have bound := (aligned_bounds regions _ _ later).1
    have expected : (if h.oldCount = 0 then (h.oldStart : Int) else h.oldStart - 1) + ((y : Int) - x) = r.b0 := by
      rw [first.oldStart, first.oldCount]
      split <;> split <;> omega
    have shift : (y : Int) - x + (h.newCount - h.oldCount) = (r.b1 : Int) - r.a1 := by
      rw [first.newCount, first.oldCount]
      omega
    have own := find_match_own first stretch.order (by omega) (by simpa only [length_map] using alone)
    have found : placeHunk h target false false x (y - x) = .found r.a0 := by
      simp only [placeHunk, expected, own]
    have emitted := emit_hunk_news target h.hops.length h.hops r.a0 (Nat.le_refl _) first.fits
    have next : r.a0 + h.oldCount = r.a1 := by rw [first.oldCount]; omega
    have tail := ih r.a1 r.b1 later placed
    rw [apply_hunks_found found, emitted, next, shift, tail, first.news, splice]
    simp only [Option.bind_some, append_assoc]

end Spicule.Patch
