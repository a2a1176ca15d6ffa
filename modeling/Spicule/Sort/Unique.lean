import Spicule.Sort.Order

namespace Spicule.Sort
open List Std

-- `none` is an index outside the array.
def repeatsKept (o : SortOpts) (lines : List Line) (keep : Nat) (line : Line) : Option Bool :=
  if o.u ∧ keep > 0 then (lines[keep - 1]?).map fun last => lineCompare o last line == .eq else some false

def compactLoop (o : SortOpts) : Nat → Nat → Nat → List Line → Option (Nat × List Line)
  | 0, _, keep, lines => some (keep, lines)
  | count + 1, writeI, keep, lines => do
      let line ← lines[writeI]?
      let duplicate ← repeatsKept o lines keep line
      if duplicate then compactLoop o count (writeI + 1) keep lines
      else if keep < lines.length then compactLoop o count (writeI + 1) (keep + 1) (lines.set keep line)
      else none

def compact (o : SortOpts) (lines : List Line) : Option (Nat × List Line) := compactLoop o lines.length 0 0 lines

def freeLines (lines : List Line) : List Nat := lines.map Line.block

def keyRuns (o : SortOpts) (lines : List Line) : List (List Line) := lines.splitBy fun a b => lineCompare o a b == .eq

def heads {α : Type} (runs : List (List α)) : List α := runs.filterMap List.head?

def keptAfter (o : SortOpts) (last : Line) : List Line → List Line
  | [] => []
  | line :: rest => if lineCompare o last line = .eq then keptAfter o last rest else line :: keptAfter o line rest

def kept (o : SortOpts) : List Line → List Line
  | [] => []
  | line :: rest => line :: keptAfter o line rest

section
variable {o : SortOpts}

theorem heads_loop (first : Line) (run : List Line) (last : Line) (rest : List Line) (done : List (List Line))
    (front : (last :: run).reverse.head? = some first) (same : lineCompare o first last = .eq) :
    heads (List.splitBy.loop (fun a b => lineCompare o a b == .eq) rest last run done) =
      heads done.reverse ++ first :: keptAfter o first rest := by
  have trans := trans_line_compare o
  induction rest generalizing first run last done with
  | nil =>
    simp only [List.splitBy.loop, reverse_cons, keptAfter] at front ⊢
    rw [heads, filterMap_append, filterMap_cons, front, filterMap_nil]
    rfl
  | cons line rest ih =>
    have next : lineCompare o first line = lineCompare o last line := TransCmp.congr_left same
    rw [List.splitBy.loop]
    cases equal : (lineCompare o last line == .eq) with
    | true =>
      have equal' : lineCompare o first line = .eq := next.trans (beq_iff_eq.mp equal)
      dsimp only
      rw [ih first (last :: run) line done (by rw [reverse_cons, head?_append, front]; rfl) equal', keptAfter,
        if_pos equal']
    | false =>
      have other : ¬ lineCompare o first line = .eq := by
        rw [next]
        exact fun same => Bool.false_ne_true (equal.symm.trans (beq_iff_eq.mpr same))
      dsimp only
      rw [ih line [] line _ rfl ReflCmp.compare_self, keptAfter, if_neg other, reverse_cons, heads, heads,
        filterMap_append, filterMap_cons, front, filterMap_nil, append_assoc]
      rfl

theorem heads_key_runs (lines : List Line) : heads (keyRuns o lines) = kept o lines := by
  have trans := trans_line_compare o
  cases lines with
  | nil => rfl
  | cons line rest => exact heads_loop line [] line rest [] rfl ReflCmp.compare_self

def shifted (base kept : List Line) : List Line := kept ++ base.drop kept.length

variable (base : List Line)
theorem shifted_get {kept : List Line} {writeI : Nat} (after : kept.length ≤ writeI) :
    (shifted base kept)[writeI]? = base[writeI]? := by
  rw [shifted, List.getElem?_append_right after, List.getElem?_drop, Nat.add_sub_cancel' after]

theorem shifted_last {kept : List Line} {last : Line} (ends : kept.getLast? = some last) :
    (shifted base kept)[kept.length - 1]? = some last := by
  have filled : kept ≠ [] := by
    rintro rfl
    exact nomatch ends
  have pos := length_pos_iff.mpr filled
  rw [shifted, List.getElem?_append_left (by omega), ← getLast?_eq_getElem?, ends]

theorem shifted_set {base kept : List Line} (line : Line) (room : kept.length < base.length) :
    (shifted base kept).set kept.length line = shifted base (kept ++ [line]) := by
  have split : base.drop kept.length = base[kept.length] :: base.drop (kept.length + 1) := drop_eq_getElem_cons room
  rw [shifted, shifted, split, set_append_right _ _ (Nat.le_refl _), Nat.sub_self, set_cons_zero, append_assoc,
    length_append, length_singleton, singleton_append]

theorem shifted_length (kept : List Line) (room : kept.length ≤ base.length) : (shifted base kept).length = base.length := by
  rw [shifted, length_append, length_drop]
  omega

theorem compact_loop_kept (unique : o.u = true) (base : List Line) (rest : List Line) (writeI : Nat) (kept : List Line)
    (last : Line) (here : base.drop writeI = rest) (ends : kept.getLast? = some last) (behind : kept.length ≤ writeI) :
    compactLoop o rest.length writeI kept.length (shifted base kept) =
      some ((kept ++ keptAfter o last rest).length, shifted base (kept ++ keptAfter o last rest)) := by
  induction rest generalizing writeI kept last with
  | nil => rw [keptAfter, append_nil, length_nil, compactLoop]
  | cons line rest ih =>
    have inside : writeI < base.length := by
      by_contra past
      rw [drop_of_length_le (Nat.le_of_not_lt past)] at here
      exact nomatch here
    have read : base[writeI]? = some line := by
      rw [← head?_drop, here, head?_cons]
    have next : base.drop (writeI + 1) = rest := by
      rw [← tail_drop, here, tail_cons]
    have pos : kept.length > 0 := by
      refine length_pos_iff.mpr ?_
      rintro rfl
      exact nomatch ends
    have room : kept.length < base.length := Nat.lt_of_le_of_lt behind inside
    have repeats : repeatsKept o (shifted base kept) kept.length line = some (lineCompare o last line == .eq) := by
      rw [repeatsKept, if_pos ⟨unique, pos⟩, shifted_last base ends, Option.map_some]
    rw [length_cons, compactLoop, shifted_get base behind, read]
    simp only [Option.bind_eq_bind, Option.bind_some, repeats, beq_iff_eq]
    by_cases equal : lineCompare o last line = .eq
    · rw [if_pos equal, keptAfter, if_pos equal]
      exact ih (writeI + 1) kept last next ends (Nat.le_succ_of_le behind)
    · rw [if_neg equal, keptAfter, if_neg equal, shifted_length base kept (Nat.le_of_lt room), if_pos room,
        shifted_set line room]
      have later := ih (writeI + 1) (kept ++ [line]) line next (by simp) (by simp; omega)
      rw [length_append, length_singleton, append_assoc, singleton_append] at later
      exact later

theorem compact_spec (unique : o.u = true) (lines : List Line) :
    compact o lines = some ((kept o lines).length, shifted lines (kept o lines)) := by
  cases lines with
  | nil => rfl
  | cons line rest =>
    have later := compact_loop_kept unique (line :: rest) rest 1 [line] line rfl rfl (Nat.le_refl 1)
    rw [compact, length_cons, compactLoop]
    simp only [List.getElem?_cons_zero, Option.bind_eq_bind, Option.bind_some, repeatsKept, gt_iff_lt, Nat.lt_irrefl, and_false,
      if_false, Bool.false_eq_true, length_cons, Nat.zero_lt_succ, if_true, set_cons_zero, Nat.zero_add]
    exact later

end

section
variable {α : Type}
theorem heads_subset (runs : List (List α)) : ∀ x ∈ heads runs, x ∈ runs.flatten := by
  intro x mem
  obtain ⟨run, inside, first⟩ := mem_filterMap.mp mem
  exact mem_flatten_of_mem inside (mem_of_head? first)

theorem heads_perm {runs : List (List α)} (filled : ∀ run ∈ runs, run ≠ []) (nodup : runs.flatten.Nodup) :
    (heads runs ++ runs.flatten.drop (heads runs).length).Perm runs.flatten ↔ ∀ run ∈ runs.dropLast, run.length = 1 := by
  induction runs with
  | nil => exact ⟨nofun, fun _ => List.Perm.refl _⟩
  | cons run rest ih =>
    obtain ⟨x, tail, rfl⟩ := exists_cons_of_ne_nil (filled run mem_cons_self)
    have later := ih (forall_mem_cons.mp filled).2
    have step : heads ((x :: tail) :: rest) = x :: heads rest := rfl
    rw [step, flatten_cons, length_cons, cons_append, cons_append, drop_succ_cons, perm_cons]
    rw [flatten_cons, cons_append, nodup_cons] at nodup
    cases rest with
    | nil =>
      refine ⟨fun _ => nofun, fun _ => ?_⟩
      rw [heads, filterMap_nil, flatten_nil, append_nil, length_nil, drop_zero, nil_append]
    | cons other rest =>
      have two : ((x :: tail) :: other :: rest).dropLast = (x :: tail) :: (other :: rest).dropLast := rfl
      cases tail with
      | nil =>
        rw [nil_append] at nodup ⊢
        rw [two, forall_mem_cons]
        exact ⟨fun same => ⟨rfl, (later nodup.2).mp same⟩, fun all => (later nodup.2).mpr all.2⟩
      | cons y tail =>
        refine ⟨fun same => ?_, fun all => ?_⟩
        · obtain ⟨z, more, split⟩ := exists_cons_of_ne_nil (filled other (by simp))
          have count : (heads (other :: rest)).length = (heads rest).length + 1 := by rw [split]; rfl
          rw [count, cons_append, drop_succ_cons] at same
          obtain ⟨absent, -⟩ := nodup_cons.mp nodup.2
          rcases mem_append.mp (same.mem_iff.mpr mem_cons_self) with head | behind
          · exact absurd (mem_append_right tail (heads_subset _ y head)) absent
          · exact absurd (mem_of_mem_drop behind) absent
        · have one := all (x :: y :: tail) (by rw [two]; exact mem_cons_self)
          simp at one

end

def OnlyLastRepeats (o : SortOpts) (lines : List Line) : Prop := ∀ run ∈ (keyRuns o lines).dropLast, run.length = 1

instance (o : SortOpts) (lines : List Line) : Decidable (OnlyLastRepeats o lines) :=
  inferInstanceAs (Decidable (∀ run ∈ (keyRuns o lines).dropLast, run.length = 1))

theorem freed_perm (o : SortOpts) {lines : List Line} (owned : (lines.map Line.block).Nodup) :
    (freeLines (shifted lines (kept o lines))).Perm (lines.map Line.block) ↔ OnlyLastRepeats o lines := by
  have whole : (keyRuns o lines).flatten = lines := flatten_splitBy _ lines
  have filled : ∀ run ∈ (keyRuns o lines).map (List.map Line.block), run ≠ [] := by
    intro run mem
    obtain ⟨run', inside, rfl⟩ := mem_map.mp mem
    exact fun empty => ne_nil_of_mem_splitBy inside (map_eq_nil_iff.mp empty)
  have flat : ((keyRuns o lines).map (List.map Line.block)).flatten = lines.map Line.block := by
    rw [← map_flatten, whole]
  have front : heads ((keyRuns o lines).map (List.map Line.block)) = (kept o lines).map Line.block := by
    rw [← heads_key_runs, heads, heads, filterMap_map, map_filterMap]
    congr 1
    funext run
    exact head?_map
  have blocks := heads_perm filled (flat ▸ owned)
  rw [flat, front, length_map, ← map_drop, ← map_append] at blocks
  refine blocks.trans ?_
  rw [← map_dropLast, forall_mem_map, OnlyLastRepeats]
  simp only [length_map]

theorem sort_unique_ownership (o : SortOpts) (unique : o.u = true) (lines : List Line)
    (owned : (lines.map Line.block).Nodup) :
    ∃ keep array, compact o lines = some (keep, array) ∧ array.take keep = heads (keyRuns o lines) ∧
      (((freeLines array).Perm (lines.map Line.block) ∧ ∀ line ∈ lines, (freeLines array).count line.block = 1) ↔
        OnlyLastRepeats o lines) := by
  refine ⟨_, _, compact_spec unique lines, ?_, ?_⟩
  · rw [shifted, take_left, heads_key_runs]
  · rw [← freed_perm o owned]
    refine ⟨fun both => both.1, fun same => ⟨same, fun line mem => ?_⟩⟩
    rw [same.count_eq]
    exact count_eq_one_of_mem owned (mem_map_of_mem mem)

def uniqueOpts : SortOpts := ⟨false, false, false, false, false, false, true, none, []⟩

def plainLine (block : Nat) (text : String) : Line := makeLine block (Diff.ascii text) uniqueOpts

theorem sort_unique_last_run :
    ∃ keep array, compact uniqueOpts [plainLine 1 "a", plainLine 2 "b", plainLine 3 "b"] = some (keep, array) ∧
      (freeLines array).Perm [1, 2, 3] := by
  obtain ⟨keep, array, run, -, same⟩ := sort_unique_ownership uniqueOpts rfl
    [plainLine 1 "a", plainLine 2 "b", plainLine 3 "b"] (by decide)
  exact ⟨keep, array, run, (same.mpr (by decide +kernel)).1⟩

-- The third record replaces the repeated second one and stays in its place as well: its
-- text is freed twice, that of the second never.
theorem sort_unique_double_free :
    ([plainLine 1 "a", plainLine 2 "a", plainLine 3 "b"].Pairwise fun a b => lineLe uniqueOpts a b = true) ∧
    (compact uniqueOpts [plainLine 1 "a", plainLine 2 "a", plainLine 3 "b"]).map (fun result => freeLines result.2) =
      some [1, 3, 3] := by
  decide +kernel

end Spicule.Sort
