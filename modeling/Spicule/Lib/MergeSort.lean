import Mathlib

namespace Spicule.MergeSort
open List Bool Nat

section
variable {α : Type} (le : α → α → Bool)
def merge : List α → List α → List α
  | [], ys => ys
  | x :: xs, ys => inner x xs (merge xs) ys
where
  inner (x : α) (xs : List α) (rest : List α → List α) : List α → List α
    | [] => x :: xs
    | y :: ys => if le x y then x :: rest (y :: ys) else y :: inner x xs rest ys

def mergePass (width : Nat) : Nat → List α → List α
  | 0, xs => xs
  | _ + 1, [] => []
  | fuel + 1, x :: xs =>
    merge le ((x :: xs).take width) (((x :: xs).drop width).take width) ++
      mergePass width fuel (((x :: xs).drop width).drop width)

def mergeWidths : Nat → Nat → List α → List α
  | 0, _, xs => xs
  | fuel + 1, width, xs =>
    if width < xs.length then
      if xs.length / 2 < width then mergePass le width xs.length xs
      else mergeWidths fuel (width * 2) (mergePass le width xs.length xs)
    else xs

def bottomUp (xs : List α) : List α := mergeWidths le xs.length 1 xs

theorem merge_cons_cons (x y : α) (xs ys : List α) :
    merge le (x :: xs) (y :: ys) = if le x y then x :: merge le xs (y :: ys) else y :: merge le (x :: xs) ys := rfl

variable (xs ys : List α)
theorem merge_eq : merge le xs ys = xs.merge ys le := by
  induction xs generalizing ys with
  | nil => rw [merge, nil_merge]
  | cons x xs ih =>
    induction ys with
    | nil => rw [merge_right]; rfl
    | cons y ys ihy => rw [merge_cons_cons, cons_merge_cons, ih, ihy]

theorem merge_perm : (merge le xs ys).Perm (xs ++ ys) := by
  rw [merge_eq]
  exact merge_perm_append le

theorem merge_length : (merge le xs ys).length = xs.length + ys.length := by
  rw [(merge_perm le xs ys).length_eq, length_append]

def alike (r x : α) : Bool := le r x && le x r

def Runs (width : Nat) (xs : List α) : Prop := ∀ k, ((xs.drop (k * width)).take width).Pairwise fun a b => le a b = true

variable {le} {width : Nat}
theorem runs_drop {xs : List α} (runs : Runs le width xs) : Runs le width (xs.drop width) := by
  intro k
  rw [drop_drop, add_comm, ← succ_mul]
  exact runs (k + 1)

theorem runs_take {xs : List α} (runs : Runs le width xs) : (xs.take width).Pairwise fun a b => le a b = true := by
  have first := runs 0
  rwa [zero_mul, drop_zero] at first

theorem runs_one (xs : List α) : Runs le 1 xs := by
  intro k
  cases xs.drop (k * 1) with
  | nil => exact List.Pairwise.nil
  | cons x rest => exact pairwise_singleton _ x

theorem runs_sorted {xs : List α} (runs : Runs le width xs) (whole : xs.length ≤ width) :
    xs.Pairwise fun a b => le a b = true := by
  have first := runs_take runs
  rwa [take_of_length_le whole] at first

theorem merge_pass_perm (width fuel : Nat) (xs : List α) : (mergePass le width fuel xs).Perm xs := by
  induction fuel generalizing xs with
  | zero => exact List.Perm.refl xs
  | succ fuel ih =>
    cases xs with
    | nil => exact List.Perm.refl []
    | cons x xs =>
      have front := merge_perm le ((x :: xs).take width) (((x :: xs).drop width).take width)
      refine (front.append (ih _)).trans ?_
      rw [append_assoc, take_append_drop, take_append_drop]

theorem merge_widths_perm (fuel width : Nat) (xs : List α) : (mergeWidths le fuel width xs).Perm xs := by
  induction fuel generalizing width xs with
  | zero => exact List.Perm.refl xs
  | succ fuel ih =>
    unfold mergeWidths
    split
    · split
      · exact merge_pass_perm width xs.length xs
      · exact (ih _ _).trans (merge_pass_perm width xs.length xs)
    · exact List.Perm.refl xs

theorem bottom_up_perm (xs : List α) : (bottomUp le xs).Perm xs := merge_widths_perm xs.length 1 xs

variable (le) in
theorem merge_pass_cut (width fuel : Nat) (x : α) (xs : List α) :
    ∃ front rest, mergePass le width (fuel + 1) (x :: xs) = front ++ mergePass le width fuel rest ∧
      front = merge le ((x :: xs).take width) (((x :: xs).drop width).take width) ∧
      rest = ((x :: xs).drop width).drop width ∧
      (front.length = width * 2 ∨ rest = [] ∧ front.length ≤ width * 2) := by
  refine ⟨_, _, rfl, rfl, rfl, ?_⟩
  rw [merge_length, length_take, length_take, length_drop, drop_drop, drop_eq_nil_iff]
  omega

section
variable (trans : ∀ a b c, le a b = true → le b c = true → le a c = true) (total : ∀ a b, (le a b || le b a) = true)

include trans

variable (r : α)
theorem merge_alike (xs ys : List α) (sorted : xs.Pairwise fun a b => le a b = true) (reflexive : ∀ a, le a a = true) :
    (merge le xs ys).filter (alike le r) = xs.filter (alike le r) ++ ys.filter (alike le r) := by
  induction xs generalizing ys with
  | nil => rfl
  | cons x xs ih =>
    have later := fun ys => ih ys (List.Pairwise.of_cons sorted)
    induction ys with
    | nil => rw [filter_nil, append_nil]; rfl
    | cons y ys ihy =>
      rw [merge_cons_cons]
      cases first : le x y with
      | true =>
        rw [if_pos rfl]
        cases like : alike le r x with
        | true => simp only [filter_cons, like, if_true, later, cons_append]
        | false => simp only [filter_cons, like, false_eq_true, if_false, later]
      | false =>
        rw [if_neg Bool.false_ne_true, filter_cons, ihy]
        cases same : alike le r y with
        | false => simp [same]
        | true =>
          have none : (x :: xs).filter (alike le r) = [] := by
            refine filter_eq_nil_iff.mpr fun z mem likeZ => ?_
            have after : le x z = true := by
              rcases mem_cons.mp mem with rfl | inside
              · exact reflexive z
              · exact rel_of_pairwise_cons sorted inside
            have toY : le r y = true := (and_eq_true_iff.mp same).1
            have toR : le z r = true := (and_eq_true_iff.mp likeZ).2
            have before := trans x r y (trans x z r after toR) toY
            exact false_ne_true (first.symm.trans before)
          rw [none, nil_append, nil_append, filter_cons, if_pos same, if_pos rfl]

include total

theorem merge_pass_runs (width fuel : Nat) (xs : List α) (wide : 0 < width) (enough : xs.length ≤ fuel)
    (runs : Runs le width xs) : Runs le (width * 2) (mergePass le width fuel xs) := by
  induction fuel generalizing xs with
  | zero =>
    rw [length_eq_zero_iff.mp (le_zero.mp enough)]
    intro k
    rw [mergePass, drop_nil, take_nil]
    exact List.Pairwise.nil
  | succ fuel ih =>
    cases xs with
    | nil =>
      intro k
      rw [mergePass, drop_nil, take_nil]
      exact List.Pairwise.nil
    | cons x xs =>
      obtain ⟨front, rest, cut, merged, left, size⟩ := merge_pass_cut le width fuel x xs
      have sorted : front.Pairwise fun a b => le a b = true := by
        rw [merged, merge_eq]
        exact pairwise_merge trans total _ _ (runs_take runs) (runs_take (runs_drop runs))
      have later : Runs le (width * 2) (mergePass le width fuel rest) := by
        refine ih rest ?_ (left ▸ runs_drop (runs_drop runs))
        rw [left, length_drop, length_drop, length_cons]
        rw [length_cons] at enough
        omega
      rw [cut]
      intro k
      rcases size with full | ⟨none, short⟩
      · cases k with
        | zero =>
          rw [zero_mul, drop_zero, ← full, take_left]
          exact sorted
        | succ k =>
          rw [succ_mul, add_comm, ← drop_drop, ← full, drop_left, full]
          exact later k
      · have last : mergePass le width fuel rest = [] := by
          rw [none]
          cases fuel with
          | zero | succ => rfl
        rw [last, append_nil]
        exact (sorted.sublist (drop_sublist _ _)).sublist (take_sublist _ _)

theorem merge_pass_alike (width fuel : Nat) (xs : List α) (runs : Runs le width xs) :
    (mergePass le width fuel xs).filter (alike le r) = xs.filter (alike le r) := by
  have reflexive : ∀ a, le a a = true := fun a => (Bool.or_self _).symm.trans (total a a)
  induction fuel generalizing xs with
  | zero => rfl
  | succ fuel ih =>
    cases xs with
    | nil => rfl
    | cons x xs =>
      rw [mergePass, filter_append, merge_alike trans r _ _ (runs_take runs) reflexive,
        ih _ (runs_drop (runs_drop runs)), append_assoc, ← filter_append, ← filter_append,
        take_append_drop, take_append_drop]

theorem merge_widths_spec (fuel width : Nat) (xs : List α) (wide : 0 < width) (enough : xs.length ≤ fuel + width)
    (runs : Runs le width xs) :
    (mergeWidths le fuel width xs).Pairwise (fun a b => le a b = true) ∧
      ∀ r, (mergeWidths le fuel width xs).filter (alike le r) = xs.filter (alike le r) := by
  induction fuel generalizing width xs with
  | zero =>
    have whole : xs.length ≤ width := by omega
    exact ⟨runs_sorted runs whole, fun _ => rfl⟩
  | succ fuel ih =>
    have wider := merge_pass_runs trans total width xs.length xs wide (le_refl _) runs
    have kept := fun r => merge_pass_alike trans total r width xs.length xs runs
    have length : (mergePass le width xs.length xs).length = xs.length := (merge_pass_perm width xs.length xs).length_eq
    unfold mergeWidths
    split
    · split
      · exact ⟨runs_sorted wider (by omega), kept⟩
      · obtain ⟨sorted, same⟩ := ih (width * 2) _ (by omega) (by omega) wider
        exact ⟨sorted, fun r => (same r).trans (kept r)⟩
    · exact ⟨runs_sorted runs (by omega), fun _ => rfl⟩

theorem bottom_up_sorted (xs : List α) : (bottomUp le xs).Pairwise fun a b => le a b = true :=
  (merge_widths_spec trans total xs.length 1 xs one_pos (by omega) (runs_one xs)).1

theorem bottom_up_stable (xs : List α) : (bottomUp le xs).filter (alike le r) = xs.filter (alike le r) :=
  (merge_widths_spec trans total xs.length 1 xs one_pos (by omega) (runs_one xs)).2 r

omit trans total in
theorem merge_pass_sorted (width fuel : Nat) (xs : List α) (sorted : xs.Pairwise fun a b => le a b = true) :
    mergePass le width fuel xs = xs := by
  induction fuel generalizing xs with
  | zero => rfl
  | succ fuel ih =>
    cases xs with
    | nil => rfl
    | cons x xs =>
      have halves := sorted
      rw [← take_append_drop width (x :: xs), pairwise_append] at halves
      rw [mergePass, merge_eq, merge_of_le fun a b left right => halves.2.2 a left b (mem_of_mem_take right),
        ih _ (halves.2.1.drop), append_assoc, take_append_drop, take_append_drop]

omit trans total in
theorem bottom_up_fixed (xs : List α) (sorted : xs.Pairwise fun a b => le a b = true) : bottomUp le xs = xs := by
  have fixed : ∀ fuel width, mergeWidths le fuel width xs = xs := by
    intro fuel
    induction fuel with
    | zero => exact fun _ => rfl
    | succ fuel ih =>
      intro width
      rw [mergeWidths, merge_pass_sorted width _ xs sorted, ih]
      split_ifs <;> rfl
  exact fixed _ 1

end
end
end Spicule.MergeSort
