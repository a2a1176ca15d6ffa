import Spicule.Lib.EditGraph
import Spicule.Diff.Lines

namespace Spicule.Diff
open Nat
open Option

inductive OpType where
  | opMatch
  | opDel
  | opIns
deriving DecidableEq, Repr

structure EditOp where
  type : OpType
  ai : Nat
  bi : Nat
deriving DecidableEq, Repr

-- A heap array of longs, `none` a cell never written. Every access is checked.
abbrev Cells := List (Option Int)

def readCell (v : Cells) (index : Int) : Option Int :=
  if 0 ≤ index then (v[index.toNat]?).join else none

def writeCell (v : Cells) (index value : Int) : Option Cells :=
  if 0 ≤ index ∧ index.toNat < v.length then some (v.set index.toNat (some value)) else none

def fromAbove (v : Cells) (off d k : Int) : Option Bool :=
  if k = -d then some true
  else if k = d then some false
  else do
    let left ← readCell v (k - 1 + off)
    let right ← readCell v (k + 1 + off)
    some (decide (left < right))

def previousDiagonal (above : Bool) (k : Int) : Int := if above then k + 1 else k - 1

def enterAt (v : Cells) (off k : Int) (above : Bool) : Option Int :=
  (readCell v (previousDiagonal above k + off)).map fun x => if above then x else x + 1

section
variable (cmp : Int → Int → Option Bool)
def snake (n m : Int) : Nat → Int → Int → Option (Int × Int)
  | 0, _, _ => none
  | fuel + 1, xk, yk =>
    if xk < n ∧ yk < m then do
      let equal ← cmp xk yk
      if equal then snake n m fuel (xk + 1) (yk + 1) else some (xk, yk)
    else some (xk, yk)

def forwardDiagonal (n m off d k : Int) (v : Cells) : Option (Cells × Bool) := do
  let above ← fromAbove v off d k
  let start ← enterAt v off k above
  let (xk, yk) ← snake cmp n m ((n - start).toNat + 1) start (start - k)
  let v ← writeCell v (k + off) xk
  some (v, decide (xk ≥ n ∧ yk ≥ m))

def forwardRow (n m off d : Int) : Nat → Int → Cells → Int → Option (Cells × Int)
  | 0, _, _, _ => none
  | fuel + 1, k, v, foundD =>
    if k ≤ d then do
      let (v, hit) ← forwardDiagonal cmp n m off d k v
      forwardRow n m off d fuel (k + 2) v (if hit then d else foundD)
    else some (v, foundD)

def forwardRounds (n m max : Int) : Nat → Int → Cells → List Cells → Int → Option (List Cells × Int)
  | 0, _, _, _, _ => none
  | fuel + 1, d, v, traces, foundD =>
    if d ≤ max then do
      let (v, foundD) ← forwardRow cmp n m max d (d.toNat + 2) (-d) v foundD
      let traces := traces ++ [v]
      if foundD ≥ 0 then some (traces, foundD) else forwardRounds n m max fuel (d + 1) v traces foundD
    else some (traces, foundD)

end

variable {v next : Cells}
theorem read_cell_write {index value : Int} (written : writeCell v index value = some next) :
    readCell next index = some value ∧
      (∀ other, other ≠ index → readCell next other = readCell v other) ∧ next.length = v.length := by
  unfold writeCell at written
  split at written
  · rename_i bound
    obtain rfl := some.inj written
    refine ⟨by simp [readCell, bound], ?_, by simp⟩
    intro other different
    unfold readCell
    split
    · rename_i nonneg
      have apart : index.toNat ≠ other.toNat := by omega
      rw [List.getElem?_set_ne apart]
    · rfl
  · cases written

theorem write_cell_in_range (v : Cells) (index value : Int) (low : 0 ≤ index) (high : index < v.length) :
    ∃ next, writeCell v index value = some next :=
  ⟨_, if_pos ⟨low, by omega⟩⟩

section
variable {n m : Nat} {same : Nat → Nat → Bool} {cmp : Int → Int → Option Bool}

open EditGraph

theorem snake_slides (spec : ∀ x y : Nat, x < n → y < m → cmp x y = some (same x y)) (fuel x y : Nat)
    (enough : n - x < fuel) :
    ∃ count, snake cmp n m fuel x y = some (((x + count : Nat) : Int), ((y + count : Nat) : Int)) ∧
      Slide n m same x y count ∧
      ¬ (x + count < n ∧ y + count < m ∧ same (x + count) (y + count) = true) := by
  induction fuel generalizing x y with
  | zero => omega
  | succ fuel ih =>
    by_cases inside : x < n ∧ y < m
    · have insideInt : (x : Int) < n ∧ (y : Int) < m := by omega
      cases equal : same x y with
      | true =>
        obtain ⟨count, result, slide, stopped⟩ := ih (x + 1) (y + 1) (by omega)
        refine ⟨count + 1, ?_, ?_, ?_⟩
        · rw [snake, if_pos insideInt, spec x y inside.1 inside.2, equal]
          simpa [add_assoc, add_comm 1 count] using result
        · intro i bound
          cases i with
          | zero => exact ⟨inside.1, inside.2, equal⟩
          | succ i =>
            have here := slide i (by omega)
            rwa [show x + (i + 1) = x + 1 + i by omega, show y + (i + 1) = y + 1 + i by omega]
        · rwa [show x + (count + 1) = x + 1 + count by omega, show y + (count + 1) = y + 1 + count by omega]
      | false =>
        refine ⟨0, ?_, fun i bound => absurd bound (not_lt_zero i), by simp [equal]⟩
        rw [snake, if_pos insideInt, spec x y inside.1 inside.2, equal]
        rfl
    · refine ⟨0, ?_, fun i bound => absurd bound (not_lt_zero i), fun here => inside ⟨here.1, here.2.1⟩⟩
      rw [snake, if_neg (by omega)]
      rfl

def Level (n m : Nat) (same : Nat → Nat → Bool) (off : Int) (d : Nat) (v : Cells) : Prop :=
  ∀ k : Int, -(d : Int) ≤ k → k ≤ d → (k - d) % 2 = 0 →
    ∃ x : Nat, readCell v (k + off) = some (x : Int) ∧ Furthest n m same d k x

def Ready (n m : Nat) (same : Nat → Nat → Bool) (off : Int) (d : Nat) (v : Cells) : Prop :=
  match d with
  | 0 => readCell v (1 + off) = some 0
  | d + 1 => Level n m same off d v

variable {d : Nat} {k off : Int}
theorem furthest_start (ready : Level n m same off d v)
    (low : -(d + 1 : Int) ≤ k) (high : k ≤ d + 1) (parity : (k - (d + 1)) % 2 = 0) :
    ∃ (above : Bool) (origin x y : Nat), fromAbove v off (d + 1) k = some above ∧
      readCell v (previousDiagonal above k + off) = some (origin : Int) ∧
      Furthest n m same d (previousDiagonal above k) origin ∧
      x = (if above then origin else origin + 1) ∧ (x : Int) - y = k ∧ Path n m same (d + 1) x y ∧
      (∀ other, Reaches n m same d (k - 1) other → other + 1 ≤ x) ∧
      (∀ other, Reaches n m same d (k + 1) other → other ≤ x) := by
  have tooLow (j : Int) (below : j < -(d : Int)) (other : Nat) : ¬ Reaches n m same d j other := by
    rintro ⟨y, diagonal, path⟩
    have bound := (path_diagonal_bound path).1
    omega
  have tooHigh (j : Int) (above : (d : Int) < j) (other : Nat) : ¬ Reaches n m same d j other := by
    rintro ⟨y, diagonal, path⟩
    have bound := (path_diagonal_bound path).2
    omega
  by_cases lowest : k = -(d + 1 : Int)
  · obtain ⟨x, read, most⟩ := ready (k + 1) (by omega) (by omega) (by omega)
    obtain ⟨y, diagonal, path⟩ := most.1
    refine ⟨true, x, x, y + 1, by rw [fromAbove, if_pos lowest], read, most, rfl, by push_cast; omega,
      .down d x y path, ?_, most.2⟩
    intro other reached
    exact absurd reached (tooLow (k - 1) (by omega) other)
  · by_cases highest : k = d + 1
    · obtain ⟨x, read, most⟩ := ready (k - 1) (by omega) (by omega) (by omega)
      obtain ⟨y, diagonal, path⟩ := most.1
      refine ⟨false, x, x + 1, y, by rw [fromAbove, if_neg lowest, if_pos highest], read, most, rfl,
        by push_cast; omega, .right d x y path, fun other reached => succ_le_succ (most.2 other reached), ?_⟩
      intro other reached
      exact absurd reached (tooHigh (k + 1) (by omega) other)
    · obtain ⟨xl, readL, mostL⟩ := ready (k - 1) (by omega) (by omega) (by omega)
      obtain ⟨xr, readR, mostR⟩ := ready (k + 1) (by omega) (by omega) (by omega)
      have chosen : fromAbove v off (d + 1) k = some (decide ((xl : Int) < xr)) := by
        rw [fromAbove, if_neg lowest, if_neg highest, readL, readR]
        rfl
      by_cases further : xl < xr
      · obtain ⟨y, diagonal, path⟩ := mostR.1
        refine ⟨true, xr, xr, y + 1, by simp [chosen, further], readR, mostR, rfl, by push_cast; omega,
          .down d xr y path, ?_, mostR.2⟩
        intro other reached
        exact le_trans (succ_le_succ (mostL.2 other reached)) further
      · obtain ⟨y, diagonal, path⟩ := mostL.1
        refine ⟨false, xl, xl + 1, y, by simp [chosen, further], readL, mostL, rfl, by push_cast; omega,
          .right d xl y path, fun other reached => succ_le_succ (mostL.2 other reached), ?_⟩
        intro other reached
        have bound := mostR.2 other reached
        omega

theorem forward_diagonal_furthest (spec : ∀ x y : Nat, x < n → y < m → cmp x y = some (same x y))
    (ready : Ready n m same off d v)
    (low : -(d : Int) ≤ k) (high : k ≤ d) (parity : (k - d) % 2 = 0)
    (cellLow : 0 ≤ k + off) (cellHigh : k + off < v.length) :
    ∃ (next : Cells) (x : Nat), forwardDiagonal cmp n m off d k v = some (next, decide ((x : Int) ≥ n ∧ (x : Int) - k ≥ m)) ∧
      writeCell v (k + off) (x : Int) = some next ∧ Furthest n m same d k x := by
  cases d with
  | zero =>
    have center : k = 0 := by omega
    subst center
    obtain ⟨count, result, slide, stopped⟩ := snake_slides spec (n + 1) 0 0 (by omega)
    obtain ⟨next, written⟩ := write_cell_in_range v (0 + off) (count : Int) cellLow cellHigh
    refine ⟨next, count, ?_, written, furthest_zero slide (by simpa using stopped)⟩
    have seed : readCell v (1 + off) = some 0 := ready
    have result' : snake cmp n m (((n : Int) - 0).toNat + 1) 0 (0 - 0) = some ((count : Int), (count : Int)) := by
      simpa using result
    simp only [forwardDiagonal, fromAbove, enterAt, previousDiagonal, cast_zero, neg_zero, if_true, zero_add,
      map_some, bind_eq_bind,
      bind_some, seed, result'] at written ⊢
    rw [written]
    simp
  | succ d =>
    obtain ⟨above, origin, x, y, chosen, read, -, enters, diagonal, path, fromLeft, fromRight⟩ :=
      furthest_start (k := k) ready (by push_cast at low; omega) (by push_cast at high; omega)
        (by push_cast at parity; omega)
    have start : enterAt v off k above = some (x : Int) := by
      rw [enterAt, read, enters]
      cases above <;> simp
    obtain ⟨count, result, slide, stopped⟩ := snake_slides spec (n - x + 1) x y (by omega)
    obtain ⟨next, written⟩ := write_cell_in_range v (k + off) ((x + count : Nat) : Int) cellLow cellHigh
    refine ⟨next, x + count, ?_, written, furthest_next diagonal path fromLeft fromRight slide stopped⟩
    have fuelEq : ((n : Int) - x).toNat + 1 = n - x + 1 := by omega
    have startEq : (x : Int) - k = y := by omega
    have endEq : ((x + count : Nat) : Int) - k = ((y + count : Nat) : Int) := by push_cast; omega
    have round : ((d + 1 : Nat) : Int) = (d : Int) + 1 := by push_cast; rfl
    simp only [forwardDiagonal, round, chosen, start, fuelEq, startEq, result, endEq, written,
      bind_eq_bind, bind_some]

structure RowState (n m : Nat) (same : Nat → Nat → Bool) (max d : Nat) (k : Int) (v : Cells) : Prop where
  size : v.length = 2 * max + 1
  ready : Ready n m same max d v
  done : ∀ j : Int, -(d : Int) ≤ j → j < k → (j - d) % 2 = 0 →
    ∃ x : Nat, readCell v (j + max) = some (x : Int) ∧ Furthest n m same d j x

theorem ready_write {max x : Int} (ready : Ready n m same max d v)
    (parity : (k - d) % 2 = 0) (written : writeCell v (k + max) x = some next) : Ready n m same max d next := by
  obtain ⟨-, others, -⟩ := read_cell_write written
  cases d with
  | zero =>
    change readCell next (1 + max) = some 0
    rw [others (1 + max) (by omega)]
    exact ready
  | succ d =>
    intro j low high otherParity
    obtain ⟨y, read, most⟩ := ready j low high otherParity
    exact ⟨y, by rw [others (j + max) (by push_cast at parity; omega), read], most⟩

variable {max : Nat}
theorem row_state_write {x : Nat} (state : RowState n m same max d k v)
    (parity : (k - d) % 2 = 0) (written : writeCell v (k + max) (x : Int) = some next)
    (most : Furthest n m same d k x) : RowState n m same max d (k + 2) next := by
  obtain ⟨here, others, size⟩ := read_cell_write written
  refine ⟨size.trans state.size, ready_write state.ready parity written, ?_⟩
  intro j low high otherParity
  by_cases atK : j = k
  · subst atK
    exact ⟨x, here, most⟩
  · obtain ⟨y, read, mostY⟩ := state.done j low (by omega) otherParity
    exact ⟨y, by rw [others (j + max) (by omega), read], mostY⟩

def Hits (n m : Nat) (same : Nat → Nat → Bool) (d : Nat) (k : Int) : Prop :=
  ∃ x : Nat, Furthest n m same d k x ∧ (x : Int) ≥ n ∧ (x : Int) - k ≥ m

theorem forward_row_levels (spec : ∀ x y : Nat, x < n → y < m → cmp x y = some (same x y))
    (max d fuel : Nat) (k foundD : Int) (v : Cells) (within : d ≤ max) (state : RowState n m same max d k v)
    (low : -(d : Int) ≤ k) (parity : (k - d) % 2 = 0) (high : k ≤ d + 2)
    (enough : (d : Int) - k + 4 ≤ fuel * 2) :
    ∃ next found, forwardRow cmp n m max d fuel k v foundD = some (next, found) ∧
      next.length = 2 * max + 1 ∧ Level n m same max d next ∧
      ((found = foundD ∧ ∀ j, k ≤ j → j ≤ d → (j - d) % 2 = 0 → ¬ Hits n m same d j) ∨
        (found = d ∧ ∃ j, Hits n m same d j)) := by
  induction fuel generalizing k foundD v with
  | zero => omega
  | succ fuel ih =>
    by_cases more : k ≤ d
    · have size := state.size
      obtain ⟨next, x, result, written, most⟩ := forward_diagonal_furthest spec state.ready low more parity
        (by omega) (by omega)
      have advanced := row_state_write state parity written most
      obtain ⟨last, found, rest, length, level, outcome⟩ :=
        ih (k + 2) (if decide ((x : Int) ≥ n ∧ (x : Int) - k ≥ m) then (d : Int) else foundD) next
          advanced (by omega) (by omega) (by omega) (by push_cast at enough; omega)
      refine ⟨last, found, ?_, length, level, ?_⟩
      · rw [forwardRow, if_pos more, result]
        exact rest
      · by_cases corner : (x : Int) ≥ n ∧ (x : Int) - k ≥ m
        · have hit : Hits n m same d k := ⟨x, most, corner⟩
          rcases outcome with ⟨same', -⟩ | again
          · exact .inr ⟨by simpa only [decide_eq_true_eq, if_pos corner] using same', k, hit⟩
          · exact .inr again
        · rcases outcome with ⟨same', none⟩ | again
          · refine .inl ⟨by simpa only [decide_eq_true_eq, if_neg corner] using same', ?_⟩
            intro j lowJ highJ parityJ hit
            by_cases atK : j = k
            · subst atK
              obtain ⟨y, mostY, cornerY⟩ := hit
              rw [reaches_unique_furthest mostY most] at cornerY
              exact corner cornerY
            · exact none j (by omega) highJ parityJ hit
          · exact .inr again
    · refine ⟨v, foundD, by rw [forwardRow, if_neg more], state.size, ?_, .inl ⟨rfl, fun j lowJ highJ => by omega⟩⟩
      intro j lowJ highJ parityJ
      exact state.done j lowJ (by omega) parityJ

theorem level_hits_corner (level : Level n m same max d v)
    (path : Path n m same d n m) : Hits n m same d ((n : Int) - m) := by
  have bound := path_diagonal_bound path
  have parity := path_diagonal_parity path
  obtain ⟨x, -, most⟩ := level ((n : Int) - m) bound.1 bound.2 (by omega)
  have far := most.2 n ⟨m, rfl, path⟩
  exact ⟨x, most, by omega, by omega⟩

theorem first_hit_shortest (hit : Hits n m same d k)
    (earlier : ∀ other < d, ¬ Path n m same other n m) : Path n m same d n m := by
  obtain ⟨x, ⟨⟨y, diagonal, path⟩, -⟩, right, below⟩ := hit
  obtain ⟨inner, clipped, count⟩ := path_clip path
  rw [min_eq_right (by omega), min_eq_right (by omega)] at clipped
  have enough : ¬ inner < d := fun shorter => earlier inner shorter clipped
  rwa [show inner = d by omega] at clipped

def Saved (n m : Nat) (same : Nat → Nat → Bool) (max : Nat) (traces : List Cells) : Prop :=
  ∀ i < traces.length, ∃ v, traces[i]? = some v ∧ Level n m same max i v

theorem saved_append {traces : List Cells} (saved : Saved n m same max traces)
    (level : Level n m same max traces.length v) : Saved n m same max (traces ++ [v]) := by
  intro i bound
  rw [List.length_append, List.length_singleton] at bound
  by_cases old : i < traces.length
  · obtain ⟨cells, found, levelI⟩ := saved i old
    exact ⟨cells, by rw [List.getElem?_append_left old, found], levelI⟩
  · have last : i = traces.length := by omega
    subst last
    exact ⟨v, by simp, level⟩

theorem forward_rounds_shortest (spec : ∀ x y : Nat, x < n → y < m → cmp x y = some (same x y))
    (fuel d : Nat) (v : Cells) (traces : List Cells) (within : d ≤ n + m) (enough : n + m - d < fuel)
    (size : v.length = 2 * (n + m) + 1) (ready : Ready n m same ((n + m : Nat) : Int) d v)
    (count : traces.length = d) (saved : Saved n m same (n + m) traces)
    (earlier : ∀ other < d, ¬ Path n m same other n m) :
    ∃ (last : List Cells) (found : Nat),
      forwardRounds cmp n m ((n + m : Nat) : Int) fuel d v traces (-1) = some (last, (found : Int)) ∧
      last.length = found + 1 ∧ Saved n m same (n + m) last ∧ Path n m same found n m ∧
      ∀ other, Path n m same other n m → found ≤ other := by
  induction fuel generalizing d v traces with
  | zero => omega
  | succ fuel ih =>
    have state : RowState n m same (n + m) d (-d) v := ⟨size, ready, fun j low high => by omega⟩
    obtain ⟨next, found, row, length, level, outcome⟩ := forward_row_levels spec (n + m) d (d + 2) (-d) (-1) v
      within state (by omega) (by omega) (by omega) (by push_cast; omega)
    have savedNext : Saved n m same (n + m) (traces ++ [next]) := saved_append saved (by rw [count]; exact level)
    have lengthNext : (traces ++ [next]).length = d + 1 := by simp [count]
    have rounds : forwardRounds cmp n m ((n + m : Nat) : Int) (fuel + 1) d v traces (-1) =
        if found ≥ 0 then some (traces ++ [next], found)
        else forwardRounds cmp n m ((n + m : Nat) : Int) fuel (d + 1) next (traces ++ [next]) found := by
      rw [forwardRounds, if_pos (by omega), Int.toNat_natCast, row]
      rfl
    rcases outcome with ⟨missed, none⟩ | ⟨hit, k, corner⟩
    · have noPath : ¬ Path n m same d n m := by
        intro path
        have bound := path_diagonal_bound path
        have parity := path_diagonal_parity path
        exact none ((n : Int) - m) (by omega) bound.2 (by omega) (level_hits_corner level path)
      have notLast : d < n + m := by
        by_contra last
        rw [show d = n + m by omega] at noPath
        exact noPath (path_without_diagonals n m)
      rw [rounds, if_neg (by omega), missed]
      refine ih (d + 1) next (traces ++ [next]) notLast (by omega) length level lengthNext savedNext ?_
      intro other bound
      rcases Nat.lt_succ_iff_lt_or_eq.mp bound with before | here
      · exact earlier other before
      · rw [here]
        exact noPath
    · have path := first_hit_shortest corner earlier
      refine ⟨traces ++ [next], d, ?_, lengthNext, savedNext, path, ?_⟩
      · rw [rounds, if_pos (by omega), hit]
      · intro other otherPath
        by_contra shorter
        exact earlier other (by omega) otherPath

end
end Spicule.Diff
