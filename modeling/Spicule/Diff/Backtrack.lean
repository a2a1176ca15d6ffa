import Spicule.Diff.Myers

namespace Spicule.Diff
open List Option Nat

structure Cursor where
  ops : List EditOp
  x : Int
  y : Int
deriving DecidableEq, Repr

-- A negative coordinate cast to size_t would index out of the arrays; here the push fails.
def editopPush (c : Cursor) (type : OpType) (ai bi : Int) : Option Cursor :=
  if 0 ≤ ai ∧ 0 ≤ bi then some ⟨c.ops ++ [⟨type, ai.toNat, bi.toNat⟩], ai, bi⟩ else none

def backSnake (prevX prevY : Int) : Nat → Cursor → Option Cursor
  | 0, _ => none
  | fuel + 1, c =>
    if c.x > prevX ∧ c.y > prevY then
      (editopPush c .opMatch (c.x - 1) (c.y - 1)).bind (backSnake prevX prevY fuel)
    else some c

def backStep (traces : List Cells) (off : Int) (dd : Nat) (c : Cursor) : Option Cursor := do
  let vv ← traces[dd - 1]?
  let above ← fromAbove vv off dd (c.x - c.y)
  let prevX ← readCell vv (previousDiagonal above (c.x - c.y) + off)
  let prevY := prevX - previousDiagonal above (c.x - c.y)
  let c ← backSnake prevX prevY ((c.x - prevX).toNat + 1) c
  if c.x = prevX then editopPush c .opIns c.x (c.y - 1) else editopPush c .opDel (c.x - 1) c.y

def backRounds (traces : List Cells) (off : Int) : Nat → Cursor → Option Cursor
  | 0, c => some c
  | dd + 1, c => (backStep traces off (dd + 1) c).bind (backRounds traces off dd)

def backTail (cmp : Int → Int → Option Bool) : Nat → Cursor → Option Cursor
  | 0, _ => none
  | fuel + 1, c =>
    if c.x > 0 ∧ c.y > 0 then do
      let equal ← cmp (c.x - 1) (c.y - 1)
      if equal then (editopPush c .opMatch (c.x - 1) (c.y - 1)).bind (backTail cmp fuel) else some c
    else some c

-- Allocation succeeds here: the source reports running out of memory otherwise.
def myersRun (a b : TextFile) (bflag : Bool) : Option Cursor :=
  let n := a.lines.length
  let m := b.lines.length
  let max : Int := ((n + m : Nat) : Int)
  if n + m = 0 then some ⟨[], n, m⟩
  else do
    let v ← writeCell (List.replicate (2 * (n + m) + 1) none) (1 + max) 0
    let (traces, foundD) ← forwardRounds (linesEqualFinal a b bflag) n m max (n + m + 1) 0 v [] (-1)
    let c ← backRounds traces max foundD.toNat ⟨[], n, m⟩
    let c ← backTail (linesEqualFinal a b bflag) (c.x.toNat + 1) c
    some { c with ops := c.ops.reverse }

def myersBuildOps (a b : TextFile) (bflag : Bool) : Option (List EditOp) :=
  (myersRun a b bflag).map Cursor.ops

def Script (n m : Nat) (same : Nat → Nat → Bool) : List EditOp → Nat → Nat → Prop
  | [], x, y => x = n ∧ y = m
  | op :: rest, x, y => op.ai = x ∧ op.bi = y ∧
      match op.type with
      | .opMatch => x < n ∧ y < m ∧ same x y = true ∧ Script n m same rest (x + 1) (y + 1)
      | .opDel => x < n ∧ Script n m same rest (x + 1) y
      | .opIns => y < m ∧ Script n m same rest x (y + 1)

def isEdit (op : EditOp) : Bool := op.type != .opMatch

def takesFromA (op : EditOp) : Option Nat := if op.type = .opIns then none else some op.ai

def takesFromB (op : EditOp) : Option Nat := if op.type = .opDel then none else some op.bi

section
variable {n m : Nat} {same : Nat → Nat → Bool} {cmp : Int → Int → Option Bool}

open EditGraph

variable (ops : List EditOp)

section
variable (x y : Nat) (script : Script n m same ops x y)
include x y script

theorem script_takes : (ops.filterMap takesFromA = List.range' x (n - x) ∧ x ≤ n) ∧
    ops.filterMap takesFromB = List.range' y (m - y) ∧ y ≤ m := by
  have more : ∀ stop i, i < stop → List.range' i (stop - i) = i :: List.range' (i + 1) (stop - (i + 1)) := fun stop i below => by
    rw [show stop - i = stop - (i + 1) + 1 by omega, range'_succ]
  induction ops generalizing x y with
  | nil => simp [script.1, script.2]
  | cons op rest ih =>
    obtain ⟨type, ai, bi⟩ := op
    simp only [Script] at script
    obtain ⟨rfl, rfl, script⟩ := script
    cases type with
    | opMatch =>
      obtain ⟨left, right, -, script⟩ := script
      obtain ⟨⟨fromA, _⟩, fromB, _⟩ := ih _ _ script
      exact ⟨⟨by simp [takesFromA, fromA, more n ai left], left.le⟩, by simp [takesFromB, fromB, more m bi right], right.le⟩
    | opDel =>
      obtain ⟨left, script⟩ := script
      obtain ⟨⟨fromA, _⟩, fromB, bound⟩ := ih _ _ script
      exact ⟨⟨by simp [takesFromA, fromA, more n ai left], left.le⟩, by simpa [takesFromB] using fromB, bound⟩
    | opIns =>
      obtain ⟨right, script⟩ := script
      obtain ⟨⟨fromA, bound⟩, fromB, _⟩ := ih _ _ script
      exact ⟨⟨by simpa [takesFromA] using fromA, bound⟩, by simp [takesFromB, fromB, more m bi right], right.le⟩

theorem script_match_equal (op : EditOp)
    (mem : op ∈ ops) (matched : op.type = .opMatch) : op.ai < n ∧ op.bi < m ∧ same op.ai op.bi = true := by
  induction ops generalizing x y with
  | nil => cases mem
  | cons head rest ih =>
    obtain ⟨type, ai, bi⟩ := head
    simp only [Script] at script
    obtain ⟨rfl, rfl, script⟩ := script
    rcases mem_cons.mp mem with here | later
    · subst here
      obtain rfl : type = .opMatch := matched
      exact ⟨script.1, script.2.1, script.2.2.1⟩
    · cases type with
      | opMatch => exact ih _ _ script.2.2.2 later
      | opDel | opIns => exact ih _ _ script.2 later

end

structure Follows (n m : Nat) (same : Nat → Nat → Bool) (edits : Nat) (c : Cursor) (x y : Nat) : Prop where
  atX : c.x = x
  atY : c.y = y
  script : Script n m same c.ops.reverse x y
  count : c.ops.countP isEdit = edits

variable {edits : Nat}

variable {c : Cursor}
theorem push_follows {x y : Nat} {ai bi : Int} {type : OpType} (atX : ai = x) (atY : bi = y)
    (script : Script n m same (⟨type, x, y⟩ :: c.ops.reverse) x y)
    (count : c.ops.countP isEdit + (if isEdit ⟨type, x, y⟩ then 1 else 0) = edits) :
    ∃ next, editopPush c type ai bi = some next ∧ Follows n m same edits next x y := by
  subst atX atY
  refine ⟨_, if_pos (by omega), rfl, rfl, ?_, ?_⟩
  · rwa [reverse_append, reverse_singleton, singleton_append]
  · rwa [countP_append, countP_singleton]

theorem push_match {x y : Nat} (follows : Follows n m same edits c (x + 1) (y + 1))
    (left : x < n) (right : y < m) (equal : same x y = true) :
    ∃ next, editopPush c .opMatch (c.x - 1) (c.y - 1) = some next ∧ Follows n m same edits next x y := by
  have atX := follows.atX
  have atY := follows.atY
  exact push_follows (by omega) (by omega) ⟨rfl, rfl, left, right, equal, follows.script⟩ follows.count

theorem push_ins {x y : Nat} (follows : Follows n m same edits c x (y + 1)) (right : y < m) :
    ∃ next, editopPush c .opIns c.x (c.y - 1) = some next ∧ Follows n m same (edits + 1) next x y := by
  have atY := follows.atY
  exact push_follows follows.atX (by omega) ⟨rfl, rfl, right, follows.script⟩ (congrArg (· + 1) follows.count)

theorem push_del {x y : Nat} (follows : Follows n m same edits c (x + 1) y) (left : x < n) :
    ∃ next, editopPush c .opDel (c.x - 1) c.y = some next ∧ Follows n m same (edits + 1) next x y := by
  have atX := follows.atX
  exact push_follows (by omega) follows.atY ⟨rfl, rfl, left, follows.script⟩ (congrArg (· + 1) follows.count)

theorem back_snake_follows (prevX prevY : Int) (x y count fuel : Nat) (c : Cursor)
    (enough : count < fuel) (edge : ¬ ((x : Int) > prevX ∧ (y : Int) > prevY))
    (inner : (x : Int) + 1 > prevX ∧ (y : Int) + 1 > prevY) (slide : Slide n m same x y count)
    (follows : Follows n m same edits c (x + count) (y + count)) :
    ∃ next, backSnake prevX prevY fuel c = some next ∧ Follows n m same edits next x y := by
  induction count generalizing fuel c with
  | zero =>
    rcases fuel with _ | fuel
    · omega
    refine ⟨c, ?_, follows⟩
    have stays : ¬ (c.x > prevX ∧ c.y > prevY) := by
      have atX := follows.atX
      have atY := follows.atY
      omega
    rw [backSnake, if_neg stays]
  | succ count ih =>
    rcases fuel with _ | fuel
    · omega
    have here := slide count (lt_succ_self count)
    obtain ⟨pushed, push, followsPushed⟩ := push_match follows here.1 here.2.1 here.2.2
    obtain ⟨next, result, followsNext⟩ := ih fuel pushed (by omega)
      (fun i bound => slide i (lt_succ_of_lt bound)) followsPushed
    have inside : c.x > prevX ∧ c.y > prevY := by
      have atX := follows.atX
      have atY := follows.atY
      omega
    exact ⟨next, by rw [backSnake, if_pos inside, push, bind_some, result], followsNext⟩

theorem back_step_follows {max d edits : Nat} {traces : List Cells} {v : Cells} {x y : Nat}
    (saved : traces[d]? = some v) (level : Level n m same max d v)
    (most : Furthest n m same (d + 1) ((x : Int) - y) x) (left : x ≤ n) (right : y ≤ m)
    (follows : Follows n m same edits c x y) :
    ∃ (next : Cursor) (x' y' : Nat), backStep traces max (d + 1) c = some next ∧
      Furthest n m same d ((x' : Int) - y') x' ∧ x' ≤ n ∧ y' ≤ m ∧ Follows n m same (edits + 1) next x' y' := by
  obtain ⟨yr, diagonalR, reached⟩ := most.1
  obtain rfl : yr = y := by omega
  have bound := path_diagonal_bound reached
  have parity := path_diagonal_parity reached
  obtain ⟨above, origin, x₀, y₀, chosen, read, mostOrigin, enters, diagonal, path, fromLeft, fromRight⟩ :=
    furthest_start (k := (x : Int) - yr) level (by push_cast at bound; omega) (by push_cast at bound; omega) (by omega)
  obtain ⟨count, slide, stopped⟩ := exists_slide n m same x₀ y₀
  have atX := reaches_unique_furthest most (furthest_next diagonal path fromLeft fromRight slide stopped)
  have atY : yr = y₀ + count := by omega
  subst atX atY
  obtain ⟨yo, diagonalO, pathO⟩ := mostOrigin.1
  have cx := follows.atX
  have cy := follows.atY
  have diagonalC : c.x - c.y = (x₀ : Int) - y₀ := by omega
  have diagonalC' : ((x₀ + count : Nat) : Int) - ((y₀ + count : Nat) : Int) = (x₀ : Int) - y₀ := by omega
  rw [diagonalC'] at chosen read mostOrigin diagonalO
  have step : backStep traces max (d + 1) c =
      (backSnake origin (origin - previousDiagonal above ((x₀ : Int) - y₀)) ((c.x - origin).toNat + 1) c).bind
        fun c => if c.x = origin then editopPush c .opIns c.x (c.y - 1) else editopPush c .opDel (c.x - 1) c.y := by
    simp only [backStep, Nat.add_sub_cancel, saved, diagonalC, cast_succ, chosen, read, bind_eq_bind, bind_some]
  rw [step]
  cases above with
  | true =>
    simp only [previousDiagonal, if_true] at enters diagonalO mostOrigin ⊢
    obtain ⟨stopped, result, followsStopped⟩ := back_snake_follows (origin : Int) (origin - ((x₀ : Int) - y₀ + 1))
      x₀ y₀ count ((c.x - origin).toNat + 1) c (by omega) (by omega) (by omega) slide follows
    obtain ⟨below, rfl⟩ : ∃ below, y₀ = below + 1 := ⟨y₀ - 1, by omega⟩
    obtain ⟨next, push, followsNext⟩ := push_ins followsStopped (by omega)
    refine ⟨next, x₀, below, ?_, ?_, by omega, by omega, followsNext⟩
    · rw [result, bind_some, if_pos (by rw [followsStopped.atX, enters]), push]
    · rwa [enters, show (origin : Int) - below = (x₀ : Int) - ((below + 1 : Nat) : Int) + 1 by push_cast; omega]
  | false =>
    simp only [previousDiagonal, Bool.false_eq_true, if_false] at enters diagonalO mostOrigin ⊢
    obtain ⟨stopped, result, followsStopped⟩ := back_snake_follows (origin : Int) (origin - ((x₀ : Int) - y₀ - 1))
      x₀ y₀ count ((c.x - origin).toNat + 1) c (by omega) (by omega) (by omega) slide follows
    subst enters
    obtain ⟨next, push, followsNext⟩ := push_del followsStopped (by omega)
    refine ⟨next, origin, y₀, ?_, ?_, by omega, by omega, followsNext⟩
    · rw [result, bind_some, if_neg (by rw [followsStopped.atX]; omega), push]
    · rwa [show (origin : Int) - y₀ = ((origin + 1 : Nat) : Int) - y₀ - 1 by push_cast; omega]

theorem back_rounds_follow {max edits : Nat} {traces : List Cells} (saved : Saved n m same max traces) (d : Nat)
    (c : Cursor) (x y : Nat) (kept : d ≤ traces.length) (most : Furthest n m same d ((x : Int) - y) x)
    (left : x ≤ n) (right : y ≤ m) (follows : Follows n m same edits c x y) :
    ∃ (next : Cursor) (x' : Nat), backRounds traces max d c = some next ∧
      Slide n m same 0 0 x' ∧ Follows n m same (edits + d) next x' x' := by
  induction d generalizing c x y edits with
  | zero =>
    obtain ⟨yr, diagonal, path⟩ := most.1
    obtain ⟨level, slide⟩ := path_zero_slide path rfl
    obtain rfl : x = y := by omega
    exact ⟨c, x, rfl, slide, follows⟩
  | succ d ih =>
    obtain ⟨v, found, level⟩ := saved d (by omega)
    obtain ⟨next, x', y', step, mostNext, leftNext, rightNext, followsNext⟩ :=
      back_step_follows found level most left right follows
    obtain ⟨last, x'', rest, slide, followsLast⟩ := ih next x' y' (by omega) mostNext leftNext rightNext followsNext
    refine ⟨last, x'', by rw [backRounds, step, bind_some, rest], slide, ?_⟩
    rwa [show edits + (d + 1) = edits + 1 + d by omega]

theorem back_tail_follows (spec : ∀ x y : Nat, x < n → y < m → cmp x y = some (same x y)) {edits : Nat}
    (x fuel : Nat) (c : Cursor) (enough : x < fuel) (slide : Slide n m same 0 0 x)
    (follows : Follows n m same edits c x x) :
    ∃ next, backTail cmp fuel c = some next ∧ Follows n m same edits next 0 0 := by
  induction x generalizing fuel c with
  | zero =>
    rcases fuel with _ | fuel
    · omega
    refine ⟨c, ?_, follows⟩
    rw [backTail, if_neg (by have atX := follows.atX; omega)]
  | succ x ih =>
    rcases fuel with _ | fuel
    · omega
    have here := slide x (lt_succ_self x)
    simp only [zero_add] at here
    obtain ⟨pushed, push, followsPushed⟩ := push_match follows here.1 here.2.1 here.2.2
    obtain ⟨next, result, followsNext⟩ := ih fuel pushed (by omega)
      (fun i bound => slide i (lt_succ_of_lt bound)) followsPushed
    have atX : c.x - 1 = x := by have value := follows.atX; omega
    have atY : c.y - 1 = x := by have value := follows.atY; omega
    refine ⟨next, ?_, followsNext⟩
    rw [backTail, if_pos (by omega), push, atX, atY, spec x x here.1 here.2.1, here.2.2]
    simpa using result

end

theorem myers_run_script (a b : TextFile) (bflag : Bool) : ∃ ops edits, myersRun a b bflag = some ⟨ops, 0, 0⟩ ∧
      Script a.lines.length b.lines.length (sameLine a b bflag) ops 0 0 ∧ ops.countP isEdit = edits ∧
      EditGraph.Path a.lines.length b.lines.length (sameLine a b bflag) edits a.lines.length b.lines.length ∧
      ∀ other, EditGraph.Path a.lines.length b.lines.length (sameLine a b bflag) other a.lines.length b.lines.length →
        edits ≤ other := by
  generalize sizeA : a.lines.length = n
  generalize sizeB : b.lines.length = m
  by_cases empty : n + m = 0
  · obtain ⟨rfl, rfl⟩ : n = 0 ∧ m = 0 := by omega
    refine ⟨[], 0, ?_, ⟨rfl, rfl⟩, rfl, .start, fun other _ => zero_le other⟩
    simp [myersRun, sizeA, sizeB]
  · have spec : ∀ x y : Nat, x < n → y < m → linesEqualFinal a b bflag x y = some (sameLine a b bflag x y) :=
      fun x y left right => lines_equal_final_in_range bflag (sizeA ▸ left) (sizeB ▸ right)
    obtain ⟨v, seeded⟩ := write_cell_in_range (List.replicate (2 * (n + m) + 1) none) (1 + ((n + m : Nat) : Int)) 0
      (by omega) (by simp only [length_replicate]; omega)
    obtain ⟨seed, -, size⟩ := read_cell_write seeded
    obtain ⟨traces, found, rounds, kept, saved, path, shortest⟩ := forward_rounds_shortest spec (n + m + 1) 0 v []
      (zero_le _) (by omega) (by simpa using size) seed rfl (fun i bound => absurd bound (not_lt_zero i))
      (fun other bound => absurd bound (not_lt_zero other))
    obtain ⟨last, found', level⟩ := saved found (by omega)
    obtain ⟨x, most, right, below⟩ := level_hits_corner level path
    -- The furthest point on the last diagonal is the corner: beyond it the path would be clipped.
    have corner : x = n := by
      obtain ⟨y, diagonal, far⟩ := most.1
      obtain ⟨inner, clipped, count⟩ := EditGraph.path_clip far
      rw [min_eq_right (by omega), min_eq_right (by omega)] at clipped
      have bound := shortest inner clipped
      omega
    subst corner
    obtain ⟨c, z, back, slide, follows⟩ := back_rounds_follow saved found ⟨[], x, m⟩ x m (by omega) most
      (le_refl x) (le_refl m) ⟨rfl, rfl, ⟨rfl, rfl⟩, rfl⟩
    obtain ⟨final, tail, followsFinal⟩ := back_tail_follows spec z (c.x.toNat + 1) c
      (by have atX := follows.atX; omega) slide follows
    refine ⟨final.ops.reverse, found, ?_, followsFinal.script, ?_, path, shortest⟩
    · have atX : final.x = 0 := followsFinal.atX
      have atY : final.y = 0 := followsFinal.atY
      rw [cast_zero] at rounds
      simp only [myersRun, sizeA, sizeB, if_neg empty, seeded, bind_eq_bind, bind_some, rounds,
        Int.toNat_natCast, back, tail, atX, atY]
    · rw [countP_reverse]
      simpa using followsFinal.count

-- The edit script is minimal, takes every line once and in order, and pairs equal lines.
theorem myers_build_ops_minimal (a b : TextFile) (bflag : Bool) :
    ∃ ops, myersRun a b bflag = some ⟨ops, 0, 0⟩ ∧ myersBuildOps a b bflag = some ops ∧
      ops.filterMap takesFromA = List.range a.lines.length ∧
      ops.filterMap takesFromB = List.range b.lines.length ∧
      (∀ op ∈ ops, op.type = .opMatch → linesEqualFinal a b bflag op.ai op.bi = some true) ∧
      ∃ length, EditGraph.IsLcsLength a.lines.length b.lines.length (sameLine a b bflag) length ∧
        ops.countP isEdit = a.lines.length + b.lines.length - 2 * length ∧
        2 * length ≤ a.lines.length + b.lines.length := by
  obtain ⟨ops, edits, run, script, count, path, shortest⟩ := myers_run_script a b bflag
  obtain ⟨length, lcs, total⟩ := EditGraph.shortest_path_lcs path shortest
  refine ⟨ops, run, by rw [myersBuildOps, run]; rfl, ?_, ?_, ?_, length, lcs, by omega, by omega⟩
  · simpa [range_eq_range'] using (script_takes ops 0 0 script).1.1
  · simpa [range_eq_range'] using (script_takes ops 0 0 script).2.1
  · intro op mem matched
    obtain ⟨-, -, equal⟩ := script_match_equal ops 0 0 script op mem matched
    simpa only [sameLine, beq_iff_eq] using equal

end Spicule.Diff
