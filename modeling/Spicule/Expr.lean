import Spicule.Arith.Blanks

namespace Spicule.Expr
open List Ctype Strtol
open Arith (Target long_bit_bounds formatLong)

structure Ctx where
  err : Bool
  diag : List String
deriving DecidableEq

def xerr (c : Ctx) (msg : String) : Ctx := if c.err then c else ⟨true, c.diag ++ [msg]⟩

def isNumCandidate (s : Bytes) : Bool :=
  let p := if s.head? = some 45 then s.tail else s
  !p.isEmpty && p.all isdigit

-- Without room for the copy the sentinel stands in, which reads as "".
def dupstr (room : Bool) (c : Ctx) (s : Bytes) : Ctx × Bytes := if room then (c, s) else (xerr c "out of memory", [])

inductive CmpOp where
  | eq | ne | lt | le | gt | ge

def CmpOp.holds (op : CmpOp) (x y : Int) : Bool :=
  match op with
  | .eq => x == y
  | .ne => x != y
  | .lt => x < y
  | .le => x ≤ y
  | .gt => x > y
  | .ge => x ≥ y

def order {α : Type} [LT α] [DecidableLT α] (x y : α) : Int := if x < y then -1 else if x > y then 1 else 0

def truth (b : Bool) : Bytes := if b then [49] else [48]

def doCmp (w : Nat) (room : Bool) (c : Ctx) (a : Bytes) (op : CmpOp) (b : Bytes) : Ctx × Bytes :=
  if c.err then dupstr room c []
  else
    let r := if isNumCandidate a && isNumCandidate b then order (strtol w a 10).1 (strtol w b 10).1 else order a b
    dupstr room c (truth (op.holds r 0))

abbrev InLong (w : Nat) (v : Int) : Prop := -(longMax w : Int) - 1 ≤ v ∧ v ≤ longMax w

def numValue (s : Bytes) : Int := if s.head? = some 45 then -(positional 10 0 s.tail : Int) else positional 10 0 s

theorem strtol_candidate (w : Nat) (pos : 0 < w) (narrow : w ≤ 64) (s : Bytes) (candidate : isNumCandidate s = true) :
    (strtol w s 10).1 = max (-(longMax w : Int) - 1) (min (numValue s) (longMax w)) ∧
      (strtolErange w s 10 = true ↔ ¬ InLong w (numValue s)) := by
  simp only [isNumCandidate, Bool.and_eq_true, Bool.not_eq_true', isEmpty_eq_false_iff, all_eq_true,
    ← digit_in_decimal] at candidate
  unfold numValue
  split at candidate
  · rename_i minus
    obtain ⟨rest, rfl⟩ := head?_eq_some_iff.mp minus
    obtain ⟨c, run, rfl⟩ := exists_cons_of_ne_nil candidate.1
    have read := strtol_decimal w pos narrow true c run [] candidate.2 (by simp [NoDigit])
    simp only [append_nil, if_true, singleton_append] at read
    rw [read.1, read.2, if_pos minus, clampLong, if_pos rfl, tail_cons, decide_eq_true_eq]
    exact ⟨by omega, by omega⟩
  · rename_i plain
    obtain ⟨c, run, rfl⟩ := exists_cons_of_ne_nil candidate.1
    have read := strtol_decimal w pos narrow false c run [] candidate.2 (by simp [NoDigit])
    simp only [append_nil, Bool.false_eq_true, if_false, nil_append] at read
    rw [read.1, read.2, if_neg plain, clampLong, if_neg Bool.false_ne_true, decide_eq_true_eq]
    exact ⟨by omega, by omega⟩

theorem holds_order (op : CmpOp) (x y : Int) : op.holds (order x y) 0 = op.holds x y := by
  unfold order
  rw [Bool.eq_iff_iff]
  cases op <;> simp only [CmpOp.holds, beq_iff_eq, bne_iff_ne, decide_eq_true_eq] <;> split <;> omega

theorem truth_same (b d : Bool) : truth b = truth d ↔ (b = true ↔ d = true) := by
  cases b <;> cases d <;> decide

theorem do_cmp_correct (long : Target) (c : Ctx) (clean : c.err = false) (a b : Bytes)
    (left : isNumCandidate a = true) (right : isNumCandidate b = true) :
    let top : Int := longMax long.longBit
    (∀ op, doCmp long.longBit true c a op b = (c, truth (op.holds (numValue a) (numValue b)))) ↔
      (numValue a = numValue b ∨ ¬ (top ≤ numValue a ∧ top ≤ numValue b) ∧
        ¬ (numValue a ≤ -top - 1 ∧ numValue b ≤ -top - 1)) := by
  obtain ⟨wide, narrow⟩ := long_bit_bounds long
  simp only [doCmp, clean, left, right, (strtol_candidate _ (by omega : 0 < long.longBit) narrow _ _).1, Bool.and_self, if_true,
    Bool.false_eq_true, if_false, holds_order, dupstr, Prod.mk.injEq, true_and, truth_same]
  constructor
  · intro same
    have equal := same .eq
    simp only [CmpOp.holds, beq_iff_eq] at equal
    omega
  · intro apart op
    cases op <;> simp only [CmpOp.holds, beq_iff_eq, bne_iff_ne, decide_eq_true_eq] <;> omega

theorem do_cmp_correct_ten : doCmp 64 true ⟨false, []⟩ [49, 48] .gt [57] = (⟨false, []⟩, [49]) :=
  (do_cmp_correct .lp64 ⟨false, []⟩ rfl [49, 48] [57] (by decide) (by decide)).mpr (.inr (by decide)) .gt

theorem do_cmp_past_end : ∃ a b : Bytes, isNumCandidate a = true ∧ isNumCandidate b = true ∧ numValue b = numValue a + 1 ∧
    doCmp 64 true ⟨false, []⟩ a .eq b = (⟨false, []⟩, [49]) :=
  ⟨"9223372036854775807".toUTF8.toList, "9223372036854775808".toUTF8.toList, by decide +kernel⟩

inductive ArithOp where
  | plus | minus | times | quot | mod
deriving DecidableEq

def ArithOp.exact (op : ArithOp) (x y : Int) : Int :=
  match op with
  | .plus => x + y
  | .minus => x - y
  | .times => x * y
  | .quot => x.tdiv y
  | .mod => x.tmod y

-- What has to fit: for a remainder, the quotient.
def ArithOp.bounded (op : ArithOp) (x y : Int) : Int := if op = .mod then x.tdiv y else op.exact x y

variable (w : Nat)

-- An operation on longs; none where C leaves it undefined.
def compute (op : ArithOp) (x y : Int) : Option Int :=
  if (op = .quot ∨ op = .mod) ∧ y = 0 ∨ ¬ InLong w (op.bounded x y) then none else some (op.exact x y)

def overflows (op : ArithOp) (x y : Int) : Option Bool :=
  let max : Int := longMax w
  let min : Int := -max - 1
  match op with
  | .plus =>
    if y > 0 then (compute w .minus max y).map fun top => x > top
    else if y < 0 then (compute w .minus min y).map fun low => x < low
    else some false
  | .minus =>
    if y < 0 then (compute w .plus max y).map fun top => x > top
    else if y > 0 then (compute w .plus min y).map fun low => x < low
    else some false
  | .times =>
    if x > 0 then
      if y > 0 then (compute w .quot max y).map fun top => x > top else (compute w .quot min x).map fun low => y < low
    else if x < 0 then
      if y > 0 then (compute w .quot min y).map fun low => x < low else (compute w .quot max x).map fun low => y < low
    else some false
  | .quot | .mod => some (x == min && y == -1)

def doArith (room : Bool) (c : Ctx) (a : Bytes) (op : ArithOp) (b : Bytes) : Option (Ctx × Bytes) :=
  let fail := fun msg => some (dupstr room (xerr c msg) [])
  let x := (strtol w a 10).1
  let y := (strtol w b 10).1
  if c.err then some (dupstr room c [])
  else if !isNumCandidate a || !isNumCandidate b then fail "non-numeric argument"
  else if strtolErange w a 10 || strtolErange w b 10 then fail "overflow"
  else if (op = .quot ∨ op = .mod) ∧ y = 0 then fail "division by zero"
  else do
    if ← overflows w op x y then fail "overflow" else some (dupstr room c (formatLong (← compute w op x y)))

variable {w} {x y : Int}
theorem checked {q z : Int} {undefined : Prop} [Decidable undefined] {p : Int → Prop} [DecidablePred p] (clear : ¬ undefined)
    (past : p q ↔ ¬ InLong w z) :
    ((if undefined then none else some q).map fun t => decide (p t)) = some (decide ¬ InLong w z) := by
  rw [if_neg clear]
  exact congrArg some (decide_eq_decide.mpr past)

theorem tdiv_bounds {m d : Int} (nonneg : 0 ≤ m) (pos : 0 < d) (b : Int) :
    0 ≤ m.tdiv d ∧ m.tdiv d ≤ m ∧ (m.tdiv d < b ↔ m < b * d) := by
  refine ⟨Int.tdiv_nonneg nonneg pos.le, Int.tdiv_le_self d nonneg, ?_⟩
  rw [Int.tdiv_eq_ediv_of_nonneg nonneg, Int.ediv_lt_iff_lt_mul pos]

theorem min_tdiv (w : Nat) (d : Int) : (-(longMax w : Int) - 1).tdiv d = -((longMax w : Int) + 1).tdiv d := by
  rw [← Int.neg_tdiv]
  congr 1
  omega

section
variable (left : InLong w x) (right : InLong w y)
include left right

theorem times_overflows : overflows w .times x y = some (decide ¬ InLong w (x * y)) := by
  have top : 0 ≤ (longMax w : Int) := Int.natCast_nonneg _
  have low : 0 ≤ (longMax w : Int) + 1 := by omega
  simp only [overflows, compute, ArithOp.bounded, ArithOp.exact, reduceCtorEq, or_false, true_and, if_false, min_tdiv]
  split
  · rename_i posX
    split
    · rename_i posY
      have edge := tdiv_bounds top posY x
      have sign := Int.mul_pos posX posY
      exact checked (by omega) (by omega)
    · rename_i negY
      have edge := tdiv_bounds low posX (-y)
      have sign := Int.mul_nonpos_of_nonneg_of_nonpos posX.le (Int.not_lt.mp negY)
      rw [Int.neg_mul, Int.mul_comm y] at edge
      exact checked (by omega) (by omega)
  · split
    · rename_i negX
      split
      · rename_i posY
        have edge := tdiv_bounds low posY (-x)
        have sign := Int.mul_nonpos_of_nonpos_of_nonneg negX.le posY.le
        rw [Int.neg_mul] at edge
        exact checked (by omega) (by omega)
      · rename_i negY
        have edge := tdiv_bounds top (Int.neg_pos_of_neg negX) (-y)
        have sign := Int.mul_nonneg_of_nonpos_of_nonpos negX.le (Int.not_lt.mp negY)
        rw [Int.tdiv_neg, Int.neg_mul_neg, Int.mul_comm y] at edge
        exact checked (by omega) (by omega)
    · obtain rfl : x = 0 := by omega
      simp

theorem tdiv_overflows (nonzero : y ≠ 0) : (x == -(longMax w : Int) - 1 && y == -1) = decide ¬ InLong w (x.tdiv y) := by
  have size : (x.tdiv y).natAbs = x.natAbs / y.natAbs := Int.natAbs_tdiv x y
  rw [Bool.eq_iff_iff, Bool.and_eq_true, beq_iff_eq, beq_iff_eq, decide_eq_true_eq]
  rcases (by omega : y = 1 ∨ y = -1 ∨ 2 ≤ y.natAbs) with rfl | rfl | large
  · rw [Int.tdiv_one]
    omega
  · rw [Int.tdiv_neg, Int.tdiv_one]
    omega
  · have half := Nat.div_le_div_left large (by omega) (a := x.natAbs)
    omega

theorem overflows_exact (op : ArithOp) (defined : ¬ ((op = .quot ∨ op = .mod) ∧ y = 0)) :
    overflows w op x y = some (decide ¬ InLong w (op.bounded x y)) := by
  cases op with
  | plus | minus =>
    simp only [overflows, compute, ArithOp.bounded, ArithOp.exact, reduceCtorEq, or_false, false_and, false_or, if_false]
    split
    · exact checked (by omega) (by omega)
    · split
      · exact checked (by omega) (by omega)
      · obtain rfl : y = 0 := by omega
        simp
        omega
  | times => exact times_overflows left right
  | quot | mod => exact congrArg some (tdiv_overflows left right fun zero => defined ⟨by simp, zero⟩)

end

theorem do_arith_exact (long : Target) (room : Bool) (c : Ctx) (clean : c.err = false) (a b : Bytes) (op : ArithOp)
    (first : isNumCandidate a = true) (second : isNumCandidate b = true)
    (left : InLong long.longBit (numValue a)) (right : InLong long.longBit (numValue b)) :
    doArith long.longBit room c a op b = some (
      if (op = .quot ∨ op = .mod) ∧ numValue b = 0 then dupstr room (xerr c "division by zero") []
      else if InLong long.longBit (op.bounded (numValue a) (numValue b)) then
        dupstr room c (formatLong (op.exact (numValue a) (numValue b)))
      else dupstr room (xerr c "overflow") []) := by
  obtain ⟨wide, narrow⟩ := long_bit_bounds long
  have range : ∀ s, isNumCandidate s = true → InLong long.longBit (numValue s) →
      (strtol long.longBit s 10).1 = numValue s ∧ strtolErange long.longBit s 10 = false := fun s candidate fits => by
    obtain ⟨value, range⟩ := strtol_candidate _ (by omega : 0 < long.longBit) narrow s candidate
    exact ⟨by omega, Bool.eq_false_iff.mpr fun past => range.mp past fits⟩
  simp only [doArith, clean, first, second, range a first left, range b second right, Bool.false_eq_true, Bool.not_true,
    Bool.or_self, if_false]
  split
  · rfl
  · rename_i defined
    rw [overflows_exact left right op defined]
    by_cases fits : InLong long.longBit (op.bounded (numValue a) (numValue b))
    · simp [fits, compute, defined]
    · simp [fits]

theorem do_arith_exact_seven : doArith 64 true ⟨false, []⟩ [45, 55] .mod [50] = some (⟨false, []⟩, [45, 49]) :=
  (do_arith_exact .lp64 true ⟨false, []⟩ rfl [45, 55] [50] .mod (by decide) (by decide) (by decide) (by decide)).trans
    (by decide)

theorem do_arith_mod_overflow : numValue "-9223372036854775808".toUTF8.toList = -2 ^ 63 ∧ (-2 ^ 63 : Int).tmod (-1) = 0 ∧
    doArith 64 true ⟨false, []⟩ "-9223372036854775808".toUTF8.toList .mod [45, 49] = some (⟨true, ["overflow"]⟩, []) := by
  decide +kernel

end Spicule.Expr
