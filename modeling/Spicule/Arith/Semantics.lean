import Spicule.Arith.Effects
import Spicule.Arith.Blanks

-- C evaluation over words of w bits, which wrap around: operands from left to right, the
-- value before the variable it is combined with.
namespace Spicule.Arith
open BitVec
open Strtol (Bytes clampLong longMax)

-- The targets know a variable by its letters alone: x and X are one.
abbrev Store (w : Nat) := Bytes → Option (BitVec w)

def flag (w : Nat) (b : Bool) : BitVec w := if b then 1#w else 0#w

-- `none` where C leaves it undefined: a zero divisor, a shift count outside the width.
def Op.denote {w : Nat} (op : Op) (x y : BitVec w) : Option (BitVec w) :=
  match op with
  | .assign => some y
  | .add => some (x + y)
  | .sub => some (x - y)
  | .mul => some (x * y)
  | .div => if y = 0#w then none else some (x.sdiv y)
  | .rem => if y = 0#w then none else some (x.srem y)
  | .band => some (x &&& y)
  | .bxor => some (x ^^^ y)
  | .bor => some (x ||| y)
  | .shl => if y.toInt < 0 ∨ w ≤ y.toInt then none else some (x <<< y.toInt.toNat)
  | .shr => if y.toInt < 0 ∨ w ≤ y.toInt then none else some (x.sshiftRight y.toInt.toNat)
  | .lt => some (flag w (x.slt y))
  | .gt => some (flag w (y.slt x))
  | .le => some (flag w (x.sle y))
  | .ge => some (flag w (y.sle x))
  | .eq => some (flag w (x == y))
  | .ne => some (flag w (x != y))

def UnOp.denote {w : Nat} (op : UnOp) (x : BitVec w) : BitVec w :=
  match op with
  | .plus => x
  | .minus => -x
  | .compl => ~~~x
  | .not => flag w (x == 0#w)

def Store.read {w : Nat} (undef : Bool) (store : Store w) (name : Bytes) : Except Wrde (BitVec w) :=
  match store name with
  | some x => .ok x
  | none => if undef then .error .badval else .ok 0#w

def Store.write {w : Nat} (store : Store w) (name : Bytes) (x : BitVec w) : Store w :=
  fun other => if nameEq other name then some x else store other

def defined {w : Nat} (result : Option (BitVec w)) : Except Wrde (BitVec w) :=
  match result with
  | some x => .ok x
  | none => .error .syntaxError

def Expr.eval {w : Nat} (undef : Bool) : Expr → Store w → Except Wrde (BitVec w × Store w)
  | .const magnitude, store => .ok (BitVec.ofNat w (min magnitude (longMax w)), store)
  | .var name, store => do
      let x ← store.read undef name
      return (x, store)
  | .unary op operand, store => do
      let (x, store) ← operand.eval undef store
      return (op.denote x, store)
  | .binary op left right, store => do
      let (x, store) ← left.eval undef store
      let (y, store) ← right.eval undef store
      let z ← defined (op.denote x y)
      return (z, store)
  | .logic .land left right, store => do
      let (x, store) ← left.eval undef store
      if x = 0#w then return (0#w, store)
      let (y, store) ← right.eval undef store
      return (flag w (y != 0#w), store)
  | .logic .lor left right, store => do
      let (x, store) ← left.eval undef store
      if x ≠ 0#w then return (1#w, store)
      let (y, store) ← right.eval undef store
      return (flag w (y != 0#w), store)
  | .cond test yes no, store => do
      let (x, store) ← test.eval undef store
      if x ≠ 0#w then yes.eval undef store else no.eval undef store
  | .assign name op value, store => do
      let (y, store) ← value.eval undef store
      let x ← if op = .assign then .ok 0#w else store.read undef name
      let z ← defined (op.denote x y)
      return (z, store.write name z)
  | .comma first last, store => do
      let (_, store) ← first.eval undef store
      last.eval undef store

section
variable {w : Nat}
include w

theorem to_unsigned_to_int (x : BitVec w) : toUnsigned w x.toInt = x.toNat := by
  have bound := x.isLt
  rw [toUnsigned, toInt_eq_toNat_cond]
  split
  · rw [Int.emod_eq_of_lt (by omega) (by exact_mod_cast bound)]
    exact Int.toNat_natCast _
  · push_cast
    rw [Int.sub_emod_right, Int.emod_eq_of_lt (by omega) (by exact_mod_cast bound)]
    exact Int.toNat_natCast _

theorem wrap_to_nat (pos : 0 < w) (x : BitVec w) : wrapToLong w x.toNat = x.toInt := by
  have double := Strtol.half_double w pos
  rw [wrapToLong, toInt_eq_toNat_cond]
  by_cases low : x.toNat < 2 ^ (w - 1)
  · rw [if_pos low, if_pos (by omega)]
  · rw [if_neg low, if_neg (by omega)]
    omega

theorem negate_to_int (pos : 0 < w) (x : BitVec w) : negate w x.toInt = (-x).toInt := by
  rw [negate, to_unsigned_to_int, ← toNat_neg, wrap_to_nat pos]

theorem flag_to_int (wide : 2 ≤ w) (b : Bool) : truth b = (flag w b).toInt := by
  cases b with
  | false => simp [truth, flag]
  | true =>
    have big : 2 * 1 < 2 ^ w := Nat.lt_of_lt_of_le (by decide) (Nat.pow_le_pow_right (by decide) wide)
    rw [flag, if_pos rfl, toInt_eq_toNat_cond, toNat_ofNat, Nat.mod_eq_of_lt (by omega), if_pos big]
    rfl

theorem bit_not_to_int (pos : 0 < w) (x : BitVec w) : bitNot x.toInt = (~~~x).toInt := by
  have double := Strtol.half_double w pos
  rw [bitNot, toInt_eq_toNat_cond, toInt_eq_toNat_cond, toNat_not]
  split <;> split <;> omega

theorem zero_to_int (x : BitVec w) : x.toInt = 0 ↔ x = 0#w := by
  rw [← toInt_inj, toInt_zero]

theorem un_op_denote (wide : 2 ≤ w) (op : UnOp) (x : BitVec w) : op.apply w x.toInt = (op.denote x).toInt := by
  cases op with
  | plus => rfl
  | minus => exact negate_to_int (by omega) x
  | compl => exact bit_not_to_int (by omega) x
  | not =>
    rw [UnOp.apply, UnOp.denote, ← flag_to_int wide]
    congr 1
    rw [Bool.eq_iff_iff]
    simp [zero_to_int]

theorem sdiv_to_int (pos : 0 < w) (s : State) (x y : BitVec w) (nonzero : y ≠ 0#w) :
    applyBinop w s .div x.toInt y.toInt = ((x.sdiv y).toInt, s) := by
  have divisor : y.toInt ≠ 0 := mt (zero_to_int y).mp nonzero
  simp only [applyBinop, if_neg divisor]
  split
  · rename_i minus
    rw [negate_to_int pos, toInt_sdiv, minus, Int.tdiv_neg, Int.tdiv_one, ← toInt_neg]
  · rename_i proper
    rw [quotient, if_neg (by simp [divisor, proper])]
    have other : y ≠ -1#w := by
      rintro rfl
      rw [neg_one_eq_allOnes, toInt_allOnes, if_pos pos] at proper
      exact proper rfl
    rw [toInt_sdiv_of_ne_or_ne x y (.inr other)]

theorem apply_binop_denote (wide : 2 ≤ w) (s : State) (op : Op) (x y : BitVec w) : match op.denote x y with
    | some z => applyBinop w s op x.toInt y.toInt = (z.toInt, s)
    | none => applyBinop w s op x.toInt y.toInt = (0, s.fail .syntaxError) := by
  have pos : 0 < w := by omega
  cases op with
  | assign => rfl
  | add => simp only [Op.denote, applyBinop, to_unsigned_to_int, ← toNat_add, wrap_to_nat pos]
  | sub =>
    simp only [Op.denote, applyBinop, to_unsigned_to_int]
    rw [add_comm, ← toNat_sub, wrap_to_nat pos]
  | mul => simp only [Op.denote, applyBinop, to_unsigned_to_int, ← toNat_mul, wrap_to_nat pos]
  | div =>
    by_cases zero : y = 0#w
    · subst zero
      simp [Op.denote, applyBinop]
    · simp only [Op.denote, if_neg zero]
      exact sdiv_to_int pos s x y zero
  | rem =>
    by_cases zero : y = 0#w
    · subst zero
      simp [Op.denote, applyBinop]
    · have divisor : y.toInt ≠ 0 := mt (zero_to_int y).mp zero
      simp only [Op.denote, applyBinop, if_neg zero, if_neg divisor, toInt_srem]
      split
      · rename_i minus
        rw [minus, Int.tmod_neg, Int.tmod_one]
      · rename_i proper
        rw [remainder, if_neg (by simp [divisor, proper])]
  | band => simp only [Op.denote, applyBinop, to_unsigned_to_int, ← toNat_and, wrap_to_nat pos]
  | bxor => simp only [Op.denote, applyBinop, to_unsigned_to_int, ← toNat_xor, wrap_to_nat pos]
  | bor => simp only [Op.denote, applyBinop, to_unsigned_to_int, ← toNat_or, wrap_to_nat pos]
  | shl =>
    by_cases outside : y.toInt < 0 ∨ w ≤ y.toInt
    · simp only [Op.denote, applyBinop, if_pos outside]
    · simp only [Op.denote, applyBinop, if_neg outside, shiftLeft, to_unsigned_to_int, ← toNat_shiftLeft,
        wrap_to_nat pos]
  | shr =>
    by_cases outside : y.toInt < 0 ∨ w ≤ y.toInt
    · simp only [Op.denote, applyBinop, if_pos outside]
    · simp only [Op.denote, applyBinop, if_neg outside, shiftRight, toInt_sshiftRight]
  | lt => simp only [Op.denote, applyBinop, ← flag_to_int wide, slt_eq_decide]
  | gt => simp only [Op.denote, applyBinop, ← flag_to_int wide, slt_eq_decide, gt_iff_lt]
  | le => simp only [Op.denote, applyBinop, ← flag_to_int wide, sle_eq_decide]
  | ge => simp only [Op.denote, applyBinop, ← flag_to_int wide, sle_eq_decide, ge_iff_le]
  | eq =>
    simp only [Op.denote, applyBinop, ← flag_to_int wide, toInt_inj]
    rfl
  | ne =>
    simp only [Op.denote, applyBinop, ← flag_to_int wide, toInt_inj, ne_eq]
    rw [show (x != y) = decide (¬ x = y) by rw [bne, decide_not]; rfl]

end

def Represents (w : Nat) (env : Env) (store : Store w) : Prop :=
  ∀ name, (env name = none ∧ store name = none) ∨
    ∃ val x, env name = some val ∧ store name = some x ∧ parseIntConst w val = some x.toInt

structure Agrees {w : Nat} (s : State) (store : Store w) : Prop where
  live : s.live = true
  clear : s.err = none
  granted : ∀ k, s.grants k = true
  represents : Represents w s.env store

def Refines {w : Nat} (ran : Int × State) (spec : Except Wrde (BitVec w × Store w)) : Prop :=
  match spec with
  | .ok (x, store) => ran.1 = x.toInt ∧ Agrees ran.2 store
  | .error code => ran.2.err = some code

theorem parse_format {w : Nat} (pos : 0 < w) (narrow : w ≤ 64) (x : BitVec w) :
    parseIntConst w (formatLong x.toInt) = some x.toInt := by
  have low : -(2 ^ (w - 1) : Nat) ≤ x.toInt := by exact_mod_cast x.le_toInt
  have high : x.toInt < (2 ^ (w - 1) : Nat) := by exact_mod_cast (toInt_lt : x.toInt < _)
  have read := Strtol.strtol_printed w pos narrow low high
  have solid : ∃ c rest, formatLong x.toInt = c :: rest ∧ isWs c = false := by
    unfold formatLong
    split
    · exact ⟨45, _, rfl, by decide⟩
    · obtain ⟨c, rest, shape, digit⟩ := Decimal.digits_cons x.toInt.natAbs
      have digit : Ctype.isdigit c = true := by
        rw [Ctype.isdigit_iff]
        simpa [Decimal.isDigit] using digit
      exact ⟨c, rest, shape, ((byte_classes c).1 digit).2.1.1⟩
  obtain ⟨c, rest, shape, solid⟩ := solid
  have unskipped : skipWs (formatLong x.toInt) = formatLong x.toInt := by rw [shape, skip_ws_stop rest solid]
  have nonempty : formatLong x.toInt ≠ [] := by rw [shape]; exact List.cons_ne_nil c rest
  simp only [parseIntConst, unskipped, if_neg nonempty]
  rw [show Strtol.strtol w (formatLong x.toInt) 0 = (x.toInt, []) from read]
  rfl

theorem fail_live_clear {s : State} {code : Wrde} (live : s.live = true) (clear : s.err = none) :
    (s.fail code).err = some code := by
  simp [State.fail, live, clear]

theorem enter_same (s : State) (live : Bool) (same : s.live = live) : s.enter live = s := by
  subst same
  rfl

section
variable {w : Nat} (wide : 2 ≤ w) (narrow : w ≤ 64)
variable {s : State}
theorem read_var_refines (store : Store w) (name : Bytes) (agrees : Agrees s store) :
    Refines (readVar w s name) (do let x ← store.read s.undef name; return (x, store)) := by
  obtain ⟨unset, absent⟩ | ⟨val, x, set, present, parsed⟩ := agrees.represents name
  · simp only [readVar, unset, Store.read, absent]
    cases s.undef with
    | true => exact fail_live_clear agrees.live agrees.clear
    | false => exact ⟨(zero_to_int 0#w).mpr rfl |>.symm, agrees⟩
  · simp only [readVar, set, parsed, Store.read, present]
    exact ⟨rfl, agrees⟩

theorem assign_var_agrees (pos : 0 < w) (narrow : w ≤ 64) {s : State} {store : Store w} (name : Bytes) (x : BitVec w)
    (agrees : Agrees s store) : Agrees (assignVar s name x.toInt) (store.write name x) := by
  rw [assignVar, agrees.live, Bool.not_true, if_neg Bool.false_ne_true, agrees.granted, if_pos rfl]
  refine ⟨rfl, agrees.clear, agrees.granted, fun other => ?_⟩
  by_cases same : nameEq other name = true
  · exact .inr ⟨formatLong x.toInt, x, if_pos same, if_pos same, parse_format pos narrow x⟩
  · simp only [setenv, Store.write, if_neg same]
    exact agrees.represents other

theorem skipped_agrees {s' : State} {store : Store w} (agrees : Agrees s store) (acts : Acts (s.enter false) s') :
    Agrees (s'.enter true) store := by
  obtain ⟨env, err⟩ := acts_dead acts rfl
  obtain ⟨_, grants⟩ := acts_frame acts
  refine ⟨rfl, err.trans agrees.clear, fun k => ?_, ?_⟩
  · rw [show (s'.enter true).grants = s'.grants from rfl, grants]
    exact agrees.granted k
  · rw [show (s'.enter true).env = s'.env from rfl, env]
    exact agrees.represents

theorem error_refines {ran : Int × State} {s : State} {code : Wrde} (set : s.err = some code) (acts : Acts s ran.2) :
    ran.2.err = some code := acts_kept acts code set

include wide in
theorem apply_binop_refines (store : Store w) (op : Op) (x y : BitVec w) (agrees : Agrees s store) :
    Refines (applyBinop w s op x.toInt y.toInt) (do let z ← defined (op.denote x y); return (z, store)) := by
  have denoted := apply_binop_denote wide s op x y
  generalize op.denote x y = result at denoted ⊢
  cases result with
  | some z =>
    rw [show applyBinop w s op x.toInt y.toInt = (z.toInt, s) from denoted]
    exact ⟨rfl, agrees⟩
  | none =>
    rw [show applyBinop w s op x.toInt y.toInt = (0, s.fail .syntaxError) from denoted]
    exact fail_live_clear agrees.live agrees.clear

include wide narrow in
theorem store_refines (store' : Store w) (name : Bytes) (op : Op) (y : BitVec w) (agrees : Agrees s store') :
    Refines (store w s name op y.toInt) (do
      let x ← if op = .assign then .ok 0#w else store'.read s.undef name
      let z ← defined (op.denote x y)
      return (z, store'.write name z)) := by
  have written : ∀ (s : State) (cur : BitVec w), Agrees s store' →
      Refines ((applyBinop w s op cur.toInt y.toInt).1,
          assignVar (applyBinop w s op cur.toInt y.toInt).2 name (applyBinop w s op cur.toInt y.toInt).1)
        (do let z ← defined (op.denote cur y); return (z, store'.write name z)) := by
    intro s cur agrees
    have applied := apply_binop_refines wide _ op cur y agrees
    cases result : op.denote cur y with
    | some z =>
      rw [result] at applied
      obtain ⟨value, kept⟩ := applied
      rw [value]
      exact ⟨rfl, assign_var_agrees (by omega) narrow name z kept⟩
    | none =>
      rw [result] at applied
      exact error_refines applied (.assign _ name _)
  by_cases plain : op = .assign
  · simp only [store, if_pos plain]
    have zero : (0 : Int) = (0#w).toInt := ((zero_to_int 0#w).mpr rfl).symm
    rw [zero]
    exact written s 0#w agrees
  · simp only [store, if_neg plain]
    have read := read_var_refines _ name agrees
    cases found : store'.read s.undef name with
    | ok x =>
      rw [found] at read
      obtain ⟨value, kept⟩ := read
      rw [value]
      exact written _ x kept
    | error code =>
      rw [found] at read
      exact error_refines read (.next _ _ _ (apply_binop_acts w _ op _ _) (.assign _ name _))

theorem refines_then (first : Int × State) (spec : Except Wrde (BitVec w × Store w)) (ran : Int × State)
    (next : BitVec w × Store w → Except Wrde (BitVec w × Store w)) (refined : Refines first spec)
    (acts : Acts first.2 ran.2)
    (goes_on : ∀ x store, first.1 = x.toInt → Agrees first.2 store → Refines ran (next (x, store))) :
    Refines ran (spec >>= next) := by
  cases spec with
  | ok result => exact goes_on result.1 result.2 refined.1 refined.2
  | error code => exact error_refines refined acts

include wide in
theorem const_refines (magnitude : Nat) :
    clampLong w false magnitude = (BitVec.ofNat w (min magnitude (longMax w))).toInt := by
  have double := Strtol.half_double w (by omega)
  have small : 2 * min magnitude (longMax w) < 2 ^ w := by
    unfold longMax
    have := Nat.two_pow_pos (w - 1)
    omega
  rw [clampLong, if_neg Bool.false_ne_true, toInt_eq_toNat_cond, toNat_ofNat,
    Nat.mod_eq_of_lt (by omega), if_pos small]

theorem run_undef (e : Expr) (s : State) : (e.run w s).2.undef = s.undef := (acts_frame (run_acts w e s)).1

include wide in
theorem join_needed {op : Logic} {v : Int} (y : BitVec w) (needed : op.needs v = true) :
    op.join v y.toInt = (flag w (y != 0#w)).toInt := by
  have same : (y != 0#w) = decide (y.toInt ≠ 0) := by
    rw [Bool.eq_iff_iff]
    simp [zero_to_int]
  rw [← flag_to_int wide, same]
  cases op with
  | land =>
    have nonzero : v ≠ 0 := of_decide_eq_true needed
    simp only [Logic.join, nonzero, ne_eq, not_false_eq_true, true_and]
  | lor =>
    have zero : v = 0 := of_decide_eq_true needed
    simp only [Logic.join, zero, ne_eq, not_true_eq_false, false_or]

include wide in
theorem needed_refines {op : Logic} {left right : Expr} {s : State} {store : Store w} (agrees : Agrees (left.run w s).2 store)
    (needed : op.needs (left.run w s).1 = true)
    (ihRight : ∀ (s : State) (store : Store w), Agrees s store → Refines (right.run w s) (right.eval s.undef store)) :
    Refines ((Expr.logic op left right).run w s)
      (right.eval s.undef store >>= fun result => .ok (flag w (result.1 != 0#w), result.2)) := by
  have refined := ihRight (left.run w s).2 store agrees
  rw [run_undef] at refined
  simp only [Expr.run, needed, agrees.live, Bool.and_self]
  rw [enter_same (left.run w s).2 true agrees.live]
  have live : (right.run w (left.run w s).2).2.live = true := (acts_live (run_acts w right _)).trans agrees.live
  rw [enter_same _ true live]
  refine refines_then (right.run w (left.run w s).2) _ _ _ refined (.same _) ?_
  intro y store value kept
  refine ⟨?_, kept⟩
  rw [value]
  exact join_needed wide y needed

theorem unneeded_agrees {op : Logic} {left : Expr} {right : Expr} {s : State} {store : Store w}
    (agrees : Agrees (left.run w s).2 store) (unneeded : op.needs (left.run w s).1 = false) :
    Agrees ((Expr.logic op left right).run w s).2 store := by
  have acts := run_acts w right ((left.run w s).2.enter false)
  simp only [Expr.run, unneeded, agrees.live, and_false]
  exact skipped_agrees agrees acts

include wide in
theorem logic_refines (op : Logic) (left right : Expr) (s : State) (store : Store w) (agrees : Agrees s store)
    (ihLeft : ∀ (s : State) (store : Store w), Agrees s store → Refines (left.run w s) (left.eval s.undef store))
    (ihRight : ∀ (s : State) (store : Store w), Agrees s store → Refines (right.run w s) (right.eval s.undef store)) :
    Refines ((Expr.logic op left right).run w s) ((Expr.logic op left right).eval s.undef store) := by
  have guarded : Acts (left.run w s).2 ((Expr.logic op left right).run w s).2 :=
    .guarded _ _ _ (and_narrows _ _) (run_acts w right _)
  cases op with
  | land =>
    refine refines_then (left.run w s) _ _ _ (ihLeft s store agrees) guarded ?_
    intro x store' value kept
    by_cases zero : x = 0#w
    · have unneeded : Logic.land.needs (left.run w s).1 = false := by simp [Logic.needs, value, zero]
      simp only [if_pos zero]
      refine ⟨?_, unneeded_agrees kept unneeded⟩
      simp [Expr.run, Logic.join, value, zero, truth]
    · simp only [if_neg zero]
      exact needed_refines wide kept (by simp [Logic.needs, value, zero_to_int, zero]) ihRight
  | lor =>
    refine refines_then (left.run w s) _ _ _ (ihLeft s store agrees) guarded ?_
    intro x store' value kept
    by_cases zero : x = 0#w
    · simp only [ne_eq, zero, not_true_eq_false, if_false]
      exact needed_refines wide kept (by simp [Logic.needs, value, zero]) ihRight
    · have unneeded : Logic.lor.needs (left.run w s).1 = false := by simp [Logic.needs, value, zero_to_int, zero]
      simp only [ne_eq, zero, not_false_eq_true, if_true]
      refine ⟨?_, unneeded_agrees kept unneeded⟩
      have one := flag_to_int wide true
      simp only [Expr.run, Logic.join, value, ne_eq, zero_to_int, zero, not_false_eq_true, true_or, decide_true]
      exact one

theorem cond_refines (test yes no : Expr) (s : State) (store : Store w) (agrees : Agrees s store)
    (ihTest : ∀ (s : State) (store : Store w), Agrees s store → Refines (test.run w s) (test.eval s.undef store))
    (ihYes : ∀ (s : State) (store : Store w), Agrees s store → Refines (yes.run w s) (yes.eval s.undef store))
    (ihNo : ∀ (s : State) (store : Store w), Agrees s store → Refines (no.run w s) (no.eval s.undef store)) :
    Refines ((Expr.cond test yes no).run w s) ((Expr.cond test yes no).eval s.undef store) := by
  have acts : Acts (test.run w s).2 ((Expr.cond test yes no).run w s).2 := by
    have first := Acts.guarded (test.run w s).2 _ _ (and_narrows _ (decide ((test.run w s).1 ≠ 0))) (run_acts w yes _)
    have second := Acts.guarded
      ((yes.run w ((test.run w s).2.enter ((test.run w s).2.live && decide ((test.run w s).1 ≠ 0)))).2.enter
        (test.run w s).2.live) _ _ (and_narrows _ (decide ((test.run w s).1 = 0))) (run_acts w no _)
    exact .next _ _ _ first second
  refine refines_then (test.run w s) _ _ _ (ihTest s store agrees) acts ?_
  intro x store' value kept
  have undef : (test.run w s).2.undef = s.undef := run_undef test s
  by_cases zero : x = 0#w
  · have absent : (test.run w s).1 = 0 := value.trans ((zero_to_int x).mpr zero)
    have ran : (Expr.cond test yes no).run w s =
        ((no.run w ((yes.run w ((test.run w s).2.enter false)).2.enter true)).1,
          (no.run w ((yes.run w ((test.run w s).2.enter false)).2.enter true)).2.enter true) := by
      simp [Expr.run, absent, kept.live]
    have skipped := skipped_agrees kept (run_acts w yes ((test.run w s).2.enter false))
    have refined := ihNo _ store' skipped
    have same : ((yes.run w ((test.run w s).2.enter false)).2.enter true).undef = s.undef :=
      (run_undef yes _).trans undef
    rw [same] at refined
    rw [ran, enter_same _ true ((acts_live (run_acts w no _)).trans rfl)]
    simp only [ne_eq, zero, not_true_eq_false, if_false]
    exact refined
  · have present : (test.run w s).1 ≠ 0 := fun absent => zero ((zero_to_int x).mp (value.symm.trans absent))
    have ran : (Expr.cond test yes no).run w s = ((yes.run w (test.run w s).2).1,
        (no.run w ((yes.run w (test.run w s).2).2.enter false)).2.enter true) := by
      simp [Expr.run, present, kept.live, enter_same _ true kept.live]
    have refined := ihYes _ store' kept
    rw [undef] at refined
    have dead := run_acts w no ((yes.run w (test.run w s).2).2.enter false)
    rw [ran]
    simp only [ne_eq, zero, not_false_eq_true, if_true]
    cases outcome : yes.eval s.undef store' with
    | ok result =>
      rw [outcome] at refined
      exact ⟨refined.1, skipped_agrees refined.2 dead⟩
    | error code =>
      rw [outcome] at refined
      have kept := (acts_dead dead rfl).2
      exact kept.trans refined

include wide narrow in
theorem run_refines (e : Expr) (s : State) (store : Store w) (agrees : Agrees s store) :
    Refines (e.run w s) (e.eval s.undef store) := by
  induction e generalizing s store with
  | const magnitude => exact ⟨const_refines wide magnitude, agrees⟩
  | var name => exact read_var_refines store name agrees
  | unary op operand ih =>
    refine refines_then (operand.run w s) _ _ _ (ih s store agrees) (.same _) ?_
    intro x store' value kept
    refine ⟨?_, kept⟩
    rw [← un_op_denote wide, ← value]
    rfl
  | binary op left right ihLeft ihRight =>
    have acts := run_acts w right (left.run w s).2
    have joined := apply_binop_acts w (right.run w (left.run w s).2).2 op (left.run w s).1
      (right.run w (left.run w s).2).1
    refine refines_then (left.run w s) _ _ _ (ihLeft s store agrees) (.next _ _ _ acts joined) ?_
    intro x store' value kept
    have second := ihRight (left.run w s).2 store' kept
    rw [run_undef] at second
    refine refines_then (right.run w (left.run w s).2) _ _ _ second joined ?_
    intro y store'' value' kept'
    have applied := apply_binop_refines wide store'' op x y kept'
    simp only [Expr.run, value, value']
    exact applied
  | logic op left right ihLeft ihRight => exact logic_refines wide op left right s store agrees ihLeft ihRight
  | cond test yes no ihTest ihYes ihNo => exact cond_refines test yes no s store agrees ihTest ihYes ihNo
  | assign name op value ih =>
    have written := store_acts w (value.run w s).2 name op (value.run w s).1
    refine refines_then (value.run w s) _ _ _ (ih s store agrees) written ?_
    intro y store' given kept
    have stored := store_refines wide narrow store' name op y kept
    rw [run_undef] at stored
    simp only [Expr.run, given]
    exact stored
  | comma first last ihFirst ihLast =>
    refine refines_then (first.run w s) _ _ _ (ihFirst s store agrees) (run_acts w last _) ?_
    intro x store' value kept
    have second := ihLast (first.run w s).2 store' kept
    rw [run_undef] at second
    exact second

end

def skippable (w depth fuel : Nat) : List Level :=
  [arithBor w (arithAssign w depth) fuel, arithLand w (arithAssign w depth) fuel, arithAssign w depth,
    arithCond w (arithAssign w depth) depth fuel]

theorem skippable_acts {w depth fuel : Nat} {level : Level} (listed : level ∈ skippable w depth fuel) : Acting level := by
  have inner := assign_acts w depth
  simp only [skippable, List.mem_cons, List.not_mem_nil, or_false] at listed
  obtain rfl | rfl | rfl | rfl := listed
  · exact bor_acts w _ inner fuel
  · exact land_acts w _ inner fuel
  · exact inner
  · exact cond_acts w _ inner

end Spicule.Arith
