import Spicule.Arith.Recognize
import Spicule.Arith.Effects
import Spicule.Arith.Blanks

namespace Spicule.Arith
open Strtol (Bytes)

def Grammatical (expr : Bytes) : Prop :=
  ∃ e pieces trail, Spells 14 e pieces ∧ Blank trail ∧ expr = text pieces ++ trail

def TightlyGrammatical (expr : Bytes) : Prop :=
  ∃ e pieces trail, Spells 14 e pieces ∧ Tight pieces ∧ Blank trail ∧ expr = text pieces ++ trail

def Outcome.Rejected (outcome : Outcome) : Prop := true ∈ outcome.final.errors ∨ outcome.rest ≠ []

instance (outcome : Outcome) : Decidable outcome.Rejected := inferInstanceAs (Decidable (_ ∨ _))

theorem run_errors (w : Nat) (e : Expr) (s : State) : (e.run w s).2.errors = s.errors := by
  induction e generalizing s with
  | const magnitude => rfl
  | var name => exact read_var_errors w s name
  | unary op operand ih => exact ih s
  | binary op left right ihLeft ihRight =>
    simp only [Expr.run, apply_binop_errors]
    rw [ihRight, ihLeft]
  | logic op left right ihLeft ihRight =>
    simp only [Expr.run]
    rw [State.enter, ihRight, State.enter, ihLeft]
  | cond test yes no ihTest ihYes ihNo =>
    simp only [Expr.run]
    rw [State.enter, ihNo, State.enter, ihYes, State.enter, ihTest]
  | assign name op value ih =>
    simp only [Expr.run, store_errors]
    exact ih s
  | comma first last ihFirst ihLast =>
    simp only [Expr.run]
    rw [ihLast, ihFirst]

theorem tight_iff {w : Nat} (pos : 0 < w) (narrow : w ≤ 64) {call : Call} {expr : Bytes} :
    (wordexpArith w call expr).final.errors = [] ∧ (wordexpArith w call expr).rest = [] ↔ TightlyGrammatical expr := by
  constructor
  · intro ⟨no_errors, all_read⟩
    obtain ⟨new, grown, spelled⟩ := comma_reads w pos narrow (expr.length + 2) call.start expr
    have none_new : new = [] := by
      have whole : new ++ [] = [] := grown.symm.trans no_errors
      rwa [List.append_nil] at whole
    obtain ⟨e, pieces, trail, derived, tight, split, reached⟩ := spelled none_new
    have read : skipWs (arithComma w (expr.length + 2) ⟨call.start, expr⟩).2.p = [] := all_read
    rw [reached, skip_after] at read
    obtain ⟨gap, blank, same⟩ := skip_ws_split trail
    rw [read, List.append_nil] at same
    exact ⟨e, pieces, trail, derived, tight, same ▸ blank, split⟩
  · rintro ⟨e, pieces, trail, spelled, tight, blank, rfl⟩
    rw [wordexp_arith_spelled pos narrow spelled tight blank]
    exact ⟨run_errors w e call.start, rfl⟩

theorem rejected_code {w : Nat} {call : Call} {expr : Bytes} (rejected : (wordexpArith w call expr).Rejected) :
    (wordexpArith w call expr).code ≠ none := by
  intro accepted
  have unset : (wordexpArith w call expr).final.err = none ∧ (wordexpArith w call expr).rest = [] := by
    simp only [wordexpArith] at accepted ⊢
    split at accepted
    · cases accepted
    · rename_i clear
      split at accepted
      · rename_i read
        exact ⟨clear, read⟩
      · cases accepted
  obtain ⟨_, new, grown, set⟩ := acts_err (wordexp_arith_acts)
  cases rejected with
  | inl live =>
    rw [grown, show call.start.errors = [] from rfl, List.append_nil] at live
    have raised := set live
    rw [unset.1] at raised
    cases raised
  | inr left => exact left unset.2

theorem rejected_iff {w : Nat} (pos : 0 < w) (narrow : w ≤ 64) {call : Call} {expr : Bytes}
    (seen : false ∉ (wordexpArith w call expr).final.errors) :
    (wordexpArith w call expr).Rejected ↔ ¬ TightlyGrammatical expr := by
  rw [← tight_iff pos narrow]
  unfold Outcome.Rejected
  cases errors : (wordexpArith w call expr).final.errors with
  | nil => simp
  | cons live earlier =>
    rw [errors] at seen
    cases live with
    | true => simp
    | false => exact absurd List.mem_cons_self seen

theorem rejection_value_free (long : Target) (call other : Call) (expr : Bytes)
    (seen : false ∉ (wordexpArith long.longBit call expr).final.errors)
    (seenOther : false ∉ (wordexpArith long.longBit other expr).final.errors) :
    ((wordexpArith long.longBit call expr).Rejected ↔ (wordexpArith long.longBit other expr).Rejected) ∧
      ((wordexpArith long.longBit call expr).Rejected → (wordexpArith long.longBit call expr).code ≠ none) ∧
      ((wordexpArith long.longBit call expr).code = none → Grammatical expr) := by
  obtain ⟨wide, narrow⟩ := long_bit_bounds long
  have pos : 0 < long.longBit := by omega
  have here := rejected_iff pos narrow seen
  have there := rejected_iff pos narrow seenOther
  refine ⟨here.trans there.symm, rejected_code, fun accepted => ?_⟩
  have kept : ¬ (wordexpArith long.longBit call expr).Rejected := fun rejected =>
    rejected_code rejected accepted
  obtain ⟨e, pieces, trail, spelled, _, blank, split⟩ := Classical.not_not.mp (mt here.mpr kept)
  exact ⟨e, pieces, trail, spelled, blank, split⟩

def callWith (x : Bytes) : Call :=
  { undef := false, env := fun name => if name = [120] then some x else none, grants := fun _ => true }

-- "x&&1" with x=0 and with x=1
theorem rejection_value_free_and :
    (wordexpArith 32 (callWith [48]) [120, 38, 38, 49]).Rejected ↔
      (wordexpArith 32 (callWith [49]) [120, 38, 38, 49]).Rejected :=
  (rejection_value_free .llp64 (callWith [48]) (callWith [49]) [120, 38, 38, 49] (by decide) (by decide)).1

-- "x&&(1" is accepted with x=0 and rejected with x=1, and "0&&)" is accepted with any.
theorem skipped_grammar_error :
    (wordexpArith 32 (callWith [48]) [120, 38, 38, 40, 49]).code = none ∧
      (wordexpArith 32 (callWith [49]) [120, 38, 38, 40, 49]).code = some .syntaxError ∧
      (wordexpArith 32 (callWith [49]) [120, 38, 38, 40, 49]).Rejected ∧
      (wordexpArith 32 emptyCall [48, 38, 38, 41]).code = none := by
  decide

end Spicule.Arith
