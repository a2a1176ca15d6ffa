import Spicule.Arith.Grammar

namespace Spicule.Arith
open List
open Strtol (Bytes)

inductive Acts : State → State → Prop where
  | same (s : State) : Acts s s
  | fail (s : State) (code : Wrde) : Acts s (s.fail code)
  | malformed (s : State) : Acts s s.malformed
  | assign (s : State) (name : Bytes) (v : Int) : Acts s (assignVar s name v)
  -- an operand with `live` narrowed and then restored
  | guarded (s s' : State) (live : Bool) (narrows : live = true → s.live = true) (within : Acts (s.enter live) s') :
      Acts s (s'.enter s.live)
  | next (a b c : State) (first : Acts a b) (second : Acts b c) : Acts a c

variable {code : Wrde}
theorem fail_live (s : State) : (s.fail code).live = s.live := by
  unfold State.fail
  split <;> rfl

theorem assign_var_live {s : State} {name : Bytes} {v : Int} : (assignVar s name v).live = s.live := by
  unfold assignVar
  split
  · rfl
  · split
    · rfl
    · exact fail_live _

variable {s : State} {s' : State}
theorem acts_live (acts : Acts s s') : s'.live = s.live := by
  induction acts with
  | same | guarded => rfl
  | fail s code => exact fail_live s
  | malformed s => exact fail_live s
  | assign s name v => exact assign_var_live
  | next a b c first second ihFirst ihSecond => rw [ihSecond, ihFirst]

theorem fail_dead (dead : s.live = false) : s.fail code = s := by
  rw [State.fail, dead, Bool.false_and, if_neg Bool.false_ne_true]

theorem acts_dead (acts : Acts s s') (dead : s.live = false) : s'.env = s.env ∧ s'.err = s.err := by
  induction acts with
  | same s => exact ⟨rfl, rfl⟩
  | fail s code =>
    rw [fail_dead dead]
    exact ⟨rfl, rfl⟩
  | malformed s =>
    rw [State.malformed, fail_dead dead]
    exact ⟨rfl, rfl⟩
  | assign s name v =>
    rw [assignVar, dead, Bool.not_false, if_pos rfl]
    exact ⟨rfl, rfl⟩
  | guarded s s' live narrows within ih =>
    cases live with
    | true => exact absurd (narrows rfl) (by rw [dead]; exact Bool.false_ne_true)
    | false => exact ih rfl
  | next a b c first second ihFirst ihSecond =>
    obtain ⟨env₁, err₁⟩ := ihFirst dead
    obtain ⟨env₂, err₂⟩ := ihSecond ((acts_live first).trans dead)
    exact ⟨env₂.trans env₁, err₂.trans err₁⟩

theorem acts_faulted (acts : Acts s s') : s'.faulted = s.faulted := by
  have failed : ∀ (s : State) (code : Wrde), (s.fail code).faulted = s.faulted := by
    intro s code
    unfold State.fail
    split <;> rfl
  induction acts with
  | same s => rfl
  | fail s code => exact failed s code
  | malformed s => exact failed s .syntaxError
  | assign s name v =>
    unfold assignVar
    split
    · rfl
    · split
      · rfl
      · exact failed _ .nospace
  | guarded s s' live narrows within ih => exact ih
  | next a b c first second ihFirst ihSecond => rw [ihSecond, ihFirst]

theorem fail_err_some (set : s.err.isSome = true) : (s.fail code).err.isSome = true := by
  unfold State.fail
  split
  · rfl
  · exact set

theorem acts_err (acts : Acts s s') : (s.err.isSome = true → s'.err.isSome = true) ∧
      ∃ new, s'.errors = new ++ s.errors ∧ (true ∈ new → s'.err.isSome = true) := by
  have failed : ∀ (s : State) (code : Wrde), (s.fail code).errors = s.errors := by
    intro s code
    unfold State.fail
    split <;> rfl
  induction acts with
  | same s => exact ⟨id, [], rfl, fun mem => absurd mem not_mem_nil⟩
  | fail s code => exact ⟨fail_err_some, [], failed s code, fun mem => absurd mem not_mem_nil⟩
  | malformed s =>
    refine ⟨fail_err_some, [s.live], rfl, fun mem => ?_⟩
    have live : s.live = true := (mem_singleton.mp mem).symm
    cases set : s.err with
    | none => simp [State.malformed, State.fail, live, set]
    | some code => exact fail_err_some (by rw [set]; rfl)
  | assign s name v =>
    have kept : (assignVar s name v).errors = s.errors ∧
        (s.err.isSome = true → (assignVar s name v).err.isSome = true) := by
      unfold assignVar
      split
      · exact ⟨rfl, id⟩
      · split
        · exact ⟨rfl, id⟩
        · exact ⟨failed _ .nospace, fun set => fail_err_some set⟩
    exact ⟨kept.2, [], kept.1, fun mem => absurd mem not_mem_nil⟩
  | guarded s s' live narrows within ih => exact ih
  | next a b c first second ihFirst ihSecond =>
    obtain ⟨stays₁, new₁, grown₁, set₁⟩ := ihFirst
    obtain ⟨stays₂, new₂, grown₂, set₂⟩ := ihSecond
    refine ⟨fun set => stays₂ (stays₁ set), new₂ ++ new₁, by rw [grown₂, grown₁, append_assoc], ?_⟩
    intro mem
    cases mem_append.mp mem with
    | inl late => exact set₂ late
    | inr early => exact stays₂ (set₁ early)

theorem fail_kept {first : Wrde} (set : s.err = some first) : (s.fail code).err = some first := by
  rw [State.fail, set, Option.isNone_some, Bool.and_false, if_neg Bool.false_ne_true]
  exact set

theorem acts_kept (acts : Acts s s') (first : Wrde) (set : s.err = some first) : s'.err = some first := by
  induction acts with
  | same s => exact set
  | fail s code => exact fail_kept set
  | malformed s => exact fail_kept set
  | assign s name v =>
    unfold assignVar
    split
    · exact set
    · split
      · exact set
      · exact fail_kept set
  | guarded s s' live narrows within ih => exact ih set
  | next a b c first second ihFirst ihSecond => exact ihSecond (ihFirst set)

theorem acts_frame (acts : Acts s s') : s'.undef = s.undef ∧ s'.grants = s.grants := by
  have failed : ∀ (s : State) (code : Wrde), (s.fail code).undef = s.undef ∧ (s.fail code).grants = s.grants := by
    intro s code
    unfold State.fail
    split <;> exact ⟨rfl, rfl⟩
  induction acts with
  | same s => exact ⟨rfl, rfl⟩
  | fail s code => exact failed s code
  | malformed s => exact failed s .syntaxError
  | assign s name v =>
    unfold assignVar
    split
    · exact ⟨rfl, rfl⟩
    · split
      · exact ⟨rfl, rfl⟩
      · exact failed _ .nospace
  | guarded s s' live narrows within ih => exact ih
  | next a b c first second ihFirst ihSecond =>
    exact ⟨ihSecond.1.trans ihFirst.1, ihSecond.2.trans ihFirst.2⟩

theorem read_var_acts {w : Nat} {s : State} {name : Bytes} : Acts s (readVar w s name).2 := by
  unfold readVar
  split
  · split
    · exact .fail s .badval
    · exact .same s
  · split
    · exact .fail s .syntaxError
    · exact .same s

theorem apply_binop_acts (w : Nat) (s : State) (op : Op) (cur rhs : Int) : Acts s (applyBinop w s op cur rhs).2 := by
  have refused := Acts.fail s .syntaxError
  have kept := Acts.same s
  cases op with
  | div =>
    simp only [applyBinop]
    split
    · exact refused
    · rename_i nonzero
      split
      · exact kept
      · rename_i proper
        rw [quotient, if_neg (by simp [nonzero, proper])]
        exact kept
  | rem =>
    simp only [applyBinop]
    split
    · exact refused
    · rename_i nonzero
      split
      · exact kept
      · rename_i proper
        rw [remainder, if_neg (by simp [nonzero, proper])]
        exact kept
  | shl =>
    simp only [applyBinop]
    split
    · exact refused
    · rename_i inside
      rw [shiftLeft, if_neg inside]
      exact kept
  | shr =>
    simp only [applyBinop]
    split
    · exact refused
    · rename_i inside
      rw [shiftRight, if_neg inside]
      exact kept
  | _ => exact kept

theorem store_acts (w : Nat) (s : State) (name : Bytes) (op : Op) (rhs : Int) : Acts s (store w s name op rhs).2 := by
  have written : ∀ (a : State) (cur : Int), Acts a
      (assignVar (applyBinop w a op cur rhs).2 name (applyBinop w a op cur rhs).1) := fun a cur =>
    .next _ _ _ (apply_binop_acts w a op cur rhs) (.assign _ name _)
  by_cases plain : op = .assign
  · simp only [store, if_pos plain]
    exact written s 0
  · simp only [store, if_neg plain]
    exact .next _ _ _ (read_var_acts) (written _ _)

theorem and_narrows (live other : Bool) : (live && other) = true → live = true :=
  fun both => (Bool.and_eq_true_iff.mp both).1

theorem run_acts (w : Nat) (e : Expr) (s : State) : Acts s (e.run w s).2 := by
  induction e generalizing s with
  | const magnitude => exact .same s
  | var name => exact read_var_acts
  | unary op operand ih => exact ih s
  | binary op left right ihLeft ihRight =>
    exact .next _ _ _ (ihLeft s) (.next _ _ _ (ihRight _) (apply_binop_acts w _ op _ _))
  | logic op left right ihLeft ihRight =>
    exact .next _ _ _ (ihLeft s) (.guarded _ _ _ (and_narrows _ _) (ihRight _))
  | cond test yes no ihTest ihYes ihNo =>
    have first := Acts.guarded (test.run w s).2 _ _ (and_narrows _ (decide ((test.run w s).1 ≠ 0))) (ihYes _)
    have second := Acts.guarded
      ((yes.run w ((test.run w s).2.enter ((test.run w s).2.live && decide ((test.run w s).1 ≠ 0)))).2.enter
        (test.run w s).2.live) _ _ (and_narrows _ (decide ((test.run w s).1 = 0))) (ihNo _)
    exact .next _ _ _ (ihTest s) (.next _ _ _ first second)
  | assign name op value ih => exact .next _ _ _ (ih s) (store_acts w _ name op _)
  | comma first last ihFirst ihLast => exact .next _ _ _ (ihFirst s) (ihLast _)

def Acting (level : Level) : Prop := ∀ a : Parser, Acts a.toState (level a).2.toState

theorem expect_acts (c : UInt8) (a : Parser) : Acts a.toState (expect c a).toState := by
  unfold expect
  split
  · exact .malformed a.toState
  · split
    · exact .same a.toState
    · exact .malformed a.toState

section
variable (w : Nat) (assign : Level)
theorem primary_acts (inner : Acting assign) : Acting (arithPrimary w assign) := by
  intro a
  unfold arithPrimary
  split
  · exact .malformed a.toState
  · rename_i c rest shape
    split
    · exact .next _ _ _ (inner (a.goto rest)) (expect_acts 41 _)
    · split
      · split
        · exact .malformed a.toState
        · exact read_var_acts
      · split
        · split
          · exact .malformed a.toState
          · exact read_var_acts
        · split
          · exact .same a.toState
          · exact .malformed a.toState

theorem unary_acts (inner : Acting (arithPrimary w assign)) (fuel : Nat) : Acting (arithUnary w assign fuel) := by
  induction fuel with
  | zero => exact fun a => .malformed a.toState
  | succ fuel ih =>
    intro a
    unfold arithUnary
    split
    · rename_i op rest matched
      exact ih (a.goto rest)
    · exact inner (a.goto (skipWs a.p))

theorem bin_level_acts {operator : Bytes → Option (Op × Bytes)} {operand : Level} (inner : Acting operand) {fuel : Nat} :
    Acting (binLevel w operator operand fuel) := by
  have looping : ∀ fuel v, Acting (binLoop w operator operand fuel v) := by
    intro fuel
    induction fuel with
    | zero => exact fun v a => .malformed a.toState
    | succ fuel ih =>
      intro v a
      unfold binLoop
      split
      · exact .same a.toState
      · rename_i op rest matched
        have joined := apply_binop_acts w (operand (a.goto rest)).2.toState op v (operand (a.goto rest)).1
        exact .next _ _ _ (inner (a.goto rest)) (.next _ _ _ joined (ih _ ⟨_, (operand (a.goto rest)).2.p⟩))
  exact fun a => .next _ _ _ (inner a) (looping fuel _ _)

theorem logic_level_acts {logic : Logic} {operand : Level} (inner : Acting operand) {fuel : Nat} :
    Acting (logicLevel logic operand fuel) := by
  have looping : ∀ fuel v, Acting (logicLoop logic operand fuel v) := by
    intro fuel
    induction fuel with
    | zero => exact fun v a => .malformed a.toState
    | succ fuel ih =>
      intro v a
      unfold logicLoop
      split
      · exact .same a.toState
      · rename_i rest matched
        have skipped := Acts.guarded a.toState _ _ (and_narrows a.live (logic.needs v))
          (inner ((a.goto rest).enter (a.live && logic.needs v)))
        exact .next _ _ _ skipped (ih _ ((operand ((a.goto rest).enter (a.live && logic.needs v))).2.enter a.live))
  exact fun a => .next _ _ _ (inner a) (looping fuel _ _)

section
variable (inner : Acting assign) (fuel : Nat)
include inner fuel

theorem mul_acts : Acting (arithMul w assign fuel) :=
  bin_level_acts w (unary_acts w assign (primary_acts w assign inner) fuel)

theorem bor_acts : Acting (arithBor w assign fuel) :=
  bin_level_acts w (bin_level_acts w (bin_level_acts w (bin_level_acts w
    (bin_level_acts w (bin_level_acts w (bin_level_acts w (mul_acts w assign inner fuel)))))))

theorem land_acts : Acting (arithLand w assign fuel) := logic_level_acts (bor_acts w assign inner fuel)

theorem lor_acts : Acting (arithLor w assign fuel) := logic_level_acts (land_acts w assign inner fuel)

end

theorem cond_acts (inner : Acting assign) {depth fuel : Nat} : Acting (arithCond w assign depth fuel) := by
  induction fuel with
  | zero => exact fun a => .malformed a.toState
  | succ fuel ih =>
    intro a
    have tested := lor_acts w assign inner depth a
    unfold arithCond
    generalize arithLor w assign depth a = test at tested
    obtain ⟨c, b⟩ := test
    simp only
    split
    · exact tested
    · rename_i rest matched
      have taken := inner ((b.goto rest).enter (b.live && decide (c ≠ 0)))
      generalize assign ((b.goto rest).enter (b.live && decide (c ≠ 0))) = yes at taken
      have first := Acts.guarded b.toState _ _ (and_narrows b.live (decide (c ≠ 0)))
        (.next _ _ _ taken (expect_acts 58 yes.2))
      have second := Acts.guarded ((expect 58 yes.2).toState.enter b.live) _ _ (and_narrows b.live (decide (c = 0)))
        (ih ((expect 58 yes.2).enter (b.live && decide (c = 0))))
      exact .next _ _ _ tested (.next _ _ _ first second)

end

theorem assign_acts (w fuel : Nat) : Acting (arithAssign w fuel) := by
  induction fuel with
  | zero => exact fun a => .malformed a.toState
  | succ fuel ih =>
    intro a
    unfold arithAssign
    split
    · rename_i name op rest found
      exact .next _ _ _ (ih (a.goto rest)) (store_acts w _ name op _)
    · exact cond_acts w _ ih a

theorem comma_acts (w fuel : Nat) : Acting (arithComma w fuel) := by
  have looping : ∀ left v, Acting (commaLoop (arithAssign w fuel) left v) := by
    intro left
    induction left with
    | zero => exact fun v a => .malformed a.toState
    | succ left ih =>
      intro v a
      unfold commaLoop
      split
      · exact .same a.toState
      · rename_i rest matched
        exact .next _ _ _ (assign_acts w fuel (a.goto rest)) (ih _ _)
  exact fun a => .next _ _ _ (assign_acts w fuel a) (looping fuel _ _)

theorem wordexp_arith_acts {w : Nat} {call : Call} {expr : Bytes} :
    Acts call.start (wordexpArith w call expr).final :=
  comma_acts w (expr.length + 2) ⟨call.start, expr⟩

end Spicule.Arith
