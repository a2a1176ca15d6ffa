import Spicule.Arith.Follow

namespace Spicule.Arith
open List
open Strtol (Bytes Constant)

def Widened (piece wider : Piece) : Prop :=
  wider.token = piece.token ∧ wider.target = piece.target ∧ piece.gap.Sublist wider.gap ∧ Blank wider.gap

def Inserted : List Piece → List Piece → Prop := List.Forall₂ Widened

theorem inserted_nil (wider : List Piece) (inserted : Inserted [] wider) : wider = [] :=
  forall₂_nil_left_iff.mp inserted

theorem inserted_cons (gap token : Bytes) (target : Bool) (pieces wider : List Piece)
    (inserted : Inserted (⟨gap, token, target⟩ :: pieces) wider) :
    ∃ gap' rest, wider = ⟨gap', token, target⟩ :: rest ∧ Blank gap' ∧ Inserted pieces rest := by
  obtain ⟨⟨gap', token', target'⟩, rest, ⟨rfl, rfl, _, blank⟩, behind, rfl⟩ := forall₂_cons_left_iff.mp inserted
  exact ⟨gap', rest, rfl, blank, behind⟩

theorem inserted_append (left right wider : List Piece) (inserted : Inserted (left ++ right) wider) :
    ∃ left' right', wider = left' ++ right' ∧ Inserted left left' ∧ Inserted right right' := by
  have whole := take_append_drop left.length wider
  have front := forall₂_take left.length inserted
  have back := forall₂_drop left.length inserted
  rw [take_left] at front
  rw [drop_left] at back
  exact ⟨_, _, whole.symm, front, back⟩

theorem spells_lift_to {n m : Nat} {e : Expr} {pieces : List Piece} (below : n ≤ m) (high : m ≤ 14)
    (spelled : Spells n e pieces) : Spells m e pieces := by
  induction below with
  | refl => exact spelled
  | step below ih => exact .lift _ e pieces (by omega) (ih (by omega))

theorem spells_inserted (n : Nat) (e : Expr) (pieces wider : List Piece) (spelled : Spells n e pieces)
    (inserted : Inserted pieces wider) : Spells n e wider := by
  induction spelled generalizing wider with
  | constant gap token magnitude blank constant =>
    obtain ⟨gap', rest, rfl, blank', behind⟩ := inserted_cons gap token false [] wider inserted
    rw [inserted_nil rest behind]
    exact .constant gap' token magnitude blank' constant
  | name gap dollar name blank named =>
    obtain ⟨gap', rest, rfl, blank', behind⟩ := inserted_cons gap _ false [] wider inserted
    rw [inserted_nil rest behind]
    exact .name gap' dollar name blank' named
  | paren gap close e inner blank blankClose spelled ih =>
    obtain ⟨gap', rest, rfl, blank', behind⟩ := inserted_cons gap _ false _ wider inserted
    obtain ⟨inner', closing, rfl, within, last⟩ := inserted_append inner _ rest behind
    obtain ⟨close', tail, rfl, blankClose', nothing⟩ := inserted_cons close _ false [] closing last
    rw [inserted_nil tail nothing]
    exact .paren gap' close' e inner' blank' blankClose' (ih inner' within)
  | unary gap op e operand blank spelled ih =>
    obtain ⟨gap', rest, rfl, blank', behind⟩ := inserted_cons gap _ false operand wider inserted
    exact .unary gap' op e rest blank' (ih rest behind)
  | lift n e pieces below spelled ih => exact .lift n e wider below (ih wider inserted)
  | binary n op l r left gap right level blank _ _ ihLeft ihRight =>
    obtain ⟨left', rest, rfl, within, behind⟩ := inserted_append left _ wider inserted
    obtain ⟨gap', right', rfl, blank', last⟩ := inserted_cons gap _ false right rest behind
    exact .binary n op l r left' gap' right' level blank' (ihLeft left' within) (ihRight right' last)
  | logic n op l r left gap right level blank _ _ ihLeft ihRight =>
    obtain ⟨left', rest, rfl, within, behind⟩ := inserted_append left _ wider inserted
    obtain ⟨gap', right', rfl, blank', last⟩ := inserted_cons gap _ false right rest behind
    exact .logic n op l r left' gap' right' level blank' (ihLeft left' within) (ihRight right' last)
  | cond c t f test gap yes colon no blank blankColon _ _ _ ihTest ihYes ihNo =>
    obtain ⟨test', rest, rfl, within, behind⟩ := inserted_append test _ wider inserted
    obtain ⟨gap', arms, rfl, blank', both⟩ := inserted_cons gap _ false _ rest behind
    obtain ⟨yes', rest, rfl, taken, behind⟩ := inserted_append yes _ arms both
    obtain ⟨colon', no', rfl, blankColon', other⟩ := inserted_cons colon _ false no rest behind
    exact .cond c t f test' gap' yes' colon' no' blank' blankColon' (ihTest test' within) (ihYes yes' taken)
      (ihNo no' other)
  | assign gap dollar name gapOp op e value blank named blankOp writes spelled ih =>
    obtain ⟨gap', rest, rfl, blank', behind⟩ := inserted_cons gap _ true _ wider inserted
    obtain ⟨gapOp', value', rfl, blankOp', last⟩ := inserted_cons gapOp _ false value rest behind
    exact .assign gap' dollar name gapOp' op e value' blank' named blankOp' writes (ih value' last)
  | comma l r first gap last blank _ _ ihFirst ihLast =>
    obtain ⟨first', rest, rfl, within, behind⟩ := inserted_append first _ wider inserted
    obtain ⟨gap', last', rfl, blank', final⟩ := inserted_cons gap _ false last rest behind
    exact .comma l r first' gap' last' blank' (ihFirst first' within) (ihLast last' final)

theorem tight_inserted {pieces wider : List Piece} (inserted : Inserted pieces wider) (tight : Tight wider) :
    Tight pieces := by
  induction inserted with
  | nil => exact tight
  | cons widened inserted ih =>
    obtain ⟨_, target, within, _⟩ := widened
    obtain ⟨here, behind⟩ := (tight_cons _ _).mp tight
    refine (tight_cons _ _).mpr ⟨fun marked => ?_, ih behind⟩
    rw [here (target.trans marked)] at within
    exact sublist_nil.mp within

theorem long_bit_bounds (long : Target) : 2 ≤ long.longBit ∧ long.longBit ≤ 64 := by
  cases long <;> decide

theorem blanks_insignificant (long : Target) (call : Call) (e : Expr) (pieces wider : List Piece) (trail more : Bytes)
    (spelled : Spells 14 e pieces) (blank : Blank trail) (inserted : Inserted pieces wider) (behind : Blank more)
    (untouched : Tight wider) :
    wordexpArith long.longBit call (text wider ++ more) = wordexpArith long.longBit call (text pieces ++ trail) := by
  obtain ⟨wide, narrow⟩ := long_bit_bounds long
  have pos : 0 < long.longBit := by omega
  have tight := tight_inserted inserted untouched
  have again := spells_inserted 14 e pieces wider spelled inserted
  rw [wordexp_arith_spelled pos narrow spelled tight blank,
    wordexp_arith_spelled pos narrow again untouched behind]

def emptyCall : Call := { undef := false, env := fun _ => none, grants := fun _ => true }

def one (gap : Bytes) : Piece := ⟨gap, [49], false⟩

theorem spells_one (gap : Bytes) (blank : Blank gap) : Spells 13 (.const 1) [one gap] :=
  spells_lift_to (by omega) (by omega)
    (.constant gap [49] 1 blank (.decimal 49 [] (by decide) (by simp [Strtol.Digits, Strtol.digitIn, Strtol.digitValue])))

theorem spells_store_one {gap : Bytes} (blank : Blank gap) :
    Spells 13 (.assign [120] .assign (.const 1)) [⟨gap, [120], true⟩, ⟨[], [61], false⟩, one []] :=
  .assign gap false [120] [] .assign (.const 1) [one []] blank ⟨by decide, by decide, by decide⟩ (by simp [Blank]) (.inl rfl)
    (spells_one [] (by simp [Blank]))

-- "x=1" and "x =\t1 "
theorem blanks_insignificant_store :
    wordexpArith 32 emptyCall ([120, 32, 61, 9, 49] ++ [32]) = wordexpArith 32 emptyCall ([120, 61, 49] ++ []) :=
  blanks_insignificant .llp64 emptyCall (.assign [120] .assign (.const 1))
    [⟨[], [120], true⟩, ⟨[], [61], false⟩, one []] [⟨[], [120], true⟩, ⟨[32], [61], false⟩, one [9]] [] [32]
    (.lift 13 _ _ (by omega) (spells_store_one (by simp [Blank]))) (by simp [Blank])
    (by simp [Inserted, Widened, one, Blank, isWs]) (by simp [Blank, isWs]) (by simp [Tight, one])

-- "x=1" is accepted, " x=1" is not.
theorem blank_before_target :
    (wordexpArith 32 emptyCall [120, 61, 49]).code = none ∧
      (wordexpArith 32 emptyCall [32, 120, 61, 49]).code = some .syntaxError := by
  decide

end Spicule.Arith
