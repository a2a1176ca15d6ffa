import Spicule.Arith.Grammar

namespace Spicule.Arith
open Ctype
open Strtol (Bytes Constant clampLong strtol)

def operatorAt : Nat → Bytes → Option (Op × Bytes)
  | 2 => mulOp
  | 3 => addOp
  | 4 => shiftOp
  | 5 => relOp
  | 6 => eqOp
  | 7 => bandOp
  | 8 => bxorOp
  | 9 => borOp
  | _ => fun _ => none

def continues : Nat → Bytes → Bool
  | 10, p => (eat Logic.land.spelling p).isSome
  | 11, p => (eat Logic.lor.spelling p).isSome
  | 12, p => (eat [63] p).isSome
  | 13, p => (matchAssignOp p).isSome
  | 14, p => (eat [44] p).isSome
  | n, p => (operatorAt n p).isSome

def Ahead (n : Nat) (rest : Bytes) : Prop :=
  (∀ c ∈ rest.head?, isNamechar c = false) ∧ ∀ k, k ≤ n → continues k (skipWs rest) = false

def opening (c : UInt8) : Bool := c != 61 && c != 60 && c != 62 && c != 38 && c != 124

def Opens (t : Bytes) : Prop := ∃ c u, t = c :: u ∧ opening c = true

theorem opens_append {t : Bytes} (u : Bytes) (opens : Opens t) : Opens (t ++ u) := by
  obtain ⟨c, v, rfl, first⟩ := opens
  exact ⟨c, v ++ u, rfl, first⟩

theorem opening_ne {c : UInt8} (first : opening c = true) : 61 ≠ c ∧ 60 ≠ c ∧ 62 ≠ c ∧ 38 ≠ c ∧ 124 ≠ c := by
  simp only [opening, Bool.and_eq_true, bne_iff_ne] at first
  obtain ⟨⟨⟨⟨equals, less⟩, greater⟩, ampersand⟩, bar⟩ := first
  exact ⟨equals.symm, less.symm, greater.symm, ampersand.symm, bar.symm⟩

variable (op : Op) (t : Bytes)
theorem operator_at_op (joins : op ≠ .assign) (opens : Opens t) :
    operatorAt op.level (op.spelling ++ t) = some (op, t) := by
  obtain ⟨c, u, rfl, first⟩ := opens
  have apart := opening_ne first
  cases op <;> first
    | exact absurd rfl joins
    | rfl
    | simp [operatorAt, Op.level, relOp, bandOp, borOp, undoubled, matchOp, eat, Op.spelling, apart]

variable (k : Nat)
theorem operator_at_other (lower : k < op.level) (opens : Opens t) : operatorAt k (op.spelling ++ t) = none := by
  obtain ⟨c, u, rfl, first⟩ := opens
  have apart := opening_ne first
  cases op <;> simp only [Op.level] at lower <;> interval_cases k <;> first
    | rfl
    | simp [operatorAt, shiftOp, matchOp, eat, Op.spelling, apart]

theorem match_assign_op_op (joins : op ≠ .assign) (opens : Opens t) : matchAssignOp (op.spelling ++ t) = none := by
  obtain ⟨c, u, rfl, first⟩ := opens
  have apart := opening_ne first
  cases op <;> first
    | exact absurd rfl joins
    | rfl
    | simp [matchAssignOp, compoundOps, eat, Op.spelling, apart]

theorem match_assign_op_spelling (writes : op = .assign ∨ op ∈ compoundOps) (opens : Opens t) :
    matchAssignOp (assignSpelling op ++ t) = some (op, t) := by
  obtain ⟨c, u, rfl, first⟩ := opens
  have apart := opening_ne first
  cases op <;> simp [compoundOps] at writes <;> simp [matchAssignOp, compoundOps, assignSpelling, eat, Op.spelling, apart]

theorem op_spelling_head : ∃ c u, op.spelling = c :: u ∧ isWs c = false ∧ isNamechar c = false := by
  cases op <;> exact ⟨_, _, rfl, by decide, by decide⟩

theorem blank_not_namechar {c : UInt8} (blank : isWs c = true) : isNamechar c = false := by
  simp only [isWs, Bool.or_eq_true, beq_iff_eq] at blank
  obtain (rfl | rfl) | rfl := blank <;> decide

variable (n : Nat) (c : UInt8)
theorem ahead_gap {gap : Bytes} {rest : Bytes} (blank : Blank gap) (solid : isWs c = false)
    (apart : isNamechar c = false) (stops : ∀ k, k ≤ n → continues k (c :: rest) = false) :
    Ahead n (gap ++ c :: rest) := by
  constructor
  · intro d head
    cases gap with
    | nil => cases head; exact apart
    | cons b gap => cases head; exact blank_not_namechar (blank _ List.mem_cons_self)
  · intro k below
    rw [skip_ws_blank _ blank, skip_ws_stop rest solid]
    exact stops k below

theorem ahead_op {gap t : Bytes} (level : op.level = n + 1) (blank : Blank gap) (opens : Opens t) :
    Ahead n (gap ++ (op.spelling ++ t)) := by
  obtain ⟨c, u, spelled, solid, apart⟩ := op_spelling_head op
  have small : op.level ≤ 9 := by cases op <;> decide
  have stops : ∀ k, k ≤ n → continues k (op.spelling ++ t) = false := by
    intro k below
    have none_here := operator_at_other op t k (by omega) opens
    have low : k ≤ 9 := by omega
    interval_cases k <;> simp only [continues, none_here, Option.isSome_none]
  rw [spelled, List.cons_append] at stops ⊢
  exact ahead_gap n c blank solid apart stops

theorem continues_land (below : k ≤ 9) : continues k (38 :: 38 :: t) = false := by
  interval_cases k <;> rfl

theorem continues_lor (below : k ≤ 10) : continues k (124 :: 124 :: t) = false := by
  interval_cases k <;> rfl

theorem ahead_logic {op : Logic} {n : Nat} (gap t : Bytes) (level : op.level = n + 1) (blank : Blank gap) :
    Ahead n (gap ++ (op.spelling ++ t)) := by
  cases op with
  | land =>
    obtain rfl : n = 9 := by simpa [Logic.level] using level.symm
    exact ahead_gap 9 38 blank (by decide) (by decide) (continues_land t)
  | lor =>
    obtain rfl : n = 10 := by simpa [Logic.level] using level.symm
    exact ahead_gap 10 124 blank (by decide) (by decide) (continues_lor t)

variable {gap : Bytes}
theorem ahead_question (t : Bytes) (blank : Blank gap) : Ahead 11 (gap ++ 63 :: t) := by
  refine ahead_gap 11 63 blank (by decide) (by decide) ?_
  intro k below
  interval_cases k <;> rfl

theorem ahead_closing {c : UInt8} {gap : Bytes} (t : Bytes) (closing : c = 41 ∨ c = 58 ∨ c = 44) (blank : Blank gap) :
    Ahead 13 (gap ++ c :: t) := by
  have stops : ∀ k, k ≤ 13 → continues k (c :: t) = false := by
    intro k below
    obtain rfl | rfl | rfl := closing <;> interval_cases k <;> rfl
  refine ahead_gap 13 c blank ?_ ?_ stops
  · obtain rfl | rfl | rfl := closing <;> decide
  · obtain rfl | rfl | rfl := closing <;> decide

theorem ahead_end (blank : Blank gap) : Ahead 14 gap := by
  constructor
  · intro c head
    exact blank_not_namechar (blank c (List.mem_of_mem_head? head))
  · intro k below
    rw [skip_ws_all blank]
    interval_cases k <;> decide

theorem ahead_lower {m : Nat} {rest : Bytes} (below : m ≤ n) (ahead : Ahead n rest) : Ahead m rest :=
  ⟨ahead.1, fun k small => ahead.2 k (Nat.le_trans small below)⟩

variable (pieces : List Piece) (target : Bool)
theorem opens_piece {u : Bytes} (blank : Blank gap)
    (first : opening c = true) : Opens (text (⟨gap, c :: u, target⟩ :: pieces)) := by
  rw [text_cons]
  cases gap with
  | nil => exact ⟨c, u ++ text pieces, rfl, first⟩
  | cons b gap =>
    refine ⟨b, gap ++ (c :: u ++ text pieces), rfl, ?_⟩
    have space := blank b List.mem_cons_self
    simp only [isWs, Bool.or_eq_true, beq_iff_eq] at space
    obtain (rfl | rfl) | rfl := space <;> decide

theorem constant_head {token : Bytes} {magnitude : Nat} (constant : Constant token magnitude) :
    ∃ c tail, token = c :: tail ∧ isdigit c = true := by
  cases constant with
  | decimal first rest nonzero digits =>
    exact ⟨first, rest, rfl, Strtol.digit_in_decimal first ▸ digits first List.mem_cons_self⟩
  | octal rest digits => exact ⟨48, rest, rfl, by decide⟩
  | hexadecimal x first rest marked digits => exact ⟨48, x :: first :: rest, rfl, by decide⟩

theorem name_head {name : Bytes} (named : IsName name) : ∃ c tail, name = c :: tail ∧ isNamestart c = true := by
  cases name with
  | nil => exact absurd named.1 (by decide)
  | cons c tail => exact ⟨c, tail, rfl, by simpa using named.1⟩

theorem byte_classes : ∀ c : UInt8,
    (isdigit c = true → opening c = true ∧ (isWs c = false ∧ c ≠ 40 ∧ c ≠ 36 ∧ isNamestart c = false) ∧
      c ≠ 43 ∧ c ≠ 45 ∧ c ≠ 126 ∧ c ≠ 33) ∧
    (isNamestart c = true → opening c = true ∧ (isWs c = false ∧ c ≠ 40 ∧ c ≠ 36) ∧
      c ≠ 43 ∧ c ≠ 45 ∧ c ≠ 126 ∧ c ≠ 33) ∧
    (isWs c = true → c ≠ 36 ∧ isNamestart c = false) := forall_byte (by decide +kernel)

theorem opens_name {dollar : Bool} {name : Bytes} (blank : Blank gap)
    (named : IsName name) : Opens (text (⟨gap, sigil dollar ++ name, target⟩ :: pieces)) := by
  obtain ⟨c, tail, rfl, start⟩ := name_head named
  cases dollar with
  | true => exact opens_piece 36 pieces target blank (by decide)
  | false => exact opens_piece c pieces target blank ((byte_classes c).2.1 start).1

theorem spells_opens {e : Expr} {pieces : List Piece} (spelled : Spells n e pieces) : Opens (text pieces) := by
  induction spelled with
  | constant gap token magnitude blank constant =>
    obtain ⟨c, tail, rfl, digit⟩ := constant_head constant
    exact opens_piece c [] false blank ((byte_classes c).1 digit).1
  | name gap dollar name blank named => exact opens_name [] false blank named
  | paren gap close e inner blank blankClose spelled ih => exact opens_piece 40 _ false blank (by decide)
  | unary gap op e operand blank spelled ih =>
    exact opens_piece op.spelling operand false blank (by cases op <;> decide)
  | lift n e pieces below spelled ih => exact ih
  | binary n op l r left gap right level blank _ _ ih _ => rw [text_append]; exact opens_append _ ih
  | logic n op l r left gap right level blank _ _ ih _ => rw [text_append]; exact opens_append _ ih
  | cond c t f test gap yes colon no blank blankColon _ _ _ ih _ _ => rw [text_append]; exact opens_append _ ih
  | assign gap dollar name gapOp op e value blank named blankOp writes spelled ih =>
    exact opens_name _ true blank named
  | comma l r first gap last blank _ _ ih _ => rw [text_append]; exact opens_append _ ih

end Spicule.Arith
