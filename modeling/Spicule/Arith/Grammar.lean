import Spicule.Arith.Eval

-- The expressions, their spellings with blanks, and their evaluation.
namespace Spicule.Arith
open List Ctype
open Strtol (Bytes Constant clampLong)

inductive Expr where
  | const (magnitude : Nat)
  | var (name : Bytes)
  | unary (op : UnOp) (operand : Expr)
  | binary (op : Op) (left right : Expr)
  | logic (op : Logic) (left right : Expr)
  | cond (test yes no : Expr)
  | assign (name : Bytes) (op : Op) (value : Expr)
  | comma (first last : Expr)
deriving DecidableEq, Repr

def State.enter (a : State) (live : Bool) : State := { a with live := live }

def Expr.run (w : Nat) : Expr → State → Int × State
  | .const magnitude, a => (clampLong w false magnitude, a)
  | .var name, a => readVar w a name
  | .unary op operand, a =>
    let (v, a) := operand.run w a
    (op.apply w v, a)
  | .binary op left right, a =>
    let (v, a) := left.run w a
    let (rhs, a) := right.run w a
    applyBinop w a op v rhs
  | .logic op left right, a =>
    let (v, a) := left.run w a
    let (rhs, after) := right.run w (a.enter (a.live && op.needs v))
    (op.join v rhs, after.enter a.live)
  | .cond test yes no, a =>
    let (c, a) := test.run w a
    let (tval, taken) := yes.run w (a.enter (a.live && c ≠ 0))
    let (fval, other) := no.run w (taken.enter (a.live && c = 0))
    (if c ≠ 0 then tval else fval, other.enter a.live)
  | .assign name op value, a =>
    let (rhs, a) := value.run w a
    store w a name op rhs
  | .comma first last, a => last.run w (first.run w a).2

structure Piece where
  gap : Bytes
  token : Bytes
  target : Bool
deriving DecidableEq, Repr

def Piece.text (piece : Piece) : Bytes := piece.gap ++ piece.token

def text (pieces : List Piece) : Bytes := pieces.flatMap Piece.text

def Blank (gap : Bytes) : Prop := ∀ c ∈ gap, isWs c = true

def IsName (name : Bytes) : Prop :=
  (name.head?.any isNamestart) = true ∧ (∀ c ∈ name, isNamechar c = true) ∧ name.length < 256

def sigil (dollar : Bool) : Bytes := if dollar then [36] else []

def Op.level : Op → Nat
  | .assign => 0
  | .mul | .div | .rem => 2
  | .add | .sub => 3
  | .shl | .shr => 4
  | .lt | .gt | .le | .ge => 5
  | .eq | .ne => 6
  | .band => 7
  | .bxor => 8
  | .bor => 9

def Logic.level : Logic → Nat
  | .land => 10
  | .lor => 11

def assignSpelling : Op → Bytes
  | .assign => [61]
  | op => op.spelling ++ [61]

-- primary 0, unary 1, the binary levels 2 to 11, conditional 12, assignment 13, comma 14.
inductive Spells : Nat → Expr → List Piece → Prop where
  | constant (gap token : Bytes) (magnitude : Nat) (blank : Blank gap) (spelled : Constant token magnitude) :
      Spells 0 (.const magnitude) [⟨gap, token, false⟩]
  | name (gap : Bytes) (dollar : Bool) (name : Bytes) (blank : Blank gap) (named : IsName name) :
      Spells 0 (.var name) [⟨gap, sigil dollar ++ name, false⟩]
  | paren (gap close : Bytes) (e : Expr) (inner : List Piece) (blank : Blank gap) (blankClose : Blank close)
      (spelled : Spells 13 e inner) : Spells 0 e (⟨gap, [40], false⟩ :: (inner ++ [⟨close, [41], false⟩]))
  | unary (gap : Bytes) (op : UnOp) (e : Expr) (operand : List Piece) (blank : Blank gap) (spelled : Spells 1 e operand) :
      Spells 1 (.unary op e) (⟨gap, [op.spelling], false⟩ :: operand)
  | lift (n : Nat) (e : Expr) (pieces : List Piece) (below : n < 14) (spelled : Spells n e pieces) :
      Spells (n + 1) e pieces
  | binary (n : Nat) (op : Op) (l r : Expr) (left : List Piece) (gap : Bytes) (right : List Piece)
      (level : op.level = n + 1) (blank : Blank gap) (spelledLeft : Spells (n + 1) l left)
      (spelledRight : Spells n r right) : Spells (n + 1) (.binary op l r) (left ++ ⟨gap, op.spelling, false⟩ :: right)
  | logic (n : Nat) (op : Logic) (l r : Expr) (left : List Piece) (gap : Bytes) (right : List Piece)
      (level : op.level = n + 1) (blank : Blank gap) (spelledLeft : Spells (n + 1) l left)
      (spelledRight : Spells n r right) : Spells (n + 1) (.logic op l r) (left ++ ⟨gap, op.spelling, false⟩ :: right)
  | cond (c t f : Expr) (test : List Piece) (gap : Bytes) (yes : List Piece) (colon : Bytes) (no : List Piece)
      (blank : Blank gap) (blankColon : Blank colon) (spelledTest : Spells 11 c test) (spelledYes : Spells 13 t yes)
      (spelledNo : Spells 12 f no) :
      Spells 12 (.cond c t f) (test ++ ⟨gap, [63], false⟩ :: (yes ++ ⟨colon, [58], false⟩ :: no))
  | assign (gap : Bytes) (dollar : Bool) (name gapOp : Bytes) (op : Op) (e : Expr) (value : List Piece)
      (blank : Blank gap) (named : IsName name) (blankOp : Blank gapOp) (writes : op = .assign ∨ op ∈ compoundOps)
      (spelled : Spells 13 e value) :
      Spells 13 (.assign name op e) (⟨gap, sigil dollar ++ name, true⟩ :: ⟨gapOp, assignSpelling op, false⟩ :: value)
  | comma (l r : Expr) (first : List Piece) (gap : Bytes) (last : List Piece) (blank : Blank gap)
      (spelledFirst : Spells 14 l first) (spelledLast : Spells 13 r last) :
      Spells 14 (.comma l r) (first ++ ⟨gap, [44], false⟩ :: last)

def Tight (pieces : List Piece) : Prop := ∀ piece ∈ pieces, piece.target = true → piece.gap = []

@[simp] theorem text_nil : text [] = [] := rfl

@[simp] theorem text_cons (piece : Piece) (pieces : List Piece) :
    text (piece :: pieces) = piece.gap ++ (piece.token ++ text pieces) := by
  simp [text, Piece.text]

variable (left right : List Piece)

@[simp] theorem text_append : text (left ++ right) = text left ++ text right := by
  simp [text]

theorem text_joined (gap spelling rest : Bytes) :
    text (left ++ ⟨gap, spelling, false⟩ :: right) ++ rest = text left ++ (gap ++ (spelling ++ (text right ++ rest))) := by
  simp

theorem tight_append : Tight (left ++ right) ↔ Tight left ∧ Tight right := by
  simp only [Tight, mem_append]
  constructor
  · intro tight
    exact ⟨fun piece mem => tight piece (.inl mem), fun piece mem => tight piece (.inr mem)⟩
  · intro tight piece mem
    cases mem with
    | inl here => exact tight.1 piece here
    | inr there => exact tight.2 piece there

theorem tight_cons (piece : Piece) (pieces : List Piece) :
    Tight (piece :: pieces) ↔ (piece.target = true → piece.gap = []) ∧ Tight pieces := by
  simp [Tight]

theorem skip_ws_pass {c : UInt8} (rest : Bytes) (blank : isWs c = true) : skipWs (c :: rest) = skipWs rest := by
  rw [skipWs, dropWhile_cons, if_pos blank, skipWs]

theorem skip_ws_blank {gap : Bytes} (rest : Bytes) (blank : Blank gap) : skipWs (gap ++ rest) = skipWs rest := by
  induction gap with
  | nil => rfl
  | cons c gap ih =>
    have here : isWs c = true := blank c mem_cons_self
    rw [cons_append, skip_ws_pass _ here]
    exact ih (forall_mem_cons.mp blank).2

theorem skip_ws_stop {c : UInt8} (rest : Bytes) (solid : isWs c = false) : skipWs (c :: rest) = c :: rest := by
  rw [skipWs, dropWhile_cons, solid, if_neg Bool.false_ne_true]

@[simp] theorem skip_ws_nil : skipWs [] = [] := rfl

theorem skip_ws_all {gap : Bytes} (blank : Blank gap) : skipWs gap = [] := by
  have skipped := skip_ws_blank [] blank
  rwa [append_nil] at skipped

@[simp] theorem skip_ws_skip (p : Bytes) : skipWs (skipWs p) = skipWs p := by
  induction p with
  | nil => rfl
  | cons c p ih =>
    cases solid : isWs c with
    | true => rw [skip_ws_pass p solid, ih]
    | false => rw [skip_ws_stop p solid, skip_ws_stop p solid]

theorem skip_ws_split (p : Bytes) : ∃ gap, Blank gap ∧ p = gap ++ skipWs p := by
  induction p with
  | nil => exact ⟨[], fun c mem => absurd mem not_mem_nil, rfl⟩
  | cons c p ih =>
    cases solid : isWs c with
    | true =>
      obtain ⟨gap, blank, split⟩ := ih
      refine ⟨c :: gap, ?_, ?_⟩
      · intro d mem
        cases mem_cons.mp mem with
        | inl same => exact same ▸ solid
        | inr later => exact blank d later
      · rw [skip_ws_pass p solid, cons_append]
        exact congrArg (c :: ·) split
    | false => exact ⟨[], fun d mem => absurd mem not_mem_nil, (skip_ws_stop p solid).symm⟩

end Spicule.Arith
