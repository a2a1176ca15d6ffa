import Spicule.Strtol

-- The evaluator of `$((expr))`. A long is an `Int`; `w` is LONG_BIT of the target.
namespace Spicule.Arith
open Ctype
open Strtol (Bytes strtol longMax)

inductive Target where
  | llp64
  | lp64
deriving DecidableEq, Repr

def Target.longBit : Target → Nat
  | .llp64 => 32
  | .lp64 => 64

inductive Wrde where
  | badval
  | syntaxError
  | nospace
deriving DecidableEq, Repr

-- What getenv answers.
abbrev Env := Bytes → Option Bytes

-- `struct arith` without its text; `grants` answers the k-th setenv. Not in the code: `errors`,
-- the grammar errors, newest first, each with `live`, and `faulted`, an operation without a result.
structure State where
  undef : Bool
  err : Option Wrde
  live : Bool
  env : Env
  grants : Nat → Bool
  calls : Nat
  errors : List Bool
  faulted : Bool

structure Parser extends State where
  p : Bytes

def State.fail (a : State) (code : Wrde) : State :=
  if a.live && a.err.isNone then { a with err := some code } else a

def State.malformed (a : State) : State := { a.fail .syntaxError with errors := a.live :: a.errors }

def isWs (c : UInt8) : Bool := c == 32 || c == 9 || c == 10

def skipWs (p : Bytes) : Bytes := p.dropWhile isWs

def isNamestart (c : UInt8) : Bool := isalpha c || c == 95

def isNamechar (c : UInt8) : Bool := isalnum c || c == 95

def readName (p : Bytes) : Option (Bytes × Bytes) :=
  if 256 ≤ (p.takeWhile isNamechar).length then none else some (p.takeWhile isNamechar, p.dropWhile isNamechar)

def parseIntConst (w : Nat) (s : Bytes) : Option Int :=
  let s := skipWs s
  if s = [] then none
  else
    let (v, stop) := strtol w s 0
    if skipWs stop = [] then some v else none

def readVar (w : Nat) (a : State) (name : Bytes) : Int × State :=
  match a.env name with
  | none => (0, if a.undef then a.fail .badval else a)
  | some val =>
    match parseIntConst w val with
    | none => (0, a.fail .syntaxError)
    | some v => (v, a)

def formatLong (v : Int) : Bytes := (if v < 0 then [45] else []) ++ Decimal.digits v.natAbs

def upper (c : UInt8) : UInt8 := if 97 ≤ c ∧ c ≤ 122 then c - 32 else c

def nameEq (entry name : Bytes) : Bool := entry.map upper == name.map upper

def setenv (env : Env) (name val : Bytes) : Env := fun other => if nameEq other name then some val else env other

def assignVar (a : State) (name : Bytes) (v : Int) : State :=
  if !a.live then a
  else if a.grants a.calls then { a with env := setenv a.env name (formatLong v), calls := a.calls + 1 }
  else { a with calls := a.calls + 1 }.fail .nospace

-- The codes of `apply_binop`: '=', '+', '-', '*', '/', '%', '&', '^', '|',
-- 'L', 'R', '<', '>', 'l', 'g', 'e', 'n'.
inductive Op where
  | assign | add | sub | mul | div | rem | band | bxor | bor | shl | shr | lt | gt | le | ge | eq | ne
deriving DecidableEq, Repr

def Op.spelling : Op → Bytes
  | .assign => [61]
  | .add => [43]
  | .sub => [45]
  | .mul => [42]
  | .div => [47]
  | .rem => [37]
  | .band => [38]
  | .bxor => [94]
  | .bor => [124]
  | .shl => [60, 60]
  | .shr => [62, 62]
  | .lt => [60]
  | .gt => [62]
  | .le => [60, 61]
  | .ge => [62, 61]
  | .eq => [61, 61]
  | .ne => [33, 61]

def eat (token p : Bytes) : Option Bytes := if token.isPrefixOf p then some (p.drop token.length) else none

def matchOp (ops : List Op) (p : Bytes) : Option (Op × Bytes) :=
  ops.findSome? fun op => (eat op.spelling p).map fun rest => (op, rest)

def compoundOps : List Op := [.shl, .shr, .add, .sub, .mul, .div, .rem, .band, .bxor, .bor]

def matchAssignOp (p : Bytes) : Option (Op × Bytes) :=
  match compoundOps.findSome? fun op => (eat (op.spelling ++ [61]) p).map fun rest => (op, rest) with
  | some found => some found
  | none => if (eat [61, 61] p).isSome then none else (eat [61] p).map fun rest => (.assign, rest)

def toUnsigned (w : Nat) (v : Int) : Nat := (v % 2 ^ w).toNat

def wrapToLong (w : Nat) (u : Nat) : Int :=
  let half := 2 ^ (w - 1)
  if u < half then u else ((u - half : Nat) : Int) - ((half - 1 : Nat) : Int) - 1

def negate (w : Nat) (v : Int) : Int := wrapToLong w ((2 ^ w - toUnsigned w v) % 2 ^ w)

def bitNot (v : Int) : Int := -v - 1

def truth (b : Bool) : Int := if b then 1 else 0

def quotient (w : Nat) (a : State) (cur rhs : Int) : Int × State :=
  if rhs = 0 ∨ (cur = -2 ^ (w - 1) ∧ rhs = -1) then (0, { a with faulted := true }) else (cur.tdiv rhs, a)

def remainder (w : Nat) (a : State) (cur rhs : Int) : Int × State :=
  if rhs = 0 ∨ (cur = -2 ^ (w - 1) ∧ rhs = -1) then (0, { a with faulted := true }) else (cur.tmod rhs, a)

def shiftLeft (w : Nat) (a : State) (cur rhs : Int) : Int × State :=
  if rhs < 0 ∨ w ≤ rhs then (0, { a with faulted := true })
  else (wrapToLong w (toUnsigned w cur <<< rhs.toNat % 2 ^ w), a)

def shiftRight (w : Nat) (a : State) (cur rhs : Int) : Int × State :=
  if rhs < 0 ∨ w ≤ rhs then (0, { a with faulted := true }) else (cur >>> rhs.toNat, a)

def applyBinop (w : Nat) (a : State) (op : Op) (cur rhs : Int) : Int × State :=
  match op with
  | .assign => (rhs, a)
  | .add => (wrapToLong w ((toUnsigned w cur + toUnsigned w rhs) % 2 ^ w), a)
  | .sub => (wrapToLong w ((toUnsigned w cur + (2 ^ w - toUnsigned w rhs)) % 2 ^ w), a)
  | .mul => (wrapToLong w (toUnsigned w cur * toUnsigned w rhs % 2 ^ w), a)
  | .div =>
    if rhs = 0 then (0, a.fail .syntaxError)
    else if rhs = -1 then (negate w cur, a)
    else quotient w a cur rhs
  | .rem =>
    if rhs = 0 then (0, a.fail .syntaxError)
    else if rhs = -1 then (0, a)
    else remainder w a cur rhs
  | .band => (wrapToLong w (toUnsigned w cur &&& toUnsigned w rhs), a)
  | .bxor => (wrapToLong w (toUnsigned w cur ^^^ toUnsigned w rhs), a)
  | .bor => (wrapToLong w (toUnsigned w cur ||| toUnsigned w rhs), a)
  | .shl => if rhs < 0 ∨ w ≤ rhs then (0, a.fail .syntaxError) else shiftLeft w a cur rhs
  | .shr => if rhs < 0 ∨ w ≤ rhs then (0, a.fail .syntaxError) else shiftRight w a cur rhs
  | .lt => (truth (cur < rhs), a)
  | .gt => (truth (cur > rhs), a)
  | .le => (truth (cur ≤ rhs), a)
  | .ge => (truth (cur ≥ rhs), a)
  | .eq => (truth (cur = rhs), a)
  | .ne => (truth (cur ≠ rhs), a)

abbrev Level := Parser → Int × Parser

def Parser.goto (a : Parser) (p : Bytes) : Parser := { a with p := p }

def Parser.enter (a : Parser) (live : Bool) : Parser := { a with live := live }

def Parser.malform (a : Parser) : Parser := ⟨a.toState.malformed, a.p⟩

def expect (c : UInt8) (a : Parser) : Parser :=
  match skipWs a.p with
  | [] => (a.goto []).malform
  | d :: rest => if d = c then a.goto rest else (a.goto (d :: rest)).malform

def loadVar (w : Nat) (a : Parser) (name rest : Bytes) : Int × Parser :=
  let (v, s) := readVar w a.toState name
  (v, ⟨s, rest⟩)

def arithPrimary (w : Nat) (arithAssign : Level) (a : Parser) : Int × Parser :=
  match skipWs a.p with
  | [] => (0, (a.goto []).malform)
  | c :: rest =>
    if c = 40 then
      let (v, a) := arithAssign (a.goto rest)
      (v, expect 41 a)
    else if c = 36 ∧ (rest.head?.any isNamestart) = true then
      match readName rest with
      | none => (0, (a.goto rest).malform)
      | some (name, rest) => loadVar w a name rest
    else if isNamestart c then
      match readName (c :: rest) with
      | none => (0, (a.goto (c :: rest)).malform)
      | some (name, rest) => loadVar w a name rest
    else if isdigit c then
      let (v, stop) := strtol w (c :: rest) 0
      (v, a.goto stop)
    else (0, (a.goto rest).malform)

inductive UnOp where
  | plus | minus | compl | not
deriving DecidableEq, Repr

def UnOp.spelling : UnOp → UInt8
  | .plus => 43
  | .minus => 45
  | .compl => 126
  | .not => 33

def UnOp.apply (w : Nat) : UnOp → Int → Int
  | .plus, v => v
  | .minus, v => negate w v
  | .compl, v => bitNot v
  | .not, v => truth (v = 0)

def matchUnOp (p : Bytes) : Option (UnOp × Bytes) :=
  [UnOp.plus, .minus, .compl, .not].findSome? fun op => (eat [op.spelling] p).map fun rest => (op, rest)

-- The code's recursions run on `fuel`, of which a text needs no more than its length;
-- running out is marked as a malformed text.
def arithUnary (w : Nat) (arithAssign : Level) : Nat → Level
  | 0, a => (0, a.malform)
  | fuel + 1, a =>
    match matchUnOp (skipWs a.p) with
    | some (op, rest) =>
      let (v, a) := arithUnary w arithAssign fuel (a.goto rest)
      (op.apply w v, a)
    | none => arithPrimary w arithAssign (a.goto (skipWs a.p))

def binLoop (w : Nat) (operator : Bytes → Option (Op × Bytes)) (operand : Level) : Nat → Int → Level
  | 0, v, a => (v, a.malform)
  | fuel + 1, v, a =>
    match operator (skipWs a.p) with
    | none => (v, a.goto (skipWs a.p))
    | some (op, rest) =>
      let (rhs, a) := operand (a.goto rest)
      let (v, s) := applyBinop w a.toState op v rhs
      binLoop w operator operand fuel v ⟨s, a.p⟩

def binLevel (w : Nat) (operator : Bytes → Option (Op × Bytes)) (operand : Level) (fuel : Nat) (a : Parser) : Int × Parser :=
  let (v, a) := operand a
  binLoop w operator operand fuel v a

def undoubled (op : Op) (p : Bytes) : Option (Op × Bytes) :=
  if (eat (op.spelling ++ op.spelling) p).isSome then none else matchOp [op] p

def mulOp : Bytes → Option (Op × Bytes) := matchOp [.mul, .div, .rem]
def addOp : Bytes → Option (Op × Bytes) := matchOp [.add, .sub]
def shiftOp : Bytes → Option (Op × Bytes) := matchOp [.shl, .shr]
def relOp : Bytes → Option (Op × Bytes) := matchOp [.le, .ge, .lt, .gt]
def eqOp : Bytes → Option (Op × Bytes) := matchOp [.eq, .ne]
def bandOp : Bytes → Option (Op × Bytes) := undoubled .band
def bxorOp : Bytes → Option (Op × Bytes) := matchOp [.bxor]
def borOp : Bytes → Option (Op × Bytes) := undoubled .bor

def arithMul (w : Nat) (arithAssign : Level) (fuel : Nat) : Level := binLevel w mulOp (arithUnary w arithAssign fuel) fuel
def arithAdd (w : Nat) (arithAssign : Level) (fuel : Nat) : Level := binLevel w addOp (arithMul w arithAssign fuel) fuel
def arithShift (w : Nat) (arithAssign : Level) (fuel : Nat) : Level := binLevel w shiftOp (arithAdd w arithAssign fuel) fuel
def arithRel (w : Nat) (arithAssign : Level) (fuel : Nat) : Level := binLevel w relOp (arithShift w arithAssign fuel) fuel
def arithEq (w : Nat) (arithAssign : Level) (fuel : Nat) : Level := binLevel w eqOp (arithRel w arithAssign fuel) fuel
def arithBand (w : Nat) (arithAssign : Level) (fuel : Nat) : Level := binLevel w bandOp (arithEq w arithAssign fuel) fuel
def arithBxor (w : Nat) (arithAssign : Level) (fuel : Nat) : Level := binLevel w bxorOp (arithBand w arithAssign fuel) fuel
def arithBor (w : Nat) (arithAssign : Level) (fuel : Nat) : Level := binLevel w borOp (arithBxor w arithAssign fuel) fuel

inductive Logic where
  | land | lor
deriving DecidableEq, Repr

def Logic.spelling : Logic → Bytes
  | .land => [38, 38]
  | .lor => [124, 124]

def Logic.needs : Logic → Int → Bool
  | .land, v => v ≠ 0
  | .lor, v => v = 0

def Logic.join : Logic → Int → Int → Int
  | .land, v, rhs => truth (v ≠ 0 ∧ rhs ≠ 0)
  | .lor, v, rhs => truth (v ≠ 0 ∨ rhs ≠ 0)

def logicLoop (logic : Logic) (operand : Level) : Nat → Int → Level
  | 0, v, a => (v, a.malform)
  | fuel + 1, v, a =>
    match eat logic.spelling (skipWs a.p) with
    | none => (v, a.goto (skipWs a.p))
    | some rest =>
      let (rhs, after) := operand ((a.goto rest).enter (a.live && logic.needs v))
      logicLoop logic operand fuel (logic.join v rhs) (after.enter a.live)

def logicLevel (logic : Logic) (operand : Level) (fuel : Nat) (a : Parser) : Int × Parser :=
  let (v, a) := operand a
  logicLoop logic operand fuel v a

def arithLand (w : Nat) (arithAssign : Level) (fuel : Nat) : Level := logicLevel .land (arithBor w arithAssign fuel) fuel
def arithLor (w : Nat) (arithAssign : Level) (fuel : Nat) : Level := logicLevel .lor (arithLand w arithAssign fuel) fuel

def arithCond (w : Nat) (arithAssign : Level) (depth : Nat) : Nat → Level
  | 0, a => (0, a.malform)
  | fuel + 1, a =>
    let (c, a) := arithLor w arithAssign depth a
    match eat [63] (skipWs a.p) with
    | none => (c, a.goto (skipWs a.p))
    | some rest =>
      let (tval, taken) := arithAssign ((a.goto rest).enter (a.live && c ≠ 0))
      let (fval, other) := arithCond w arithAssign depth fuel ((expect 58 taken).enter (a.live && c = 0))
      (if c ≠ 0 then tval else fval, other.enter a.live)

-- The lookahead of `arith_assign`, which does not pass over blanks before the name.
def assignTarget (p : Bytes) : Option (Bytes × Op × Bytes) :=
  let q := (eat [36] p).getD p
  if (q.head?.any isNamestart) = true then
    match readName q with
    | none => none
    | some (name, rest) => (matchAssignOp (skipWs rest)).map fun (op, rest) => (name, op, rest)
  else none

def store (w : Nat) (a : State) (name : Bytes) (op : Op) (rhs : Int) : Int × State :=
  let (cur, a) := if op = .assign then (0, a) else readVar w a name
  let (v, a) := applyBinop w a op cur rhs
  (v, assignVar a name v)

def arithAssign (w : Nat) : Nat → Level
  | 0, a => (0, a.malform)
  | fuel + 1, a =>
    match assignTarget a.p with
    | some (name, op, rest) =>
      let (rhs, a) := arithAssign w fuel (a.goto rest)
      let (v, s) := store w a.toState name op rhs
      (v, ⟨s, a.p⟩)
    | none => arithCond w (arithAssign w fuel) fuel fuel a

def commaLoop (arithAssign : Level) : Nat → Int → Level
  | 0, v, a => (v, a.malform)
  | fuel + 1, v, a =>
    match eat [44] (skipWs a.p) with
    | none => (v, a.goto (skipWs a.p))
    | some rest =>
      let (v, a) := arithAssign (a.goto rest)
      commaLoop arithAssign fuel v a

def arithComma (w : Nat) (fuel : Nat) (a : Parser) : Int × Parser :=
  let (v, a) := arithAssign w fuel a
  commaLoop (arithAssign w fuel) fuel v a

structure Call where
  undef : Bool
  env : Env
  grants : Nat → Bool

def Call.start (call : Call) : State :=
  { undef := call.undef, err := none, live := true, env := call.env, grants := call.grants, calls := 0, errors := [],
    faulted := false }

structure Outcome where
  code : Option Wrde
  result : Int
  final : State
  -- what the last skip_ws left unread
  rest : Bytes

def wordexpArith (w : Nat) (call : Call) (expr : Bytes) : Outcome :=
  let (result, a) := arithComma w (expr.length + 2) ⟨call.start, expr⟩
  let rest := skipWs a.p
  { code := match a.err with
      | some code => some code
      | none => if rest = [] then none else some .syntaxError,
    result := result, final := a.toState, rest := rest }

end Spicule.Arith
