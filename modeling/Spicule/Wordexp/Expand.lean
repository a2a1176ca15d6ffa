import Spicule.Arith.Eval

namespace Spicule.Wordexp

abbrev Bytes := List UInt8

def ch (c : Char) : UInt8 := UInt8.ofNat c.toNat

def text (s : String) : Bytes := s.toList.map ch

def cstr (b : Bytes) : Bytes := b.takeWhile (· ≠ 0)

def isIfs (c : UInt8) : Bool := c = ch ' ' || c = ch '\t' || c = ch '\n'

def isNamestart (c : UInt8) : Bool := Arith.isNamestart c

def isNamechar (c : UInt8) : Bool := Arith.isNamechar c

def isDigit (c : UInt8) : Bool := ch '0' ≤ c && c ≤ ch '9'

abbrev Fbuf := List (UInt8 × Bool)

def fbufPushStr (b : Fbuf) (s : Bytes) (literal : Bool) : Fbuf := b ++ (cstr s).map fun c => (c, literal)

def fbufPushLong (b : Fbuf) (v : Int) : Fbuf := fbufPushStr b (Arith.formatLong v) false

def isMeta (c : UInt8) : Bool := c = ch '*' || c = ch '?' || c = ch '['

def hasMeta (b : Fbuf) : Bool := b.any fun (c, lit) => !lit && isMeta c

def plain (b : Fbuf) : Bytes := b.map Prod.fst

def pattern (b : Fbuf) : Bytes :=
  b.flatMap fun (c, lit) => if lit && (isMeta c || c = ch '\\') then [ch '\\', c] else [c]

def taking (piece : Bytes) (found : Option (Bytes × Bytes)) : Option (Bytes × Bytes) :=
  found.map fun (word, rest) => (piece ++ word, rest)

inductive Inside where
  | word
  | single
  | dollarSingle
  | double
deriving DecidableEq, Repr

def paramWordEnd : Inside → Nat → Bytes → Option (Bytes × Bytes)
  | _, _, [] => none
  | .word, depth, c :: p =>
    match p with
    | [] => if c = ch '}' ∧ depth = 0 then some ([], []) else none
    | d :: q =>
      if c = ch '\\' then taking [c, d] (paramWordEnd .word depth q)
      else if c = ch '$' ∧ d = ch '\'' then taking [c, d] (paramWordEnd .dollarSingle depth q)
      else if c = ch '\'' then taking [c] (paramWordEnd .single depth (d :: q))
      else if c = ch '"' then taking [c] (paramWordEnd .double depth (d :: q))
      else if c = ch '$' ∧ d = ch '{' then taking [c, d] (paramWordEnd .word (depth + 1) q)
      else if c = ch '}' then
        if depth = 0 then some ([], d :: q) else taking [c] (paramWordEnd .word (depth - 1) (d :: q))
      else taking [c] (paramWordEnd .word depth (d :: q))
  | .single, depth, c :: p => taking [c] (paramWordEnd (if c = ch '\'' then .word else .single) depth p)
  | .dollarSingle, depth, c :: p =>
    if c = ch '\'' then taking [c] (paramWordEnd .word depth p)
    else
      match p with
      | [] => none
      | d :: q =>
        if c = ch '\\' then taking [c, d] (paramWordEnd .dollarSingle depth q)
        else taking [c] (paramWordEnd .dollarSingle depth (d :: q))
  | .double, depth, c :: p =>
    if c = ch '"' then taking [c] (paramWordEnd .word depth p)
    else
      match p with
      | [] => none
      | d :: q =>
        if c = ch '\\' then taking [c, d] (paramWordEnd .double depth q)
        else taking [c] (paramWordEnd .double depth (d :: q))

def cmdsubDollarText : Inside → Nat → Bytes → Option (Bytes × Bytes)
  | _, _, [] => none
  | .single, depth, c :: p => taking [c] (cmdsubDollarText (if c = ch '\'' then .word else .single) depth p)
  | .double, depth, c :: p =>
    if c = ch '"' then taking [c] (cmdsubDollarText .word depth p)
    else
      match p with
      | [] => none
      | d :: q =>
        if c = ch '\\' then taking [c, d] (cmdsubDollarText .double depth q)
        else taking [c] (cmdsubDollarText .double depth (d :: q))
  | _, depth, c :: p =>
    if c = ch ')' ∧ depth = 0 then some ([], p)
    else
      match p with
      | [] => none
      | d :: q =>
        if c = ch '\\' then taking [c, d] (cmdsubDollarText .word depth q)
        else if c = ch '\'' then taking [c] (cmdsubDollarText .single depth (d :: q))
        else if c = ch '"' then taking [c] (cmdsubDollarText .double depth (d :: q))
        else if c = ch '(' then taking [c] (cmdsubDollarText .word (depth + 1) (d :: q))
        else if c = ch ')' then taking [c] (cmdsubDollarText .word (depth - 1) (d :: q))
        else taking [c] (cmdsubDollarText .word depth (d :: q))

def backquoteEnd : Bytes → Option (Bytes × Bytes)
  | [] => none
  | c :: p =>
    if c = 96 then some ([], p)
    else
      match p with
      | [] => none
      | d :: q => if c = ch '\\' then taking [c, d] (backquoteEnd q) else taking [c] (backquoteEnd (d :: q))

def backquoteUnescape : Bytes → Bytes
  | [] => []
  | [c] => [c]
  | c :: d :: p =>
    if c = ch '\\' ∧ (d = ch '$' ∨ d = 96 ∨ d = ch '\\') then d :: backquoteUnescape p
    else c :: backquoteUnescape (d :: p)

def cmdsubBackquoteText (p : Bytes) : Option (Bytes × Bytes) :=
  (backquoteEnd p).map fun (command, rest) => (backquoteUnescape command, rest)

def arithText : Nat → Nat → Bytes → Option (Bytes × Bytes)
  | 0, _, _ => none
  | _, _, [] => none
  | fuel + 1, depth, c :: p =>
    if c = ch '\\' ∧ p ≠ [] then taking (c :: p.take 1) (arithText fuel depth (p.drop 1))
    else if c = ch '$' ∧ p.head? = some (ch '{') then
      (paramWordEnd .word 0 (p.drop 1)).bind fun (word, rest) =>
        taking (c :: ch '{' :: word ++ [ch '}']) (arithText fuel depth rest)
    else if c = ch '(' then taking [c] (arithText fuel (depth + 1) p)
    else if c = ch ')' then
      if 0 < depth then taking [c] (arithText fuel (depth - 1) p)
      else if p.head? = some (ch ')') then some ([], p.drop 1)
      else none
    else taking [c] (arithText fuel depth p)

def octal : Nat → Nat → Bytes → Nat × Bytes
  | 0, value, p => (value, p)
  | more + 1, value, p =>
    match p with
    | c :: q => if ch '0' ≤ c ∧ c ≤ ch '7' then octal more (value * 8 + (c.toNat - 48)) q else (value, p)
    | [] => (value, [])

def simpleEscape (c : UInt8) : Option UInt8 :=
  if c = ch 'a' then some 7 else if c = ch 'b' then some 8 else if c = ch 'e' then some 27
  else if c = ch 'f' then some 12 else if c = ch 'n' then some 10 else if c = ch 'r' then some 13
  else if c = ch 't' then some 9 else if c = ch 'v' then some 11
  else if c = ch '\\' ∨ c = ch '\'' ∨ c = ch '"' ∨ c = ch '?' then some c
  else none

def expandDollarSingle : Nat → Bytes → Fbuf → Option (Bytes × Fbuf)
  | 0, _, _ => none
  | _, [], _ => none
  | fuel + 1, c :: p, b =>
    if c = ch '\'' then some (p, b)
    else if c = ch '\\' then
      match p with
      | [] => none
      | d :: q =>
        match simpleEscape d with
        | some value => expandDollarSingle fuel q (b ++ [(value, true)])
        | none =>
          if d = ch '\n' then expandDollarSingle fuel q b
          else if d = ch '0' then
            let (value, rest) := octal 3 0 q
            expandDollarSingle fuel rest (b ++ [(UInt8.ofNat value, true)])
          else expandDollarSingle fuel q (b ++ [(ch '\\', true), (d, true)])
    else expandDollarSingle fuel p (b ++ [(c, true)])

def atOrStar : Bytes → Option (UInt8 × Bytes)
  | [] => none
  | c :: q =>
    if c = ch '{' then
      match q with
      | k :: close :: rest => if (k = ch '@' ∨ k = ch '*') ∧ close = ch '}' then some (k, rest) else none
      | _ => none
    else if c = ch '@' ∨ c = ch '*' then some (c, q)
    else none

-- The scan of wordexp() and __wordexp_sh(). Allocation succeeds; `system` is whatever else
-- glob, getpwnam and a command read or change.

-- `deep` is not in the code: the allowance of nested expansions ran out.
inductive Wrde where
  | badchar
  | badval
  | cmdsub
  | nospace
  | syntaxError
  | deep
deriving DecidableEq, Repr

structure Shell (σ : Type) where
  env : Bytes → Option Bytes
  params : List Bytes
  zero : Bytes
  lastStatus : Int
  system : σ

structure Flags where
  nocmd : Bool
  undef : Bool
deriving DecidableEq, Repr

-- A successful glob has at least one pathname.
inductive Globbed where
  | found (first : Bytes) (more : List Bytes)
  | unmatched
  | failed
deriving DecidableEq, Repr

structure World (σ : Type) where
  longBit : Nat
  glob : σ → Bytes → Globbed
  fnmatch : Bytes → Bytes → Bool
  getpwnam : σ → Bytes → Option Bytes
  shCmdsub : Bytes → Shell σ → Option Bytes × Shell σ

abbrev Run (σ α : Type) := ExceptT Wrde (StateM (Shell σ)) α

variable {σ : Type}

section
variable {α β : Type} {m : Run σ α} {f : α → Run σ β} {s t : Shell σ}
theorem bind_ok {a : α} (ran : m s = (.ok a, t)) : (m >>= f) s = f a t := by
  simp only [bind, ExceptT.bind, ExceptT.mk, StateT.bind, ran, ExceptT.bindCont]

theorem bind_error {code : Wrde} (ran : m s = (.error code, t)) : (m >>= f) s = (.error code, t) := by
  simp only [bind, ExceptT.bind, ExceptT.mk, StateT.bind, ran, ExceptT.bindCont]
  rfl

theorem bind_congr_at {m' : Run σ α} (same : m s = m' t) : (m >>= f) s = (m' >>= f) t := by
  simp only [bind, ExceptT.bind, ExceptT.mk, StateT.bind, same]

theorem get_bind (f : Shell σ → Run σ β) : (get >>= f : Run σ β) s = f s s := rfl

end

def setenv (name value : Bytes) : Run σ Unit :=
  modify fun s => { s with env := Arith.setenv s.env name value }

def ifsOf (env : Bytes → Option Bytes) : Bytes := (env (text "IFS")).getD (text " \t\n")

def isSplitChar (env : Bytes → Option Bytes) (c : UInt8) : Bool := (cstr (ifsOf env)).contains c

structure Fields where
  field : Fbuf
  active : Bool
  out : List Bytes
deriving DecidableEq, Repr

def emitField (w : World σ) (b : Fbuf) (out : List Bytes) : Run σ (List Bytes) := do
  if hasMeta b then
    match w.glob (← get).system (cstr (pattern b)) with
    | .found first more => return out ++ first :: more
    | .unmatched => return out ++ [cstr (plain b)]
    | .failed => throw .nospace
  else return out ++ [cstr (plain b)]

def flush (w : World σ) (f : Fields) : Run σ Fields := do
  if f.active then return ⟨[], false, ← emitField w f.field f.out⟩ else return f

def splitBytes (w : World σ) : Bytes → Fields → Run σ Fields
  | [], f => return f
  | c :: rest, f => do
      if isSplitChar (← get).env c then splitBytes w rest (← flush w f)
      else splitBytes w rest ⟨f.field ++ [(c, false)], true, f.out⟩

def splitAppended (w : World σ) (f : Fields) (before : Nat) : Run σ Fields :=
  splitBytes w (plain (f.field.drop before)) { f with field := f.field.take before }

def joinParams (b : Fbuf) : List Bytes → Fbuf
  | [] => b
  | [last] => fbufPushStr b last true
  | next :: more => joinParams (fbufPushStr b next true ++ [(ch ' ', true)]) more

def pushEach (w : World σ) (quoted : Bool) : Bool → List Bytes → Fields → Run σ Fields
  | _, [], f => return f
  | first, param :: more, f => do
      let f ← if first then pure f else flush w f
      let field := fbufPushStr f.field param quoted
      pushEach w quoted false more ⟨field, f.active || quoted || field.length ≠ f.field.length, f.out⟩

def pushParams (w : World σ) (star quoted : Bool) (f : Fields) : Run σ Fields := do
  let params := (← get).params
  if star && quoted then return { f with field := joinParams f.field params }
  else pushEach w quoted true params f

def expandTilde (w : World σ) (p : Bytes) (b : Fbuf) : Run σ (Bytes × Fbuf) := do
  let stop := fun c => c = ch '/' || c = ch ' ' || c = ch '\t' || c = ch '\n' || c = ch '"' || c = ch '\''
  let name := p.takeWhile fun c => !stop c
  let shell ← get
  let home :=
    if name = [] then shell.env (text "HOME")
    else if name.length < 256 then w.getpwnam shell.system name
    else none
  match home with
  | none => return (p, b ++ [(ch '~', true)])
  | some home => return (p.dropWhile fun c => !stop c, fbufPushStr b home true)

def runCmdsub (w : World σ) (flags : Flags) (found : Option (Bytes × Bytes)) : Run σ (Bytes × Bytes) := do
  if flags.nocmd then throw .cmdsub
  else
    match found with
    | none => throw .syntaxError
    | some (program, rest) =>
      match ← modifyGet (w.shCmdsub program) with
      | none => throw .syntaxError
      | some out => return (cstr out, rest)

structure Engine (σ : Type) where
  expandParam : Bytes → Fbuf → Bool → Run σ (Bytes × Fbuf)
  expandArith : Bytes → Fbuf → Run σ (Bytes × Fbuf)
  expandImpl : Bytes → Run σ (List Bytes)

section
variable (w : World σ) (e : Engine σ) (flags : Flags) (sh : Bool)
def expandParamWord (word : Bytes) (quoted : Bool) : Run σ Bytes := do
  if 2 ^ 31 - 1 < word.length then throw .nospace
  else
    let words ← e.expandImpl (if quoted && word.head? = some (ch '~') then ch '\\' :: word else word)
    let env := (← get).env
    let ifs := (env (text "IFS")).getD (text " ")
    if words.any fun field => 2 ^ 31 - 1 < field.length then throw .nospace
    else
      let joined := List.intercalate ((cstr ifs).take 1) words
      match word.getLast? with
      | none => return joined
      | some last => return if !quoted && isSplitChar env last then joined ++ [last] else joined

inductive Quote where
  | none
  | single
  | double
deriving DecidableEq, Repr

def trimScan : Nat → Quote → Bytes → Fbuf → Run σ Fbuf
  | _, q, [], b => if q = .none then return b else throw .syntaxError
  | 0, _, _ :: _, _ => throw .deep
  | fuel + 1, q, c :: p, b => do
      match q with
      | .none =>
        if c = ch '\'' then trimScan fuel .single p b
        else if c = ch '"' then trimScan fuel .double p b
        else if c = ch '\\' ∧ p ≠ [] then trimScan fuel q (p.drop 1) (b ++ [(p.headD 0, true)])
        else if c = ch '$' then
          let (rest, b) ← e.expandParam (c :: p) b false
          trimScan fuel q rest b
        else trimScan fuel q p (b ++ [(c, false)])
      | .single =>
        if c = ch '\'' then trimScan fuel .none p b else trimScan fuel q p (b ++ [(c, true)])
      | .double =>
        if c = ch '"' then trimScan fuel .none p b
        else if c = ch '\\' ∧ p.headD 0 ∈ [ch '\\', ch '"', ch '$', 96] then
          trimScan fuel q (p.drop 1) (b ++ [(p.headD 0, true)])
        else if c = ch '$' then
          let (rest, b) ← e.expandParam (c :: p) b true
          trimScan fuel q rest b
        else trimScan fuel q p (b ++ [(c, true)])

def expandTrimPattern (word : Bytes) : Run σ Bytes := do return pattern (← trimScan e word.length .none word [])

def expandTrim (value : Option Bytes) (op : UInt8) (p : Bytes) (b : Fbuf) (quoted : Bool) : Run σ (Bytes × Fbuf) := do
  let longest : Bool := p.head? = some op
  match paramWordEnd .word 0 (if longest then p.drop 1 else p) with
  | none => throw .syntaxError
  | some (word, rest) =>
    match value with
    | none => if flags.undef then throw .badval else return (rest, b)
    | some value =>
      let pattern ← expandTrimPattern e word
      let cuts := List.range (value.length + 1)
      if op = ch '#' then
        let cut := ((if longest then cuts.reverse else cuts).find? fun i => w.fnmatch pattern (value.take i)).getD 0
        return (rest, fbufPushStr b (value.drop cut) quoted)
      else
        let cut := ((if longest then cuts else cuts.reverse).find? fun i => w.fnmatch pattern (value.drop i)).getD
          value.length
        return (rest, fbufPushStr b (value.take cut) quoted)

def expandDefault (name : Bytes) (value : Option Bytes) (colon : Bool) (op : UInt8) (p : Bytes) (b : Fbuf)
    (quoted : Bool) : Run σ (Bytes × Fbuf) := do
  match paramWordEnd .word 0 p with
  | none => throw .syntaxError
  | some (word, rest) =>
    let missing := value.isNone || (colon && value = some [])
    if missing = (op = ch '+' : Bool) then
      return (rest, if op = ch '+' then b else fbufPushStr b (value.getD []) quoted)
    else
      let replacement ← expandParamWord e word quoted
      if op = ch '?' then throw .syntaxError
      else
        if op = ch '=' then setenv name replacement
        return (rest, fbufPushStr b replacement quoted)

def expandNamed (braced : Bool) (start : Bytes) (b : Fbuf) (quoted : Bool) : Run σ (Bytes × Fbuf) := do
  let name := start.takeWhile isNamechar
  let p := start.dropWhile isNamechar
  if 256 ≤ name.length then throw .syntaxError
  else
    let value := (← get).env name
    let c := p.headD 0
    if braced && c ≠ ch '}' then
      if c = ch '#' || c = ch '%' then expandTrim w e flags value c (p.drop 1) b quoted
      else if c = ch ':' && (text "-+=?").contains (p.getD 1 0) then
        expandDefault e name value true (p.getD 1 0) (p.drop 2) b quoted
      else if (text "-+=?").contains c then expandDefault e name value false c (p.drop 1) b quoted
      else throw .syntaxError
    else
      let p := if braced then p.drop 1 else p
      match value with
      | none => if flags.undef then throw .badval else return (p, b)
      | some value => return (p, fbufPushStr b value quoted)

def expandPositional (idx : Nat) (p : Bytes) (b : Fbuf) (quoted : Bool) : Run σ (Bytes × Fbuf) := do
  let shell ← get
  match if sh then (if idx = 0 then some shell.zero else shell.params[idx - 1]?) else none with
  | none => if flags.undef then throw .badval else return (p, b)
  | some value => return (p, fbufPushStr b value quoted)

-- The digits of a braced index; past a million they no longer count.
def positionalIndex (digits : Bytes) : Nat :=
  digits.foldl (fun idx c => if idx < 1000000 then idx * 10 + (c.toNat - 48) else idx) 0

def expandParam (dollar : Bytes) (b : Fbuf) (quoted : Bool) : Run σ (Bytes × Fbuf) := do
  let after := dollar.drop 1
  let braced : Bool := after.head? = some (ch '{')
  let p := if braced then after.drop 1 else after
  let c := p.headD 0
  let closes := !braced || p.getD 1 0 = ch '}'
  let past := p.drop (if braced then 2 else 1)
  let shell ← get
  if braced && c = ch '#' && isNamestart (p.getD 1 0) then
    let name := (p.drop 1).takeWhile isNamechar
    let p := (p.drop 1).dropWhile isNamechar
    if p.head? ≠ some (ch '}') || 256 ≤ name.length then throw .syntaxError
    else
      match shell.env name with
      | none => if flags.undef then throw .badval else return (p.drop 1, fbufPushLong b 0)
      | some value => return (p.drop 1, fbufPushLong b (cstr value).length)
  else if isDigit c then
    if braced then
      let rest := p.dropWhile isDigit
      if rest.head? ≠ some (ch '}') then throw .syntaxError
      else expandPositional flags sh (positionalIndex (p.takeWhile isDigit)) (rest.drop 1) b quoted
    else expandPositional flags sh (c.toNat - 48) (p.drop 1) b quoted
  else if sh && c = ch '?' && closes then return (past, fbufPushLong b shell.lastStatus)
  else if c = ch '#' && closes then return (past, fbufPushLong b (if sh then shell.params.length else 0))
  else if !isNamestart c then return (after, b ++ [(ch '$', false)])
  else expandNamed w e flags braced p b quoted

def arithScan : Nat → Bytes → Fbuf → Run σ Fbuf
  | _, [], b => return b
  | 0, _ :: _, _ => throw .deep
  | fuel + 1, c :: p, b => do
      if c = ch '$' ∧ p.take 2 = text "((" then
        let (rest, b) ← e.expandArith (c :: p) b
        arithScan fuel rest b
      else if c = ch '$' then
        let (rest, b) ← e.expandParam (c :: p) b true
        arithScan fuel rest b
      else arithScan fuel p (b ++ [(c, true)])

def arithWrde : Arith.Wrde → Wrde
  | .badval => .badval
  | .syntaxError => .syntaxError
  | .nospace => .nospace

def wordexpArith (expr : Bytes) : Run σ Int := do
  let shell ← get
  let outcome := Arith.wordexpArith w.longBit { undef := flags.undef, env := shell.env, grants := fun _ => true } expr
  set { shell with env := outcome.final.env }
  match outcome.code with
  | some code => throw (arithWrde code)
  | none => return outcome.result

def expandArith (dollar : Bytes) (b : Fbuf) : Run σ (Bytes × Fbuf) := do
  match arithText dollar.length 0 (dollar.drop 3) with
  | none => throw .syntaxError
  | some (expr, rest) =>
    if 2 ^ 31 - 1 < expr.length then throw .nospace
    else
      let expanded ← arithScan e expr.length expr []
      let result ← wordexpArith w flags (cstr (plain expanded))
      return (rest, fbufPushLong b result)

structure Scan extends Fields where
  p : Bytes
  q : Quote
  dqPrev : Bool
  dqNullAt : Bool
  dqMark : Nat
deriving DecidableEq, Repr

def opensWord (words p : Bytes) : Bool :=
  p.length = words.length || isIfs (words.getD (words.length - p.length - 1) 0)

def special : Bytes := text "|&;<>()\x7b\x7d"

def stepPlain (words : Bytes) (st : Scan) (c : UInt8) (rest : Bytes) : Run σ Scan := do
  if c = ch '#' && opensWord words (c :: rest) then return { st with p := rest.dropWhile (· ≠ ch '\n') }
  else if isIfs c then return { st with toFields := ← flush w st.toFields, p := rest }
  else if c = ch '\'' then return { st with q := .single, active := true, p := rest }
  else if c = ch '"' then
    return { st with q := .double, dqPrev := st.active, dqMark := st.field.length, dqNullAt := false, active := true,
                     p := rest }
  else if c = ch '\\' then
    match rest with
    | [] => throw .syntaxError
    | d :: rest =>
      if d = ch '\n' then return { st with p := rest }
      else return { st with field := st.field ++ [(d, true)], active := true, p := rest }
  else if c = ch '$' && rest.head? = some (ch '\'') then
    match expandDollarSingle rest.length (rest.drop 1) st.field with
    | none => throw .syntaxError
    | some (p, field) => return { st with field := field, active := true, p := p }
  else if c = ch '$' && rest.take 2 = text "((" then
    let (p, field) ← expandArith w e flags (c :: rest) st.field
    return { st with field := field, active := true, p := p }
  else if (c = ch '$' && rest.head? = some (ch '(')) || c = 96 then
    let (o, p) ← runCmdsub w flags
      (if c = 96 then cmdsubBackquoteText rest else cmdsubDollarText .word 0 (rest.drop 1))
    return { st with toFields := ← splitBytes w o st.toFields, p := p }
  else if c = ch '$' then
    match atOrStar rest with
    | some (k, p) =>
      let fields ← if sh then pushParams w (k = ch '*') false st.toFields else pure st.toFields
      return { st with toFields := fields, p := p }
    | none =>
      let (p, field) ← expandParam w e flags sh (c :: rest) st.field false
      return { st with toFields := ← splitAppended w { st.toFields with field := field } st.field.length, p := p }
  else if c = ch '~' && !st.active then
    let (p, field) ← expandTilde w rest st.field
    return { st with field := field, active := true, p := p }
  else if special.contains c then throw .badchar
  else return { st with field := st.field ++ [(c, false)], active := true, p := rest }

def stepDouble (st : Scan) (c : UInt8) (rest : Bytes) : Run σ Scan := do
  if c = ch '"' then
    return { st with q := .none, p := rest,
                     active := st.active && !(st.dqNullAt && !st.dqPrev && st.field.length = st.dqMark) }
  else if c = ch '\\' && [ch '"', ch '\\', ch '$', 96, ch '\n'].contains (rest.headD 0) then
    if rest.headD 0 = ch '\n' then return { st with p := rest.drop 1 }
    else return { st with field := st.field ++ [(rest.headD 0, true)], p := rest.drop 1 }
  else if c = ch '$' && rest.take 2 = text "((" then
    let (p, field) ← expandArith w e flags (c :: rest) st.field
    return { st with field := field, p := p }
  else if (c = ch '$' && rest.head? = some (ch '(')) || c = 96 then
    let (o, p) ← runCmdsub w flags
      (if c = 96 then cmdsubBackquoteText rest else cmdsubDollarText .word 0 (rest.drop 1))
    return { st with field := fbufPushStr st.field o true, p := p }
  else if c = ch '$' then
    match atOrStar rest with
    | some (k, p) =>
      let none_at := k = ch '@' && (!sh || (← get).params.isEmpty)
      let fields ← if sh then pushParams w (k = ch '*') true st.toFields else pure st.toFields
      return { st with toFields := fields, dqNullAt := st.dqNullAt || none_at, p := p }
    | none =>
      let (p, field) ← expandParam w e flags sh (c :: rest) st.field true
      return { st with field := field, p := p }
  else return { st with field := st.field ++ [(c, true)], p := rest }

def step (words : Bytes) (st : Scan) (c : UInt8) (rest : Bytes) : Run σ Scan :=
  match st.q with
  | .none => stepPlain w e flags sh words st c rest
  | .single =>
    if c = ch '\'' then return { st with q := .none, p := rest }
    else return { st with field := st.field ++ [(c, true)], p := rest }
  | .double => stepDouble w e flags sh st c rest

def scan (words : Bytes) : Nat → Scan → Run σ Scan
  | fuel, st =>
    match st.p, fuel with
    | [], _ => return st
    | _ :: _, 0 => throw .deep
    | c :: rest, fuel + 1 => do scan words fuel (← step w e flags sh words st c rest)

def start (words : Bytes) : Scan :=
  { field := [], active := false, out := [], p := words, q := .none, dqPrev := false, dqNullAt := false, dqMark := 0 }

def expandImpl (words : Bytes) : Run σ (List Bytes) := do
  let st ← scan w e flags sh words words.length (start words)
  if st.q = .none then return (← flush w st.toFields).out else throw .syntaxError

end

def engine (w : World σ) (flags : Flags) (sh : Bool) : Nat → Engine σ
  | 0 => ⟨fun _ _ _ => throw .deep, fun _ _ => throw .deep, fun _ => throw .deep⟩
  | depth + 1 =>
    let e := engine w flags sh depth
    ⟨expandParam w e flags sh, expandArith w e flags, expandImpl w e flags sh⟩

def wordexpSh (w : World σ) (words : Bytes) : Run σ (List Bytes) :=
  (engine w ⟨false, false⟩ true (words.length + 1)).expandImpl words

end Spicule.Wordexp
