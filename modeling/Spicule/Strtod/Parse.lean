import Spicule.Strtol
import Spicule.Strtod.ScaleRound
import Spicule.Lib.Numeral

-- strtod, strtof and strtold; a string ends with its list, where the source meets the null.
namespace Spicule.Strtod
open Ctype Numeral Rounding
open Strtol (Bytes sign)

def maxdig : Nat := 800

def scanMantissa {σ : Type} (digit : UInt8 → Option Nat) (push : Bool → σ → Nat → σ) : Bytes → Bool → σ → σ × Bytes
  | [], _, scan => (scan, [])
  | c :: rest, seenDot, scan =>
    match digit c with
    | some d => scanMantissa digit push rest seenDot (push seenDot scan d)
    | none => if c = 46 ∧ seenDot = false then scanMantissa digit push rest true scan else (scan, c :: rest)

structure Decimal where
  dig : List Nat
  exp : Int
  any : Bool
  sticky : Bool

def Decimal.push (seenDot : Bool) (scan : Decimal) (d : Nat) : Decimal :=
  if scan.dig.length < maxdig then
    { scan with
      any := true
      dig := if scan.dig.length ≠ 0 ∨ d ≠ 0 then scan.dig ++ [d] else scan.dig
      exp := if seenDot then int32 (scan.exp - 1) else scan.exp }
  else
    { scan with
      any := true
      sticky := scan.sticky || d ≠ 0
      exp := if seenDot then scan.exp else int32 (scan.exp + 1) }

def decDigit (c : UInt8) : Option Nat := if isdigit c then some (c.toNat - 48) else none

-- The exponent stops growing once it has six digits.
def expDigits : Bytes → Nat → Nat × Bytes
  | [], e => (e, [])
  | c :: rest, e =>
    if isdigit c then expDigits rest (if e < 100000 then e * 10 + (c.toNat - 48) else e) else (e, c :: rest)

def expPart (lower upper : UInt8) (s : Bytes) : Int × Bytes :=
  match s with
  | [] => (0, [])
  | c :: q =>
    if c = lower ∨ c = upper then
      let (eneg, q) := sign q
      if (q.head?.map isdigit).getD false then
        let (e, rest) := expDigits q 0
        (if eneg then -(e : Int) else e, rest)
      else (0, s)
    else (0, s)

def trimZeros : Nat → List Nat → Int → List Nat × Int
  | 0, dig, exp => (dig, exp)
  | fuel + 1, dig, exp =>
    if 1 < dig.length ∧ dig.getLast? = some 0 then trimZeros fuel dig.dropLast (int32 (exp + 1)) else (dig, exp)

def bnDigits : Nat → List Nat → Bn → Bn
  | 0, _, N => N
  | fuel + 1, dig, N =>
    if dig.length = 0 then N
    else
      let chunk := (dig.take 9).foldl (fun chunk d => chunk * 10 + d) 0
      bnDigits fuel (dig.drop 9) (bnMuladd N (10 ^ (dig.take 9).length) chunk)

-- The value is none if the rounding did not return.
structure Parsed where
  nz : Bool
  value : Option (WithTop ℚ)
  stop : Bytes

def decValue (dig : List Nat) (exp : Int) (sticky : Bool) (p : Nat) (emin : Int) : Option (WithTop ℚ) :=
  if dig.length = 0 then some 0
  else
    let (dig, exp) := trimZeros dig.length dig exp
    if int32 (exp + dig.length) ≥ 310 then some ⊤
    else if int32 (exp + dig.length) ≤ -324 then some 0
    else
      let N := bnDigits dig.length dig (bnSetu32 0)
      let D := bnSetu32 1
      let N := if exp > 0 then bnMulPow10 N exp.toNat else N
      let D := if exp < 0 then bnMulPow10 D (-exp).toNat else D
      bnScaleRound N D 0 sticky p emin

def parseDec (s : Bytes) (p : Nat) (emin : Int) : Option Parsed :=
  let (scan, rest) := scanMantissa decDigit Decimal.push s false { dig := [], exp := 0, any := false, sticky := false }
  if scan.any = false then none
  else
    let (e, rest) := expPart 101 69 rest
    let exp := int32 (scan.exp + e)
    some { nz := scan.dig.length ≠ 0, value := decValue scan.dig exp scan.sticky p emin, stop := rest }

structure Hex where
  m : Nat
  exp : Int
  any : Bool
  sticky : Bool

def Hex.push (seenDot : Bool) (scan : Hex) (d : Nat) : Hex :=
  if scan.m >>> 60 ≠ 0 then
    { scan with
      any := true
      sticky := scan.sticky || d ≠ 0
      exp := if seenDot then scan.exp else int32 (scan.exp + 4) }
  else
    { scan with
      any := true
      m := (scan.m <<< 4) ||| d
      exp := if seenDot then int32 (scan.exp - 4) else scan.exp }

def hexDigit (c : UInt8) : Option Nat :=
  if isdigit c then some (c.toNat - 48)
  else if 97 ≤ c.toNat ∧ c.toNat ≤ 102 then some (c.toNat - 97 + 10)
  else if 65 ≤ c.toNat ∧ c.toNat ≤ 70 then some (c.toNat - 65 + 10)
  else none

def bnSetu64 (m : Nat) : Bn := if m >>> 32 ≠ 0 then [m % 2 ^ 32, m >>> 32] else bnSetu32 (m % 2 ^ 32)

def parseHex (s : Bytes) (p : Nat) (emin : Int) : Option Parsed :=
  let (scan, rest) := scanMantissa hexDigit Hex.push s false { m := 0, exp := 0, any := false, sticky := false }
  if scan.any = false then none
  else
    let m := if scan.sticky then scan.m ||| 1 else scan.m
    let (e, rest) := expPart 112 80 rest
    let exp := int32 (scan.exp + e)
    some {
      nz := m ≠ 0
      value := if m = 0 then some 0 else bnScaleRound (bnSetu64 m) (bnSetu32 1) exp false p emin
      stop := rest }

def ciPrefix : Bytes → Bytes → Bool
  | _, [] => true
  | [], _ :: _ => false
  | c :: s, w :: word => if tolower c ≠ w then false else ciPrefix s word

def infWord : Bytes := [105, 110, 102]

def infinityWord : Bytes := [105, 110, 102, 105, 110, 105, 116, 121]

def nanWord : Bytes := [110, 97, 110]

inductive Kind where
  | float
  | double
deriving DecidableEq

def Kind.p : Kind → Nat
  | .float => 24
  | .double => 53

def Kind.emin : Kind → Int
  | .float => -149
  | .double => -1074

def Kind.max : Kind → ℚ
  | .float => value (2 ^ 24 - 1) 104
  | .double => value (2 ^ 53 - 1) 971

def Kind.min : Kind → ℚ
  | .float => value 1 (-126)
  | .double => value 1 (-1022)

inductive Number where
  | nan
  | magnitude (v : WithTop ℚ)

structure Result where
  neg : Bool
  number : Number
  erange : Bool
  stop : Bytes

def rangeCheck (kind : Kind) (nz : Bool) (v : WithTop ℚ) : Bool × WithTop ℚ :=
  if (kind.max : WithTop ℚ) < v then (true, ⊤)
  else if nz = true ∧ v < (kind.min : WithTop ℚ) then (true, v)
  else (false, v)

def nanStop (s : Bytes) : Bytes :=
  match s with
  | [] => []
  | c :: q =>
    if c = 40 then
      match q.dropWhile fun c => isalnum c || c == 95 with
      | [] => s
      | c :: rest => if c = 41 then rest else s
    else s

def hexAhead (s : Bytes) : Option Bytes :=
  match s with
  | zero :: x :: rest => if zero = 48 ∧ (x = 120 ∨ x = 88) then some rest else none
  | _ => none

-- The numeric branches; after "0x" without a digit only the zero counts.
def parseNumber (s : Bytes) (p : Nat) (emin : Int) : Option Parsed :=
  match hexAhead s with
  | some rest =>
    match parseHex rest p emin with
    | some parsed => some parsed
    | none => some { nz := false, value := some 0, stop := s.drop 1 }
  | none => parseDec s p emin

def strtox (kind : Kind) (s0 : Bytes) : Option Result :=
  let (neg, s) := sign (s0.dropWhile isspace)
  if ciPrefix s infWord then
    some { neg, number := .magnitude ⊤, erange := false,
           stop := if ciPrefix s infinityWord then s.drop 8 else s.drop 3 }
  else if ciPrefix s nanWord then some { neg, number := .nan, erange := false, stop := nanStop (s.drop 3) }
  else
    match parseNumber s kind.p kind.emin with
    | none => some { neg := false, number := .magnitude 0, erange := false, stop := s0 }
    | some parsed =>
      match parsed.value with
      | none => none
      | some v =>
        let (erange, v) := rangeCheck kind parsed.nz v
        some { neg, number := .magnitude v, erange, stop := parsed.stop }

-- A floating subject sequence: its digits, its point and its exponent, of any length.

inductive Radix where
  | dec
  | hex
deriving DecidableEq

def Radix.base : Radix → Nat
  | .dec => 10
  | .hex => 16

-- An exponent counts tens or twos, and a place is worth one ten or four twos.
def Radix.step : Radix → ℚ
  | .dec => 10
  | .hex => 2

def Radix.weight : Radix → Nat
  | .dec => 1
  | .hex => 4

def Radix.digit : Radix → UInt8 → Option Nat
  | .dec => decDigit
  | .hex => hexDigit

def digitsAhead (radix : Radix) : Bytes → List Nat × Bytes
  | [] => ([], [])
  | c :: rest =>
    match radix.digit c with
    | some d => (d :: (digitsAhead radix rest).1, (digitsAhead radix rest).2)
    | none => ([], c :: rest)

def mantissa (radix : Radix) (s : Bytes) : List Nat × Nat × Bytes :=
  let (whole, rest) := digitsAhead radix s
  match rest with
  | [] => (whole, 0, [])
  | c :: behind =>
    if c = 46 then
      let (frac, rest) := digitsAhead radix behind
      (whole ++ frac, frac.length, rest)
    else (whole, 0, c :: behind)

def Radix.marks : Radix → UInt8 → Prop
  | .dec, c => c = 101 ∨ c = 69
  | .hex, c => c = 112 ∨ c = 80

instance (radix : Radix) (c : UInt8) : Decidable (radix.marks c) := by
  cases radix <;> exact inferInstanceAs (Decidable (_ ∨ _))

def exponentAhead (radix : Radix) (s : Bytes) : Bool × List Nat × Bytes :=
  match s with
  | [] => (false, [], [])
  | c :: q =>
    if radix.marks c then
      let (neg, behind) := sign q
      let (digits, rest) := digitsAhead .dec behind
      if digits = [] then (false, [], c :: q) else (neg, digits, rest)
    else (false, [], c :: q)

structure Reading where
  radix : Radix
  digits : List Nat
  places : Nat
  expNeg : Bool
  expDigits : List Nat
  stop : Bytes

def readNumber (radix : Radix) (s : Bytes) : Option Reading :=
  let (digits, places, rest) := mantissa radix s
  if digits = [] then none
  else
    let (expNeg, expDigits, stop) := exponentAhead radix rest
    some { radix, digits, places, expNeg, expDigits, stop }

-- "0x" before no digit is the number zero and an x.
def readUnsigned (s : Bytes) : Option Reading :=
  match (hexAhead s).bind (readNumber .hex) with
  | some r => some r
  | none => readNumber .dec s

def subject (s0 : Bytes) : Option (Bool × Reading) :=
  let (neg, s) := sign (s0.dropWhile isspace)
  if ciPrefix s infWord = true ∨ ciPrefix s nanWord = true then none else (readUnsigned s).map fun r => (neg, r)

-- An exponent whose growth stops at six digits.
def cutFrom (e : Nat) (digits : List Nat) : Nat := digits.foldl (fun e d => if e < 100000 then e * 10 + d else e) e

namespace Reading

variable (r : Reading)
def significand : Nat := natOf r.radix.base r.digits

def signed (e : Nat) : Int := if r.expNeg then -(e : Int) else e

def exponent : Int := r.signed (natOf 10 r.expDigits)

def cutExponent : Int := r.signed (cutFrom 0 r.expDigits)

def exact (e : Int) : ℚ := r.significand * r.radix.step ^ (e - r.radix.weight * r.places)

def limit : Nat :=
  match r.radix with
  | .dec => maxdig
  | .hex => 16

def kept : List Nat := (Numeral.significant r.digits).take r.limit

def dropped : List Nat := (Numeral.significant r.digits).drop r.limit

def counter : Int := r.radix.weight * ((r.dropped.length : Int) - r.places)

def margin : Nat :=
  match r.radix with
  | .dec => r.kept.length
  | .hex => 63

structure Countable : Prop where
  counter_low : -2 ^ 31 ≤ r.counter
  counter_high : r.counter < 2 ^ 31
  sum_low : -2 ^ 31 ≤ r.counter + r.cutExponent
  sum_high : r.counter + r.cutExponent + r.margin < 2 ^ 31

end Reading

end Spicule.Strtod
