import Spicule.Diff.Lines
import Spicule.Lib.Decimal
import Spicule.Time.Gmtime

namespace Spicule.Time
open Diff (ascii)

abbrev Bytes := List UInt8

def dayName : List Bytes :=
  [ascii "Sunday", ascii "Monday", ascii "Tuesday", ascii "Wednesday", ascii "Thursday", ascii "Friday", ascii "Saturday"]

def dayNameAbbr : List Bytes :=
  [ascii "Sun", ascii "Mon", ascii "Tue", ascii "Wed", ascii "Thu", ascii "Fri", ascii "Sat"]

def monthName : List Bytes :=
  [ascii "January", ascii "February", ascii "March", ascii "April", ascii "May", ascii "June",
    ascii "July", ascii "August", ascii "September", ascii "October", ascii "November", ascii "December"]

def monthNameAbbr : List Bytes :=
  [ascii "Jan", ascii "Feb", ascii "Mar", ascii "Apr", ascii "May", ascii "Jun",
    ascii "Jul", ascii "Aug", ascii "Sep", ascii "Oct", ascii "Nov", ascii "Dec"]

def floordiv (a b : Int) : Int :=
  if a.tmod b ≠ 0 ∧ decide (a < 0) ≠ decide (b < 0) then a.tdiv b - 1 else a.tdiv b

def floormod (a b : Int) : Int :=
  let r := a.tmod b
  if r ≠ 0 ∧ decide (r < 0) ≠ decide (b < 0) then r + b else r

def isoWeeksInYear (y : Int) : Int :=
  let p := floormod (y + floordiv y 4 - floordiv y 100 + floordiv y 400) 7
  let pp := floormod (y - 1 + floordiv (y - 1) 4 - floordiv (y - 1) 100 + floordiv (y - 1) 400) 7
  if p = 4 ∨ pp = 3 then 53 else 52

def isoWeek (year yday wday : Int) : Int × Int :=
  let isodow := if wday = 0 then 7 else wday
  let week := (yday + 1 - isodow + 10).tdiv 7
  if week < 1 then (year - 1, isoWeeksInYear (year - 1))
  else if isoWeeksInYear year < week then (year + 1, 1)
  else (year, week)

theorem floordiv_floor (a : Int) {b : Int} (positive : 0 < b) : floordiv a b = a / b := by
  unfold floordiv
  rw [Int.tmod_eq_emod, Int.tdiv_eq_ediv]
  have low := Int.emod_nonneg a positive.ne'
  have high := Int.emod_lt_of_pos a positive
  have whole := Int.emod_eq_zero_of_dvd (a := b) (b := a)
  grind [Int.sign_eq_one_of_pos]

theorem floormod_floor (a : Int) {b : Int} (positive : 0 < b) : floormod a b = a % b := by
  have low := Int.emod_nonneg a positive.ne'
  have high := Int.emod_lt_of_pos a positive
  unfold floormod
  rw [Int.tmod_eq_emod]
  grind

-- The digits go through an array of 24, which no unsigned long fills.
def numDigits (v width : Nat) (pad : UInt8) : Bytes :=
  let digits := Decimal.digits v
  (((List.replicate (width - digits.length) pad ++ digits).reverse).take 24).reverse

-- format_number; `automaticPlus` is the length past which a year takes a sign.
def numberText (value : Int) (width : Nat) (plus : Bool) (automaticPlus : Nat) : Bytes :=
  let digits := Decimal.digits value.natAbs
  let signed := decide (value < 0) || (plus && digits.length < width) ||
    (decide (0 ≤ value) && automaticPlus != 0 && automaticPlus < digits.length)
  let zeroes := width - digits.length - (if signed then 1 else 0)
  (if signed then [if value < 0 then 45 else 43] else []) ++ List.replicate zeroes 48 ++ digits

-- PUT_CH, PUT_STR, PUT_NUM and format_number; `fault` is an operation that overflows.
inductive Piece where
  | ch (c : UInt8)
  | str (s : Bytes)
  | num (v : Int) (width : Nat) (pad : UInt8)
  | number (v : Int) (width : Nat) (plus : Bool) (automaticPlus : Nat)
  | fault
deriving DecidableEq

def intMax : Nat := 2 ^ 31 - 1

structure Spec where
  plus : Bool
  explicitWidth : Bool
  width : Nat

def wdayOf (tm : Tm) : Int := if 0 ≤ tm.wday ∧ tm.wday < 7 then tm.wday else 0

def monOf (tm : Tm) : Int := if 0 ≤ tm.mon ∧ tm.mon < 12 then tm.mon else 0

def hour12 (tm : Tm) : Int :=
  let h := tm.hour.tmod 12
  if h ≠ 0 then h else 12

def ampm (tm : Tm) : Bytes := if tm.hour < 12 then ascii "AM" else ascii "PM"

def conversion (mktime : Tm → Option Int) (tm : Tm) (spec : Spec) (f : UInt8) : List Piece :=
  let year := tm.year + 1900
  let wday := wdayOf tm
  let two (v : Int) : Piece := .num v 2 48
  let slash : Piece := .ch 47
  let colon : Piece := .ch 58
  let blank : Piece := .ch 32
  match Char.ofNat f.toNat with
  | 'a' => [.str (dayNameAbbr.getD wday.toNat [])]
  | 'A' => [.str (dayName.getD wday.toNat [])]
  | 'h' => [.str (monthNameAbbr.getD (monOf tm).toNat [])]
  | 'b' => [.str (monthNameAbbr.getD (monOf tm).toNat [])]
  | 'B' => [.str (monthName.getD (monOf tm).toNat [])]
  | 'c' =>
    [.str (dayNameAbbr.getD wday.toNat []), blank, .str (monthNameAbbr.getD (monOf tm).toNat []), blank,
      .num tm.mday 2 32, blank, two tm.hour, colon, two tm.min, colon, two tm.sec, blank, .number year 4 false 4]
  | 'C' => [.number (floordiv year 100) (if spec.explicitWidth then spec.width else 2) spec.plus 0]
  | 'd' => [two tm.mday]
  | 'D' => [two (tm.mon + 1), slash, two tm.mday, slash, two (year.tmod 100)]
  | 'e' => [.num tm.mday 2 32]
  | 'F' =>
    let yw := if spec.explicitWidth then (if 6 < spec.width then spec.width - 6 else 1) else 4
    [.number year yw spec.plus (if spec.explicitWidth then 0 else 4), .ch 45, two (tm.mon + 1), .ch 45, two tm.mday]
  | 'H' => [two tm.hour]
  | 'I' => [two (hour12 tm)]
  | 'j' => [.num (tm.yday + 1) 3 48]
  | 'm' => [two (tm.mon + 1)]
  | 'M' => [two tm.min]
  | 'n' => [.ch 10]
  | 'p' => [.str (ampm tm)]
  | 'r' => [two (hour12 tm), colon, two tm.min, colon, two tm.sec, blank, .str (ampm tm)]
  | 'R' => [two tm.hour, colon, two tm.min]
  | 'S' => [two tm.sec]
  | 't' => [.ch 9]
  | 'T' => [two tm.hour, colon, two tm.min, colon, two tm.sec]
  | 'u' => [.num (if wday ≠ 0 then wday else 7) 1 48]
  | 'U' => [two ((tm.yday + 7 - wday).tdiv 7)]
  | 'V' => [two (isoWeek year tm.yday wday).2]
  | 'G' =>
    [.number (isoWeek year tm.yday wday).1 (if spec.explicitWidth then spec.width else 4) spec.plus
      (if spec.explicitWidth then 0 else 4)]
  | 'g' => [two (floormod (isoWeek year tm.yday wday).1 100)]
  | 'w' => [.num wday 1 48]
  | 'W' => [two ((tm.yday + 7 - (if wday ≠ 0 then wday - 1 else 6)).tdiv 7)]
  | 'x' => [two (tm.mon + 1), slash, two tm.mday, slash, two (year.tmod 100)]
  | 'X' => [two tm.hour, colon, two tm.min, colon, two tm.sec]
  | 'y' => [two (floormod year 100)]
  | 'Y' =>
    [.number year (if spec.explicitWidth then spec.width else 4) spec.plus (if spec.explicitWidth then 0 else 4)]
  | 's' => (mktime tm).elim [.fault] fun t => [.number t 1 false 0]
  | 'z' =>
    .ch (if tm.gmtoff < 0 then 45 else 43) ::
      (if tm.gmtoff < 0 then ll (-tm.gmtoff) else some tm.gmtoff).elim [.fault]
        fun off => [two (off.tdiv 3600), two ((off.tmod 3600).tdiv 60)]
  | 'Z' => [.str (ascii tm.zone)]
  | '%' => [.ch 37]
  | _ => [.ch 37, .ch f]

def readWidth : Bytes → Bool → Nat → (Bool × Nat) × Bytes
  | [], explicit, width => ((explicit, width), [])
  | c :: f, explicit, width =>
    if Decimal.isDigit c then
      let digit := c.toNat - 48
      readWidth f true (if (intMax - digit) / 10 < width then intMax else width * 10 + digit)
    else ((explicit, width), c :: f)

def readFlags (f : Bytes) : Spec × Bytes :=
  let (plus, f) := if f.head? = some 43 then (true, f.tail) else (false, f)
  let f := if f.head? = some 48 then f.tail else f
  let ((explicitWidth, width), f) := readWidth f false 0
  (⟨plus, explicitWidth, width⟩, f)

-- No era is defined: %E and %O fall back to the plain conversion.
def skipModifier : Bytes → Bytes
  | e :: c :: f => if e = 69 ∨ e = 79 then c :: f else e :: c :: f
  | f => f

def layout (mktime : Tm → Option Int) (tm : Tm) : Nat → Bytes → List Piece
  | 0, _ => []
  | _ + 1, [] => []
  | fuel + 1, c :: f =>
    if c ≠ 37 then .ch c :: layout mktime tm fuel f
    else
      match readFlags f with
      | (spec, f) =>
        match skipModifier f with
        | [] => []
        | c :: f => conversion mktime tm spec c ++ layout mktime tm fuel f

structure Sink where
  pos : Nat
  writes : List (Nat × UInt8)
  overflow : Bool

def Sink.write (s : Sink) (c : UInt8) : Sink :=
  { s with pos := s.pos + 1, writes := s.writes ++ [(s.pos, c)] }

-- After an overflow the code is at `done` and puts nothing more.
def putCh (max : Nat) (s : Sink) (c : UInt8) : Sink :=
  if s.overflow then s else if max ≤ s.pos + 1 then { s with overflow := true } else s.write c

def putStr (max : Nat) (s : Sink) (text : Bytes) : Sink := text.foldl (putCh max) s

def putNum (max : Nat) (s : Sink) (v : Int) (width : Nat) (pad : UInt8) : Sink :=
  putStr max (if v < 0 then putCh max s 45 else s) (numDigits v.natAbs width pad)

-- The number and a NUL after it are written only if both fit.
def formatNumber (max : Nat) (s : Sink) (text : Bytes) : Sink :=
  if s.overflow then s
  else if max - s.pos ≤ text.length then { s with overflow := true }
  else
    let s := text.foldl Sink.write s
    { s with writes := s.writes ++ [(s.pos, 0)] }

def put (max : Nat) (s : Sink) : Piece → Sink
  | .ch c => putCh max s c
  | .str text => putStr max s text
  | .num v width pad => putNum max s v width pad
  | .number v width plus automaticPlus => formatNumber max s (numberText v width plus automaticPlus)
  | .fault => s

-- none: there was room up to an operation whose result a long cannot hold.
def doStrftime (mktime : Tm → Option Int) (max : Nat) (f : Bytes) (tm : Tm) : Option (Nat × List (Nat × UInt8)) :=
  let pieces := layout mktime tm f.length f
  let s := (pieces.takeWhile (· ≠ .fault)).foldl (put max) ⟨0, [], false⟩
  if s.overflow then some (0, s.writes)
  else if .fault ∈ pieces then none
  else some (s.pos, s.writes ++ [(s.pos, 0)])

def strftime (mktime : Tm → Option Int) (max : Nat) (f : Bytes) (tm : Tm) : Option (Nat × List (Nat × UInt8)) :=
  if max = 0 then some (0, []) else doStrftime mktime max f tm

-- The letters the switch is entered with.
def letters : Nat → Bytes → Bytes
  | 0, _ => []
  | _ + 1, [] => []
  | fuel + 1, c :: f =>
    if c ≠ 37 then letters fuel f
    else
      match skipModifier (readFlags f).2 with
      | [] => []
      | c :: f => c :: letters fuel f

end Spicule.Time
