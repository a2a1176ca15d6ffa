import Spicule.Strtol
import Spicule.Time.Strftime

namespace Spicule.Time
open Ctype
open Diff (ascii)

def skipWs (s : Bytes) : Bytes := s.dropWhile isspace

def takeDigits : Nat → Int → Bytes → Int × Bytes
  | 0, v, s => (v, s)
  | _ + 1, v, [] => (v, [])
  | more + 1, v, c :: s =>
    if isdigit c then takeDigits more (v * 10 + (c.toNat - 48 : Nat)) s else (v, c :: s)

def readNum (s : Bytes) (maxdigits : Nat) : Option (Int × Bytes) :=
  let s := skipWs s
  let (neg, s) :=
    if s.head? = some 43 then (false, s.tail) else if s.head? = some 45 then (true, s.tail) else (false, s)
  if isdigit (s.headD 0) then
    let (v, s) := takeDigits maxdigits 0 s
    some (if neg then -v else v, s)
  else none

def beginsWith (s name : Bytes) : Bool := (s.take name.length).map tolower == name.map tolower

-- Full names before abbreviations, which are their beginnings.
def matchName (s : Bytes) (full abbr : List Bytes) : Option (Nat × Bytes) :=
  match full.findIdx? (beginsWith s) with
  | some i => some (i, s.drop (full.getD i []).length)
  | none => (abbr.findIdx? (beginsWith s)).map fun i => (i, s.drop 3)

-- The cursor, the time, and what %p, %C and %y have said so far (-1: nothing).
structure Scan where
  s : Bytes
  tm : Tm
  pm : Int
  century : Int
  year2 : Int

def composite (c : UInt8) : Option Bytes :=
  match Char.ofNat c.toNat with
  | 'c' => some (ascii "%a %b %e %H:%M:%S %Y")
  | 'D' => some (ascii "%m/%d/%y")
  | 'x' => some (ascii "%m/%d/%y")
  | 'F' => some (ascii "%Y-%m-%d")
  | 'r' => some (ascii "%I:%M:%S %p")
  | 'R' => some (ascii "%H:%M")
  | 'T' => some (ascii "%H:%M:%S")
  | 'X' => some (ascii "%H:%M:%S")
  | _ => none

def numeric (scan : Scan) (maxdigits : Nat) (store : Int → Scan → Scan) : Option Scan :=
  (readNum scan.s maxdigits).map fun (v, s) => store v { scan with s }

def shortYear (v : Int) (scan : Scan) : Scan :=
  { scan with
    year2 := v
    tm.year := if 0 ≤ scan.century then scan.century * 100 + v - 1900 else if v < 69 then v + 100 else v }

def centuryYear (v : Int) (scan : Scan) : Scan :=
  { scan with
    century := v
    tm.year := v * 100 + (if 0 ≤ scan.year2 then scan.year2 else 0) - 1900 }

def readZone (scan : Scan) : Option Scan :=
  match skipWs scan.s with
  | [] => none
  | c :: s =>
    if c = 90 then some { scan with s, tm.gmtoff := 0 }
    else if c = 43 ∨ c = 45 then
      match readNum s 2 with
      | none => none
      | some (h, s) =>
        let s := if s.head? = some 58 then s.tail else s
        let sign := if c = 45 then -1 else 1
        if isdigit (s.headD 0) then
          (readNum s 2).map fun (mn, s) => { scan with s, tm.gmtoff := sign * (h * 3600 + mn * 60) }
        else some { scan with s, tm.gmtoff := sign * (h * 3600) }
    else none

def readDaytime (scan : Scan) : Option Scan :=
  if beginsWith scan.s (ascii "AM") then some { scan with pm := 0, s := scan.s.drop 2 }
  else if beginsWith scan.s (ascii "PM") then some { scan with pm := 1, s := scan.s.drop 2 }
  else none

def simple (localtimeR : Int → Option Tm) (c : UInt8) (scan : Scan) : Option Scan :=
  let wday : Option Scan :=
    (matchName scan.s dayName dayNameAbbr).map fun (i, s) => { scan with s, tm.wday := i }
  let month : Option Scan :=
    (matchName scan.s monthName monthNameAbbr).map fun (i, s) => { scan with s, tm.mon := i }
  match Char.ofNat c.toNat with
  | 'Y' => numeric scan 4 fun v scan => { scan with tm.year := v - 1900 }
  | 'y' => numeric scan 2 shortYear
  | 'C' => numeric scan 2 centuryYear
  | 's' =>
    match Strtol.strtol 64 (skipWs scan.s) 10 with
    | (t, stop) =>
      if stop = skipWs scan.s then none else (localtimeR t).map fun tm => { scan with s := stop, tm }
  | 'U' => numeric scan 2 fun _ scan => scan
  | 'W' => numeric scan 2 fun _ scan => scan
  | 'm' => numeric scan 2 fun v scan => { scan with tm.mon := v - 1 }
  | 'd' => numeric scan 2 fun v scan => { scan with tm.mday := v }
  | 'e' => numeric scan 2 fun v scan => { scan with tm.mday := v }
  | 'H' => numeric scan 2 fun v scan => { scan with tm.hour := v }
  | 'I' => numeric scan 2 fun v scan => { scan with tm.hour := v }
  | 'M' => numeric scan 2 fun v scan => { scan with tm.min := v }
  | 'S' => numeric scan 2 fun v scan => { scan with tm.sec := v }
  | 'j' => numeric scan 3 fun v scan => { scan with tm.yday := v - 1 }
  | 'u' => numeric scan 1 fun v scan => { scan with tm.wday := if v = 7 then 0 else v }
  | 'w' => numeric scan 1 fun v scan => { scan with tm.wday := v }
  | 'a' => wday
  | 'A' => wday
  | 'b' => month
  | 'B' => month
  | 'h' => month
  | 'p' => readDaytime scan
  | 'z' => readZone scan
  | 'Z' => some { scan with s := scan.s.dropWhile isalpha }
  | 'n' => some { scan with s := skipWs scan.s }
  | 't' => some { scan with s := skipWs scan.s }
  | '%' => if scan.s.head? = some 37 then some { scan with s := scan.s.tail } else none
  | _ => none

-- A composite is read by its own format, which holds no further composite.
def parse (localtimeR : Int → Option Tm) : Nat → Bytes → Scan → Option Scan
  | 0, _, _ => none
  | _ + 1, [], scan => some scan
  | fuel + 1, c :: f, scan =>
    if c ≠ 37 then
      if isspace c then parse localtimeR fuel f { scan with s := skipWs scan.s }
      else if scan.s.head? = some c then parse localtimeR fuel f { scan with s := scan.s.tail }
      else none
    else
      match f with
      | [] => none
      | c :: f =>
        match composite c with
        | some sub => (parse localtimeR fuel sub scan).bind (parse localtimeR fuel f)
        | none => (simple localtimeR c scan).bind (parse localtimeR fuel f)

variable (localtimeR : Int → Option Tm) (fuel : Nat) (c : UInt8) (f : Bytes) (scan : Scan)
theorem parse_literal (plain : c ≠ 37) (unspaced : isspace c = false) : parse localtimeR (fuel + 1) (c :: f) scan =
      if scan.s.head? = some c then parse localtimeR fuel f { scan with s := scan.s.tail } else none := by
  cases f <;> simp only [parse, plain, unspaced, ne_eq, not_false_eq_true, if_true, Bool.false_eq_true, if_false]

theorem parse_simple (plain : composite c = none) : parse localtimeR (fuel + 1) (37 :: c :: f) scan =
      (simple localtimeR c scan).bind (parse localtimeR fuel f) := by
  simp only [parse, plain, ne_eq, not_true_eq_false, if_false]

-- Twelve-hour readings wait for the %p of the whole format.
def settleHour (scan : Scan) : Tm :=
  if scan.pm = 1 ∧ scan.tm.hour < 12 then { scan.tm with hour := scan.tm.hour + 12 }
  else if scan.pm = 0 ∧ scan.tm.hour = 12 then { scan.tm with hour := 0 }
  else scan.tm

-- The text left and the time read; a composite's format has at most 20 characters.
def strptime (localtimeR : Int → Option Tm) (s f : Bytes) (tm : Tm) : Option (Bytes × Tm) :=
  (parse localtimeR (f.length + 22) f ⟨s, tm, -1, -1, -1⟩).map fun scan => (scan.s, settleHour scan)

end Spicule.Time
