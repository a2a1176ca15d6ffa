import Spicule.Strtol
import Spicule.Time.Strftime

namespace Spicule.Time
open Option Ctype Strtol
open Diff (ascii)

def longBound : Int := 2 ^ 63 - 1

-- none is an overflowing operation, as everywhere here.
def mulSat (v factor bound : Int) : Option Int :=
  if bound.tdiv factor < v then some bound
  else if v < -(bound.tdiv factor) then some (-bound)
  else ll (v * factor)

def addSat (a b bound : Int) : Option Int :=
  if 0 ≤ b then (ll (bound - b)).bind fun room => if room < a then some bound else ll (a + b)
  else (ll (-bound - b)).bind fun room => if a < room then some (-bound) else ll (a + b)

-- A run of letters, or anything between angle brackets, cut to the array.
def readName (input : Bytes) (cap : Nat) : Bytes × Bytes :=
  match input with
  | 60 :: p => ((p.takeWhile (· != 62)).take (cap - 1), (p.dropWhile (· != 62)).tail)
  | p => ((p.takeWhile isalpha).take (cap - 1), p.dropWhile isalpha)

structure Zone where
  timezone : Int
  daylight : Int
  std : Bytes
  dst : Bytes
deriving DecidableEq

def utc : Zone := ⟨0, 0, ascii "UTC", ascii "UTC"⟩

def colonNumber (tz : Bytes) : Int × Bytes :=
  match tz with
  | 58 :: tz => strtol 64 tz 10
  | tz => (0, tz)

structure Offset where
  sign : Int
  h : Int
  mn : Int
  s : Int

def readOffset (tz : Bytes) : Offset × Bytes :=
  let (sign, tz) := if tz.head? = some 43 then (1, tz.tail) else if tz.head? = some 45 then (-1, tz.tail) else (1, tz)
  if isdigit (tz.headD 0) then
    let (h, tz) := strtol 64 tz 10
    let (mn, tz) := colonNumber tz
    let (s, tz) := colonNumber tz
    (⟨sign, h, mn, s⟩, tz)
  else (⟨sign, 0, 0, 0⟩, tz)

def total (o : Offset) : Option Int := do
  let hours ← mulSat o.h 3600 longBound
  let minutes ← mulSat o.mn 60 longBound
  let sum ← addSat hours minutes longBound
  let sum ← addSat sum o.s longBound
  if o.sign < 0 then ll (-sum) else some sum

def tzset (tz : Option Bytes) : Option Zone :=
  match tz with
  | none => some utc
  | some [] => some utc
  | some tz =>
    let (std, tz) := readName tz 32
    let std := if std = [] then ascii "UTC" else std
    let (offset, tz) := readOffset tz
    let (dst, _) := readName tz 32
    let dst := if dst = [] then std else dst
    (total offset).map fun timezone => ⟨timezone, 0, std, dst⟩

-- The test before the subtraction; each side is computed only for its own sign.
def leavesRange (timezone t : Int) : Option Bool :=
  if 0 < timezone then (ll (-2 ^ 63 + timezone)).map fun low => decide (t < low)
  else if timezone < 0 then (ll (2 ^ 63 - 1 + timezone)).map fun high => decide (high < t)
  else some false

def zoneName (bytes : Bytes) : String := String.ofList (bytes.map fun c => Char.ofNat c.toNat)

def localFields (zone : Zone) (t : Int) : Option (Except Errno Tm) := do
  let u ← ll (t - zone.timezone)
  let normal ← gmtimeR u
  match normal with
  | .error e => some (.error e)
  | .ok tm => (ll (-zone.timezone)).map fun gmtoff => .ok { tm with isdst := 0, gmtoff, zone := zoneName zone.std }

def localtimeR (tz : Option Bytes) (t : Int) : Option (Except Errno Tm) :=
  (tzset tz).bind fun zone => (leavesRange zone.timezone t).bind fun out =>
    if out then some (.error .eoverflow) else localFields zone t

def mktime (tz : Option Bytes) (tm : Tm) : Option (Int × Tm) :=
  (tzset tz).bind fun zone => (fieldSeconds tm).bind fun secs => (ll (secs + zone.timezone)).bind fun t =>
    (localtimeR tz t).map fun result =>
      match result with
      | .ok tm' => (t, tm')
      | .error _ => (-1, tm)

-- The offset in seconds west of UTC, held within a long at each term.
def clamp (x : Int) : Int := max (-longBound) (min x longBound)

def offsetSeconds (tz : Option Bytes) : Int :=
  match tz with
  | none => 0
  | some [] => 0
  | some tz =>
    let o := (readOffset (readName tz 32).2).1
    let seconds := clamp (clamp (clamp (o.h * 3600) + clamp (o.mn * 60)) + o.s)
    if o.sign < 0 then -seconds else seconds

def IsLong (x : Int) : Prop := -2 ^ 63 ≤ x ∧ x < 2 ^ 63

instance (x : Int) : Decidable (IsLong x) := inferInstanceAs (Decidable (_ ∧ _))

theorem clamp_bounds (x : Int) : -(2 ^ 63 - 1) ≤ clamp x ∧ clamp x ≤ 2 ^ 63 - 1 := by
  unfold clamp longBound
  omega

theorem ll_some_iff (x : Int) : (ll x).isSome = true ↔ IsLong x := by
  unfold ll IsLong
  split <;> simp_all

theorem mul_sat_clamps (v factor : Int) (pos : 0 < factor) : mulSat v factor longBound = some (clamp (v * factor)) := by
  have quotient : longBound.tdiv factor = longBound / factor := Int.tdiv_eq_ediv_of_nonneg (by decide)
  have whole := Int.mul_ediv_add_emod longBound factor
  have remainder := Int.emod_lt_of_pos longBound pos
  have nonneg := Int.emod_nonneg longBound (Int.ne_of_gt pos)
  rw [mulSat, quotient]
  generalize longBound / factor = q at whole ⊢
  have room : longBound = 2 ^ 63 - 1 := rfl
  split
  · rename_i above
    have past : (q + 1) * factor ≤ v * factor := Int.mul_le_mul_of_nonneg_right (by omega) (Int.le_of_lt pos)
    rw [Int.add_mul, Int.one_mul, Int.mul_comm q factor] at past
    rw [clamp, some.injEq]
    omega
  · split
    · rename_i below
      have past : v * factor ≤ -(q + 1) * factor := Int.mul_le_mul_of_nonneg_right (by omega) (Int.le_of_lt pos)
      rw [Int.neg_mul, Int.add_mul, Int.one_mul, Int.mul_comm q factor] at past
      rw [clamp, some.injEq]
      omega
    · have high : v * factor ≤ q * factor := Int.mul_le_mul_of_nonneg_right (by omega) (Int.le_of_lt pos)
      have low : -q * factor ≤ v * factor := Int.mul_le_mul_of_nonneg_right (by omega) (Int.le_of_lt pos)
      rw [Int.neg_mul, Int.mul_comm q factor] at low
      rw [Int.mul_comm q factor] at high
      rw [ll_some _ (by omega) (by omega), clamp, some.injEq]
      omega

theorem add_sat_clamps {a b : Int} (low : -(2 ^ 63 - 1) ≤ a) (high : a ≤ 2 ^ 63 - 1) (long : IsLong b) :
    addSat a b longBound = some (clamp (a + b)) := by
  obtain ⟨least, greatest⟩ := long
  have room : longBound = 2 ^ 63 - 1 := rfl
  unfold addSat
  split
  all_goals
    rw [ll_some _ (by omega) (by omega), bind_some]
    split
    · rw [clamp, some.injEq]
      omega
    · rw [ll_some _ (by omega) (by omega), clamp, some.injEq]
      omega

theorem zero_long : IsLong 0 := by decide

theorem colon_number_long (tz : Bytes) : IsLong (colonNumber tz).1 := by
  unfold colonNumber
  split
  · exact strtol_long _ 10
  · exact zero_long

theorem read_offset_long (tz : Bytes) : IsLong (readOffset tz).1.s := by
  unfold readOffset
  dsimp only
  generalize (if tz.head? = some 43 then ((1 : Int), tz.tail) else
    if tz.head? = some 45 then (-1, tz.tail) else (1, tz)) = signed
  split
  · exact colon_number_long _
  · exact zero_long

theorem total_clamps (o : Offset) (long : IsLong o.s) : total o =
    some (if o.sign < 0 then -clamp (clamp (clamp (o.h * 3600) + clamp (o.mn * 60)) + o.s)
      else clamp (clamp (clamp (o.h * 3600) + clamp (o.mn * 60)) + o.s)) := by
  have hours := clamp_bounds (o.h * 3600)
  have minutes := clamp_bounds (o.mn * 60)
  have sum := clamp_bounds (clamp (o.h * 3600) + clamp (o.mn * 60))
  have seconds := clamp_bounds (clamp (clamp (o.h * 3600) + clamp (o.mn * 60)) + o.s)
  have short : IsLong (clamp (o.mn * 60)) := ⟨by omega, by omega⟩
  simp only [total, bind_eq_bind, mul_sat_clamps o.h 3600 (by decide), mul_sat_clamps o.mn 60 (by decide),
    bind_some, add_sat_clamps hours.1 hours.2 short, add_sat_clamps sum.1 sum.2 long]
  split
  · exact ll_some _ (by omega) (by omega)
  · rfl

variable (tz : Option Bytes)
theorem offset_bounds : -(2 ^ 63 - 1) ≤ offsetSeconds tz ∧ offsetSeconds tz ≤ 2 ^ 63 - 1 := by
  unfold offsetSeconds
  split
  · decide
  · decide
  · rename_i tz _
    have seconds := clamp_bounds (clamp (clamp ((readOffset (readName tz 32).2).1.h * 3600) +
      clamp ((readOffset (readName tz 32).2).1.mn * 60)) + (readOffset (readName tz 32).2).1.s)
    dsimp only
    split <;> omega

theorem tzset_offset : ∃ zone, tzset tz = some zone ∧ zone.timezone = offsetSeconds tz := by
  unfold tzset offsetSeconds
  split
  · exact ⟨utc, rfl, rfl⟩
  · exact ⟨utc, rfl, rfl⟩
  · rename_i tz _
    dsimp only
    rw [total_clamps _ (read_offset_long _), map_some]
    exact ⟨_, rfl, rfl⟩

theorem leaves_range_iff (timezone t : Int) (low : -(2 ^ 63 - 1) ≤ timezone) (high : timezone ≤ 2 ^ 63 - 1) (long : IsLong t) :
    leavesRange timezone t = some (decide (¬ IsLong (t - timezone))) := by
  obtain ⟨least, greatest⟩ := long
  unfold leavesRange IsLong
  split
  · rw [ll_some _ (by omega) (by omega), map_some, some.injEq, decide_eq_decide]
    omega
  · split
    · rw [ll_some _ (by omega) (by omega), map_some, some.injEq, decide_eq_decide]
      omega
    · rw [decide_eq_false (by omega)]

theorem localtime_cases (t : Int) (long : IsLong t) : localtimeR tz t = some (.error .eoverflow) ∨
      ∃ tm name, IsLong (t - offsetSeconds tz) ∧ gmtimeR (t - offsetSeconds tz) = some (.ok tm) ∧
        localtimeR tz t = some (.ok { tm with isdst := 0, gmtoff := -offsetSeconds tz, zone := name }) := by
  obtain ⟨zone, set, offset⟩ := tzset_offset tz
  obtain ⟨low, high⟩ := offset_bounds tz
  simp only [localtimeR, set, bind_some, offset, leaves_range_iff _ t low high long]
  by_cases inside : IsLong (t - offsetSeconds tz)
  · obtain ⟨date, _, _, shown⟩ := gmtime_spec _ inside.1 inside.2
    have kept : decide (¬ IsLong (t - offsetSeconds tz)) = false := decide_eq_false (not_not_intro inside)
    rw [kept, if_neg Bool.false_ne_true]
    simp only [localFields, offset, ll_some _ inside.1 inside.2, shown, bind_eq_bind, bind_some]
    by_cases fits : InInt (date.year - 1900)
    · simp only [if_pos fits]
      rw [ll_some _ (by omega) (by omega), map_some]
      exact .inr ⟨_, zoneName zone.std, inside, rfl, rfl⟩
    · simp only [if_neg fits]
      exact .inl trivial
  · rw [decide_eq_true inside, if_pos rfl]
    exact .inl rfl

theorem localtime_defined (t : Int) (long : IsLong t) : (localtimeR tz t).isSome = true := by
  rcases localtime_cases tz t long with failed | ⟨tm, name, _, _, ran⟩
  · rw [failed]
    rfl
  · rw [ran]
    rfl

theorem mktime_value {tm : Tm} (fields : IntFields tm) : mktime tz tm =
    (ll (linear tm + offsetSeconds tz)).bind fun t => (localtimeR tz t).map fun result => match result with
      | .ok tm' => (t, tm')
      | .error _ => (-1, tm) := by
  obtain ⟨zone, set, offset⟩ := tzset_offset tz
  rw [mktime, set, bind_some, (field_seconds_spec tm fields).2, bind_some, offset]

theorem mktime_defined_iff {tm : Tm} (fields : IntFields tm) :
    (mktime tz tm).isSome = true ↔ IsLong (linear tm + offsetSeconds tz) := by
  rw [mktime_value tz fields, ← ll_some_iff]
  cases added : ll (linear tm + offsetSeconds tz) with
  | none => simp
  | some t =>
    have long : IsLong t := by
      unfold ll at added
      split at added
      · rename_i inside
        cases added
        exact inside
      · cases added
    rw [bind_some, isSome_map, localtime_defined tz t long]
    simp

theorem mktime_localtime {t : Int} {tm : Tm} (long : IsLong t) (ran : localtimeR tz t = some (.ok tm)) :
    mktime tz tm = some (t, tm) := by
  rcases localtime_cases tz t long with failed | ⟨plain, name, inside, normal, shown⟩
  · rw [failed] at ran
    cases ran
  · obtain ⟨fields, value, _⟩ := gmtime_fields _ plain inside.1 inside.2 normal
    rw [ran] at shown
    injection shown with shown
    injection shown with same
    have fields : IntFields tm := by
      rw [same]
      exact { fields with }
    have value : linear tm = t - offsetSeconds tz := by
      rw [same]
      exact value
    rw [mktime_value tz fields, value, Int.sub_add_cancel, ll_some t long.1 long.2, bind_some, ran]
    rfl

structure LocalTimeSafe (tz : Option Bytes) (tm : Tm) : Prop where
  zone : ∃ zone, tzset tz = some zone ∧ IsLong zone.timezone
  fromTime : ∀ t, IsLong t → (localtimeR tz t).isSome = true
  toTime : (mktime tz tm).isSome = true
  back : ∀ t local_, IsLong t → localtimeR tz t = some (.ok local_) → ∃ tm', mktime tz local_ = some (t, tm')

-- The one operation that can overflow is the addition of the zone in mktime.
theorem local_time_safe_iff (tz : Option Bytes) (tm : Tm) (fields : IntFields tm) :
    LocalTimeSafe tz tm ↔ IsLong (linear tm + offsetSeconds tz) := by
  constructor
  · intro safe
    exact (mktime_defined_iff tz fields).mp safe.toTime
  · intro inside
    obtain ⟨zone, set, offset⟩ := tzset_offset tz
    obtain ⟨low, high⟩ := offset_bounds tz
    exact {
      zone := ⟨zone, set, by rw [offset]; omega, by rw [offset]; omega⟩
      fromTime := localtime_defined tz
      toTime := (mktime_defined_iff tz fields).mpr inside
      back := fun t local_ long ran => ⟨local_, mktime_localtime tz long ran⟩ }

theorem local_time_safe_eve : IntFields newYearsEve ∧ offsetSeconds (some (ascii "EST5:30EDT")) = 19800 ∧
    LocalTimeSafe (some (ascii "EST5:30EDT")) newYearsEve := by
  have fields : IntFields newYearsEve := ⟨by decide, by decide, by decide, by decide, by decide, by decide⟩
  have offset : offsetSeconds (some (ascii "EST5:30EDT")) = 19800 := by decide +kernel
  have inside : IsLong (linear newYearsEve + offsetSeconds (some (ascii "EST5:30EDT"))) := by
    rw [offset, show linear newYearsEve = -1 by decide +kernel]
    exact ⟨by decide, by decide⟩
  exact ⟨fields, offset, (local_time_safe_iff (some (ascii "EST5:30EDT")) newYearsEve fields).mpr inside⟩

def secondDay : Tm := { newYearsEve with year := 70, mon := 0, mday := 2 }

-- TZ=X9999999999999999 saturates at LONG_MAX, and a day after the epoch is past it.
theorem saturated_zone_overflows : IntFields secondDay ∧
    (tzset (some (ascii "X9999999999999999"))).map Zone.timezone = some (2 ^ 63 - 1) ∧
    mktime (some (ascii "X9999999999999999")) secondDay = none := by
  refine ⟨⟨by decide, by decide, by decide, by decide, by decide, by decide⟩, by decide +kernel, by decide +kernel⟩

end Spicule.Time
