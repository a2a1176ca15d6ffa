import Spicule.Lib.Calendar

namespace Spicule.Time
open Option Prod Calendar

-- A long long operation; none is an overflow.
def ll (x : Int) : Option Int := if -2 ^ 63 ≤ x ∧ x < 2 ^ 63 then some x else none

def u32 (x : Int) : Nat := (x % 2 ^ 32).toNat

-- What an era's division truncates: the era's last day or year below zero.
def eraBase (y last : Int) : Option Int := if 0 ≤ y then some y else ll (y - last)

def daysFromCivil (y : Int) (m d : Nat) : Option Int := do
  let y ← ll (y - if m ≤ 2 then 1 else 0)
  let base ← eraBase y 399
  let era := base.tdiv 400
  let years ← ll (era * 400)
  let rest ← ll (y - years)
  let yoe := u32 rest
  let mp := u32 (m + if 2 < m then -3 else 9)
  let doy := u32 ((u32 (153 * mp + 2) / 5 : Nat) + d - 1)
  let doe := u32 (yoe * 365 + yoe / 4 - yoe / 100 + doy)
  let days ← ll (era * 146097)
  let days ← ll (days + doe)
  ll (days - 719468)

def civilFromDays (z : Int) : Option (Int × Nat × Nat) := do
  let z ← ll (z + 719468)
  let base ← eraBase z 146096
  let era := base.tdiv 146097
  let days ← ll (era * 146097)
  let rest ← ll (z - days)
  let doe := u32 rest
  let yoe := u32 (doe - doe / 1460 + doe / 36524 - doe / 146096) / 365
  let years ← ll (era * 400)
  let yy ← ll (yoe + years)
  let doy := u32 (doe - (365 * yoe + yoe / 4 - yoe / 100))
  let mp := u32 (5 * doy + 2) / 153
  let d := u32 (doy - (u32 (153 * mp + 2) / 5 : Nat) + 1)
  let m := u32 (mp + if mp < 10 then 3 else -9)
  let y ← ll (yy + if m ≤ 2 then 1 else 0)
  some (y, m, d)

def wdayFromDays (z : Int) : Int := (z.tmod 7 + 11).tmod 7

theorem ll_some (x : Int) (low : -2 ^ 63 ≤ x) (high : x < 2 ^ 63) : ll x = some x := if_pos ⟨low, high⟩

theorem u32_nat (x : Int) (n : Nat) (same : x = n) (small : n < 2 ^ 32) : u32 x = n := by
  unfold u32
  omega

theorem trunc_spec (a b : Int) (pos : 0 < b) :
    b * a.tdiv b + a.tmod b = a ∧ (0 ≤ a → 0 ≤ a.tmod b ∧ a.tmod b < b) ∧ (a < 0 → -b < a.tmod b ∧ a.tmod b ≤ 0) := by
  refine ⟨Int.mul_tdiv_add_tmod a b, ?_, ?_⟩
  · intro nonneg
    exact ⟨Int.tmod_nonneg b nonneg, Int.tmod_lt_of_pos a pos⟩
  · intro negative
    have flipped : (-a).tmod b = -(a.tmod b) := Int.neg_tmod a b
    have low := Int.tmod_nonneg b (show 0 ≤ -a by omega)
    have high := Int.tmod_lt_of_pos (-a) pos
    omega

variable (y : Int)
theorem era_floor (n : Int) (pos : 0 < n) : (if 0 ≤ y then y else y - (n - 1)).tdiv n = y / n := by
  split
  · rename_i nonneg
    rw [Int.tdiv_eq_ediv_of_nonneg nonneg]
  · rename_i negative
    have low := Int.emod_nonneg y pos.ne'
    have high := Int.emod_lt_of_pos y pos
    have shifted : -(y - (n - 1)) = (n - 1 - y % n) + n * -(y / n) := by
      have split := Int.mul_ediv_add_emod y n
      linarith
    have floor : -(y - (n - 1)) / n = -(y / n) := by
      rw [shifted, Int.add_mul_ediv_left _ _ pos.ne', Int.ediv_eq_zero_of_lt (by omega) (by omega), zero_add]
    rw [← neg_neg (y - (n - 1)), Int.neg_tdiv, Int.tdiv_eq_ediv_of_nonneg (by omega), floor, neg_neg]

def marchNumber (y doy : Int) : Int := 365 * y + y / 4 - y / 100 + y / 400 + doy - 719468

theorem march_length (m : Nat) (low : 3 ≤ m) (high : m ≤ 12) :
    (153 * (m - 3) + 2) / 5 + monthLength y m = (153 * (m + 1 - 3) + 2) / 5 := by
  interval_cases m <;> rfl

theorem march_start (m : Nat) (low : 3 ≤ m) (high : m ≤ 12) :
    monthStart y m = 59 + (if leap y then 1 else 0) + (153 * (m - 3) + 2) / 5 := by
  induction m, low using Nat.le_induction with
  | base =>
    cases long : leap y with
    | true | false => simp [monthStart, monthLength, long]
  | succ m low ih =>
    rw [month_start_succ y (by omega), ih (by omega)]
    have step := march_length y m low (by omega)
    omega

theorem march_number {m : Nat} (d : Nat) (low : 1 ≤ m) (high : m ≤ 12) (first : 1 ≤ d) :
    marchNumber (y - if m ≤ 2 then 1 else 0) ((153 * ((m + 9) % 12 : Nat) + 2) / 5 + d - 1) =
      dayNumber { year := y, month := m, day := d } := by
  unfold dayNumber dayOfYear
  simp only
  by_cases early : m ≤ 2
  · have start : monthStart y m = 31 * (m - 1) := by
      interval_cases m
      · rfl
      · rfl
    rw [if_pos early, start]
    unfold marchNumber yearStart
    interval_cases m
    · omega
    · omega
  · have place : (m + 9) % 12 = m - 3 := by omega
    have start := march_start y m (by omega) high
    have year := year_start_succ y
    have span : marchNumber y ((153 * (m - 3 : Nat) + 2) / 5 + d - 1) =
        yearStart (y + 1) - 306 + ((153 * (m - 3 : Nat) + 2) / 5 + d - 1) := by
      unfold marchNumber yearStart
      rw [add_sub_cancel_right]
      omega
    rw [if_neg early, sub_zero, place, span, year, start]
    split <;> omega

theorem era_base (n k : Int) (pos : 0 < n) (last : k = n - 1) (low : -2 ^ 63 + n ≤ y) :
    ∃ base, eraBase y k = some base ∧ base.tdiv n = y / n := by
  have floor := era_floor y n pos
  unfold eraBase
  rw [last]
  split
  · rename_i nonneg
    rw [if_pos nonneg] at floor
    exact ⟨y, rfl, floor⟩
  · rename_i negative
    rw [if_neg negative] at floor
    exact ⟨_, ll_some _ (by omega) (by omega), floor⟩

theorem march_of_era {yoe doe : Nat} (era : Int) {rest : Nat} (few : yoe ≤ 399)
    (split : 365 * yoe + yoe / 4 - yoe / 100 + rest = doe) :
    marchNumber (yoe + era * 400) rest = doe + era * 146097 - 719468 := by
  have fours : (yoe + era * 400) / 4 = yoe / 4 + era * 100 := by omega
  have hundreds : (yoe + era * 400) / 100 = yoe / 100 + era * 4 := by omega
  have eras : (yoe + era * 400) / 400 = era := by omega
  unfold marchNumber
  rw [fours, hundreds, eras]
  omega

theorem days_from_civil_spec (m d : Nat) (low : -2 ^ 40 ≤ y) (high : y ≤ 2 ^ 40) (month_low : 1 ≤ m) (month_high : m ≤ 12)
    (day_low : 1 ≤ d) (day_high : d ≤ 31) : daysFromCivil y m d = some (dayNumber { year := y, month := m, day := d }) := by
  rw [← march_number y d month_low month_high day_low]
  obtain ⟨y', shape⟩ : ∃ y', y' = y - if m ≤ 2 then 1 else 0 := ⟨_, rfl⟩
  obtain ⟨mp, place⟩ : ∃ mp, mp = (m + 9) % 12 := ⟨_, rfl⟩
  have third : u32 (m + if 2 < m then -3 else 9) = mp := u32_nat _ _ (by split <;> omega) (by omega)
  have range : -2 ^ 40 - 1 ≤ y' ∧ y' ≤ 2 ^ 40 := by split at shape <;> omega
  obtain ⟨base, guarded, era⟩ := era_base y' 400 399 (by norm_num) (by norm_num) (by omega)
  obtain ⟨yoe, years⟩ : ∃ yoe : Nat, (yoe : Int) = y' - y' / 400 * 400 := ⟨(y' - y' / 400 * 400).toNat, by omega⟩
  obtain ⟨doy, days⟩ : ∃ doy, doy = (153 * mp + 2) / 5 + d - 1 := ⟨_, rfl⟩
  obtain ⟨doe, split⟩ : ∃ doe, 365 * yoe + yoe / 4 - yoe / 100 + doy = doe := ⟨_, rfl⟩
  have few : yoe ≤ 399 := by omega
  have bound : doe ≤ 146098 := by omega
  have first : u32 (y' - y' / 400 * 400) = yoe := u32_nat _ _ years.symm (by omega)
  have second : u32 (153 * mp + 2) = 153 * mp + 2 := u32_nat _ _ (by omega) (by omega)
  have fourth : u32 (((153 * mp + 2) / 5 : Nat) + d - 1) = doy := u32_nat _ _ (by omega) (by omega)
  have fifth : u32 (yoe * 365 + yoe / 4 - yoe / 100 + doy) = doe := u32_nat _ _ (by omega) (by omega)
  have counted : ((153 * mp + 2) / 5 + d - 1 : Int) = doy := by omega
  have whole := march_of_era (y' / 400) few split
  rw [show (yoe : Int) + y' / 400 * 400 = y' by omega] at whole
  rw [← shape, ← place, counted, whole]
  clear split counted days place
  simp only [daysFromCivil, ← shape, ll_some y' (by omega) (by omega), bind_eq_bind, bind_some, guarded, era,
    ll_some (y' / 400 * 400) (by omega) (by omega), ll_some (y' - y' / 400 * 400) (by omega) (by omega), first, second, third,
    fourth, fifth, ll_some (y' / 400 * 146097) (by omega) (by omega)]
  rw [ll_some _ (by omega) (by omega), bind_some, ll_some _ (by omega) (by omega), some.injEq]
  omega

theorem era_split {doe : Nat} (inside : doe ≤ 146096) :
    ∃ c q s, c ≤ 3 ∧ q ≤ 24 ∧ s ≤ 1460 ∧ doe = 36524 * c + 1461 * q + s ∧ (s = 1460 → q < 24 ∨ c = 3) := by
  refine ⟨min 3 (doe / 36524), (doe - 36524 * min 3 (doe / 36524)) / 1461, (doe - 36524 * min 3 (doe / 36524)) % 1461, ?_⟩
  omega

theorem year_of_era {c q s : Nat} (century : c ≤ 3) (span : q ≤ 24) (inside : s ≤ 1460) (last : s = 1460 → q < 24 ∨ c = 3)
    {doe : Nat} (split : doe = 36524 * c + 1461 * q + s) :
    (doe - doe / 1460 + doe / 36524 - doe / 146096) / 365 = 100 * c + 4 * q + min 3 (s / 365) := by
  have days : doe / 1460 = 25 * c + q + (24 * c + q + s) / 1460 := by omega
  have centuries : doe / 36524 - doe / 146096 = c := by omega
  have order : doe / 146096 ≤ doe / 36524 := by omega
  have total : doe - doe / 1460 + doe / 36524 - doe / 146096 = 365 * (100 * c + 4 * q) + (s - (24 * c + q + s) / 1460) := by
    omega
  rw [total]
  omega

theorem year_days (c : Nat) {q t : Nat} (span : q ≤ 24) (year : t ≤ 3) :
    365 * (100 * c + 4 * q + t) + (100 * c + 4 * q + t) / 4 - (100 * c + 4 * q + t) / 100 = 36524 * c + 1461 * q + 365 * t := by
  omega

theorem month_of_day {doy mp : Nat} (y : Int) (inside : doy ≤ 365) (month : mp = (5 * doy + 2) / 153)
    (leap_day : doy = 365 → leap y = true) :
    mp ≤ 11 ∧ (153 * mp + 2) / 5 ≤ doy ∧
      doy - (153 * mp + 2) / 5 + 1 ≤ monthLength y (if mp < 10 then mp + 3 else mp - 9) := by
  have few : mp ≤ 11 := by omega
  refine ⟨few, by omega, ?_⟩
  by_cases february : mp = 11
  · have most : doy - (153 * mp + 2) / 5 + 1 ≤ if doy = 365 then 29 else 28 := by
      split <;> omega
    apply most.trans
    rw [february]
    by_cases last : doy = 365
    · simp [monthLength, last, leap_day last]
    · rw [if_neg last]
      simp only [monthLength]
      cases leap y <;> simp
  · have short : monthLength y (if mp < 10 then mp + 3 else mp - 9) =
        if mp = 1 ∨ mp = 3 ∨ mp = 6 ∨ mp = 8 then 30 else 31 := by
      interval_cases mp <;> simp [monthLength] at february ⊢
    rw [short]
    split <;> omega

theorem span_date {s t : Nat} (inside : s ≤ 1460) (year : t = min 3 (s / 365)) :
    365 * t ≤ s ∧ s - 365 * t ≤ 365 ∧ (s - 365 * t = 365 → s = 1460 ∧ t = 3) := by
  omega

theorem span_leap {c q : Nat} (span : q ≤ 24) (last : q < 24 ∨ c = 3) :
    (100 * c + 4 * q + 3 + 1) % 4 = 0 ∧ ((100 * c + 4 * q + 3 + 1) % 100 ≠ 0 ∨ 100 * c + 4 * q + 3 = 399) := by
  omega

theorem era_date (doe : Nat) (inside : doe ≤ 146096) :
    ∃ yoe doy, (doe - doe / 1460 + doe / 36524 - doe / 146096) / 365 = yoe ∧ yoe ≤ 399 ∧
      365 * yoe + yoe / 4 - yoe / 100 + doy = doe ∧ doy ≤ 365 ∧
      (doy = 365 → (yoe + 1) % 4 = 0 ∧ ((yoe + 1) % 100 ≠ 0 ∨ yoe = 399)) := by
  obtain ⟨c, q, s, century, span, short, split, last⟩ := era_split inside
  have found := year_of_era century span short last split
  obtain ⟨t, year⟩ : ∃ t, t = min 3 (s / 365) := ⟨_, rfl⟩
  rw [← year] at found
  have fourth : t ≤ 3 := year ▸ Nat.min_le_left 3 _
  have days := year_days c span fourth
  obtain ⟨reached, few, long⟩ := span_date short year
  clear inside year
  refine ⟨100 * c + 4 * q + t, s - 365 * t, found, ?_, ?_, few, ?_⟩
  · clear found days split
    omega
  · rw [days, split]
    clear found days split
    omega
  · intro leap_day
    obtain ⟨full, third⟩ := long leap_day
    rw [third]
    exact span_leap span (last full)

theorem leap_of_era {yoe : Nat} (era : Int) (fourth : (yoe + 1) % 4 = 0) (not_hundredth : (yoe + 1) % 100 ≠ 0 ∨ yoe = 399) :
    leap (yoe + era * 400 + 1) = true := by
  rw [leap_iff]
  omega

theorem era_terms (doe : Nat) : (doe : Int) - doe / 1460 + doe / 36524 - doe / 146096 =
    (doe - doe / 1460 + doe / 36524 - doe / 146096 : Nat) := by
  omega

theorem day_of_year {yoe doy doe : Nat} (split : 365 * yoe + yoe / 4 - yoe / 100 + doy = doe) :
    (doe : Int) - (365 * yoe + yoe / 4 - yoe / 100) = doy := by
  omega

theorem civil_from_days_spec (z : Int) (low : -2 ^ 60 ≤ z) (high : z ≤ 2 ^ 60) :
    ∃ y m d, civilFromDays z = some (y, m, d) ∧ Valid { year := y, month := m, day := d } ∧
      dayNumber { year := y, month := m, day := d } = z := by
  obtain ⟨w, shape⟩ : ∃ w, w = z + 719468 := ⟨_, rfl⟩
  obtain ⟨base, guarded, era⟩ := era_base w 146097 146096 (by norm_num) (by norm_num) (by omega)
  obtain ⟨doe, days⟩ : ∃ doe : Nat, (doe : Int) = w - w / 146097 * 146097 := ⟨(w - w / 146097 * 146097).toNat, by omega⟩
  obtain ⟨yoe, doy, found, few, split, inside, leap_day⟩ := era_date doe (by omega)
  obtain ⟨yy, turned⟩ : ∃ yy : Int, yy = yoe + w / 146097 * 400 := ⟨_, rfl⟩
  obtain ⟨mp, month⟩ : ∃ mp, mp = (5 * doy + 2) / 153 := ⟨_, rfl⟩
  have place : u32 (5 * doy + 2) / 153 = mp := by
    rw [u32_nat _ (5 * doy + 2) (by omega) (by omega), month]
  obtain ⟨m, named⟩ : ∃ m, m = if mp < 10 then mp + 3 else mp - 9 := ⟨_, rfl⟩
  obtain ⟨y, calendar⟩ : ∃ y, y = yy + if m ≤ 2 then 1 else 0 := ⟨_, rfl⟩
  have counted : u32 (w - w / 146097 * 146097) = doe := u32_nat _ _ days.symm (by omega)
  have first : u32 ((doe : Int) - doe / 1460 + doe / 36524 - doe / 146096) / 365 = yoe := by
    rw [u32_nat _ _ (era_terms doe) (by omega), found]
  clear found
  have second : u32 ((doe : Int) - (365 * yoe + yoe / 4 - yoe / 100)) = doy := u32_nat _ _ (day_of_year split) (by omega)
  have months : mp ≤ 11 := by omega
  have third : u32 (mp + if mp < 10 then 3 else -9) = m :=
    u32_nat _ _ (by split at named <;> omega) (by split at named <;> omega)
  have range : 1 ≤ m ∧ m ≤ 12 ∧ (m + 9) % 12 = mp := by
    split at named <;> omega
  obtain ⟨_, reached, in_month⟩ := month_of_day y inside month fun last => by
    have february : m ≤ 2 := by
      split at named <;> omega
    rw [calendar, if_pos february, turned]
    exact leap_of_era _ (leap_day last).1 (leap_day last).2
  obtain ⟨d, counted_day⟩ : ∃ d, d = doy - (153 * mp + 2) / 5 + 1 := ⟨_, rfl⟩
  have inner : u32 (153 * mp + 2) = 153 * mp + 2 := u32_nat _ _ (by omega) (by omega)
  have fourth : u32 ((doy : Int) - (u32 (153 * mp + 2) / 5 : Nat) + 1) = d := by
    rw [inner]
    exact u32_nat _ _ (by omega) (by omega)
  refine ⟨y, m, d, ?_, ⟨range.1, range.2.1, by simp only; omega, ?_⟩, ?_⟩
  · simp only [civilFromDays, ← shape, ll_some w (by omega) (by omega), bind_eq_bind, bind_some, guarded, era,
      ll_some (w / 146097 * 146097) (by omega) (by omega), ll_some (w - w / 146097 * 146097) (by omega) (by omega), counted,
      first, ll_some (w / 146097 * 400) (by omega) (by omega)]
    rw [← turned, ll_some yy (by omega) (by omega), bind_some]
    simp only [second, place, fourth, third, ← calendar]
    rw [ll_some y (by split at calendar <;> omega) (by split at calendar <;> omega), bind_some]
  · simp only
    rw [named, counted_day]
    exact in_month
  · have number := march_number y d range.1 range.2.1 (by omega)
    rw [← number, range.2.2]
    have year : y - (if m ≤ 2 then 1 else 0) = yoe + w / 146097 * 400 := by
      rw [calendar, add_sub_cancel_right, turned]
    have day : ((153 * (mp : Int) + 2) / 5 + d - 1) = doy := by omega
    rw [year, day, march_of_era _ few split]
    omega

inductive Errno where
  | eoverflow
deriving DecidableEq

structure Tm where
  sec : Int
  min : Int
  hour : Int
  mday : Int
  mon : Int
  year : Int
  wday : Int
  yday : Int
  isdst : Int
  gmtoff : Int
  zone : String
deriving DecidableEq

def daySplit (t : Int) : Int × Int :=
  let days := t.tdiv 86400
  let rem := t.tmod 86400
  if rem < 0 then (days - 1, rem + 86400) else (days, rem)

def gmtimeR (t : Int) : Option (Except Errno Tm) := do
  let (days, rem) := daySplit t
  let (y, m, d) ← civilFromDays days
  if y < -2 ^ 31 + 1900 ∨ 2 ^ 31 - 1 + 1900 < y then some (.error .eoverflow)
  else do
    let january ← daysFromCivil y 1 1
    let yday ← ll (days - january)
    some (.ok
      { year := y - 1900, mon := m - 1, mday := d, hour := rem.tdiv 3600, min := (rem.tmod 3600).tdiv 60,
        sec := rem.tmod 60, wday := wdayFromDays days, yday, isdst := 0, gmtoff := 0, zone := "UTC" })

def carried (tm : Tm) : Int × Nat :=
  let y := tm.year + 1900 + tm.mon.tdiv 12
  let mon := tm.mon.tmod 12
  if mon < 0 then (y - 1, (mon + 12).toNat + 1) else (y, mon.toNat + 1)

def fieldSeconds (tm : Tm) : Option Int := do
  let (y, m) := carried tm
  let first ← daysFromCivil y m 1
  let days ← ll (first + (tm.mday - 1))
  let secs ← ll (days * 86400)
  let secs ← ll (secs + tm.hour * 3600)
  let secs ← ll (secs + tm.min * 60)
  ll (secs + tm.sec)

def timegm (tm : Tm) : Option (Int × Tm) := do
  let (y, m) := carried tm
  let first ← daysFromCivil y m 1
  let days ← ll (first + (tm.mday - 1))
  let secs ← ll (days * 86400)
  let secs ← ll (secs + tm.hour * 3600)
  let secs ← ll (secs + tm.min * 60)
  let secs ← ll (secs + tm.sec)
  let normal ← gmtimeR secs
  match normal with
  | .ok tm' => some (secs, tm')
  | .error _ => some (secs, tm)

def InInt (x : Int) : Prop := -2 ^ 31 ≤ x ∧ x < 2 ^ 31

instance (x : Int) : Decidable (InInt x) := inferInstanceAs (Decidable (_ ∧ _))

structure IntFields (tm : Tm) : Prop where
  sec : InInt tm.sec
  min : InInt tm.min
  hour : InInt tm.hour
  mday : InInt tm.mday
  mon : InInt tm.mon
  year : InInt tm.year

def linear (tm : Tm) : Int :=
  (dayNumber { year := tm.year + 1900 + tm.mon / 12, month := (tm.mon % 12).toNat + 1, day := 1 } + (tm.mday - 1)) * 86400 +
    tm.hour * 3600 + tm.min * 60 + tm.sec

variable (t : Int)
theorem day_split_spec : daySplit t = (t / 86400, t % 86400) := by
  obtain ⟨whole, above, below⟩ := trunc_spec t 86400 (by norm_num)
  unfold daySplit
  simp only
  split
  · rw [mk.injEq]
    omega
  · rw [mk.injEq]
    omega

variable (tm : Tm)
theorem carried_spec : carried tm = (tm.year + 1900 + tm.mon / 12, (tm.mon % 12).toNat + 1) := by
  obtain ⟨whole, above, below⟩ := trunc_spec tm.mon 12 (by norm_num)
  unfold carried
  simp only
  split
  · rw [mk.injEq]
    omega
  · rw [mk.injEq]
    omega

theorem wday_spec (z : Int) : wdayFromDays z = weekday z := by
  obtain ⟨whole, above, below⟩ := trunc_spec z 7 (by norm_num)
  obtain ⟨whole', above', _⟩ := trunc_spec (z.tmod 7 + 11) 7 (by norm_num)
  unfold wdayFromDays weekday
  omega

theorem gmtime_spec (low : -2 ^ 63 ≤ t) (high : t < 2 ^ 63) : ∃ date, Valid date ∧ dayNumber date = t / 86400 ∧
      gmtimeR t = some (if InInt (date.year - 1900) then
        .ok { year := date.year - 1900, mon := date.month - 1, mday := date.day, hour := t % 86400 / 3600,
              min := t % 86400 % 3600 / 60, sec := t % 86400 % 60, wday := weekday (t / 86400), yday := dayOfYear date,
              isdst := 0, gmtoff := 0, zone := "UTC" }
      else .error .eoverflow) := by
  obtain ⟨y, m, d, found, valid, number⟩ := civil_from_days_spec (t / 86400) (by omega) (by omega)
  refine ⟨{ year := y, month := m, day := d }, valid, number, ?_⟩
  unfold gmtimeR
  simp only [day_split_spec, found, bind_eq_bind, bind_some, wday_spec]
  by_cases inside : y < -2 ^ 31 + 1900 ∨ 2 ^ 31 - 1 + 1900 < y
  · have outside : ¬InInt (y - 1900) := by
      unfold InInt
      omega
    rw [if_pos inside, if_neg outside]
  · have fits : InInt (y - 1900) := by
      unfold InInt
      omega
    have january := days_from_civil_spec y 1 1 (by omega) (by omega) (by norm_num) (by norm_num) (by norm_num) (by norm_num)
    have since : t / 86400 - dayNumber { year := y, month := 1, day := 1 } = dayOfYear { year := y, month := m, day := d } := by
      rw [← number]
      simp only [dayNumber, dayOfYear, monthStart]
      omega
    have short := day_of_year_lt _ valid
    have bound : (dayOfYear { year := y, month := m, day := d } : Int) < 367 := by
      split at short <;> omega
    rw [if_neg inside, if_pos fits, january, bind_some, since, ll_some _ (by omega) (by omega), bind_some]
    have nonneg := Int.emod_nonneg t (show (86400 : Int) ≠ 0 by norm_num)
    have hours := Int.emod_nonneg (t % 86400) (show (3600 : Int) ≠ 0 by norm_num)
    rw [Int.tdiv_eq_ediv_of_nonneg nonneg, Int.tmod_eq_emod_of_nonneg nonneg, Int.tmod_eq_emod_of_nonneg nonneg,
      Int.tdiv_eq_ediv_of_nonneg hours]

theorem number_bound (y : Int) {m : Nat} (first : 1 ≤ m) (last : m ≤ 12) (low : -2 ^ 33 ≤ y) (high : y ≤ 2 ^ 33) :
    -2 ^ 42 ≤ dayNumber { year := y, month := m, day := 1 } ∧ dayNumber { year := y, month := m, day := 1 } ≤ 2 ^ 42 := by
  have some_day : 1 ≤ monthLength y m := by
    unfold monthLength
    split <;> (split <;> omega)
  have year := day_of_year_lt { year := y, month := m, day := 1 } ⟨first, last, le_refl _, some_day⟩
  unfold dayNumber yearStart
  simp only at year ⊢
  split at year <;> omega

theorem field_seconds_spec (fields : IntFields tm) :
    (-2 ^ 63 ≤ linear tm ∧ linear tm < 2 ^ 63) ∧ fieldSeconds tm = some (linear tm) := by
  obtain ⟨⟨sec_low, sec_high⟩, ⟨min_low, min_high⟩, ⟨hour_low, hour_high⟩, ⟨mday_low, mday_high⟩, ⟨mon_low, mon_high⟩,
    ⟨year_low, year_high⟩⟩ := fields
  have month : 1 ≤ (tm.mon % 12).toNat + 1 ∧ (tm.mon % 12).toNat + 1 ≤ 12 := by omega
  have first := days_from_civil_spec (tm.year + 1900 + tm.mon / 12) ((tm.mon % 12).toNat + 1) 1 (by omega) (by omega)
    month.1 month.2 (by norm_num) (by norm_num)
  have bounds := number_bound (tm.year + 1900 + tm.mon / 12) month.1 month.2 (by omega) (by omega)
  unfold fieldSeconds linear
  simp only [carried_spec, first, bind_eq_bind, bind_some]
  generalize dayNumber _ = number at bounds ⊢
  refine ⟨⟨by omega, by omega⟩, ?_⟩
  rw [ll_some _ (by omega) (by omega), bind_some, ll_some _ (by omega) (by omega), bind_some,
    ll_some _ (by omega) (by omega), bind_some, ll_some _ (by omega) (by omega), bind_some,
    ll_some _ (by omega) (by omega)]

theorem timegm_seconds : timegm tm = (fieldSeconds tm).bind fun secs => (gmtimeR secs).bind fun normal =>
    match normal with
    | .ok tm' => some (secs, tm')
    | .error _ => some (secs, tm) := by
  simp only [timegm, fieldSeconds, bind_eq_bind, bind_assoc]

theorem timegm_spec (fields : IntFields tm) : -2 ^ 63 ≤ linear tm ∧ linear tm < 2 ^ 63 ∧
      timegm tm = (gmtimeR (linear tm)).map fun normal => match normal with
        | .ok tm' => (linear tm, tm')
        | .error _ => (linear tm, tm) := by
  obtain ⟨⟨low, high⟩, seconds⟩ := field_seconds_spec tm fields
  refine ⟨low, high, ?_⟩
  rw [timegm_seconds, seconds, bind_some]
  cases gmtimeR (linear tm) with
  | none => rfl
  | some normal =>
    cases normal with
    | ok | error => rfl

theorem linear_fields (date : Date) (valid : Valid date) (number : dayNumber date = t / 86400) (tm : Tm)
    (year : tm.year = date.year - 1900) (mon : tm.mon = date.month - 1) (mday : tm.mday = date.day)
    (hour : tm.hour = t % 86400 / 3600) (minute : tm.min = t % 86400 % 3600 / 60) (sec : tm.sec = t % 86400 % 60) :
    linear tm = t := by
  have low := valid.month_low
  have high := valid.month_high
  have first := valid.day_low
  have month : (tm.mon % 12).toNat + 1 = date.month := by omega
  have same_year : tm.year + 1900 + tm.mon / 12 = date.year := by omega
  have start : dayNumber { year := date.year, month := date.month, day := 1 } + (date.day - 1) = dayNumber date := by
    simp only [dayNumber, dayOfYear]
    omega
  unfold linear
  rw [month, same_year, mday, start, number, hour, minute, sec]
  omega

theorem gmtime_fields (low : -2 ^ 63 ≤ t) (high : t < 2 ^ 63) (ran : gmtimeR t = some (.ok tm)) :
    IntFields tm ∧ linear tm = t ∧ ∃ date, Valid date ∧ dayNumber date = t / 86400 ∧ tm.year = date.year - 1900 ∧
      tm.mon = date.month - 1 ∧ tm.mday = date.day ∧ tm.wday = weekday (t / 86400) ∧ tm.yday = dayOfYear date := by
  obtain ⟨date, valid, number, shown⟩ := gmtime_spec t low high
  rw [ran, some.injEq] at shown
  split at shown
  · rename_i inside
    injection shown with same
    have small := valid.month_high
    have day : date.day ≤ 31 := valid.day_high.trans (by unfold monthLength; split <;> (try split) <;> omega)
    refine ⟨?_, linear_fields t date valid number tm (by rw [same]) (by rw [same]) (by rw [same]) (by rw [same])
      (by rw [same]) (by rw [same]), date, valid, number, by rw [same], by rw [same], by rw [same], by rw [same],
      by rw [same]⟩
    rw [same]
    unfold InInt at inside
    exact ⟨⟨by simp only; omega, by simp only; omega⟩, ⟨by simp only; omega, by simp only; omega⟩,
      ⟨by simp only; omega, by simp only; omega⟩, ⟨by simp only; omega, by simp only; omega⟩,
      ⟨by simp only; omega, by simp only; omega⟩, inside⟩
  · cases shown

theorem gmtime_dates (low : -2 ^ 63 ≤ t) (high : t < 2 ^ 63) : ∃ date, Walk (t / 86400) date ∧
    (InInt (date.year - 1900) → ∃ tm, gmtimeR t = some (.ok tm)) ∧
    (¬ InInt (date.year - 1900) → gmtimeR t = some (.error .eoverflow)) ∧
    ∀ tm, gmtimeR t = some (.ok tm) → tm.year + 1900 = date.year ∧ tm.mon + 1 = date.month ∧ tm.mday = date.day ∧
      tm.wday = weekday (t / 86400) ∧ tm.yday = dayOfYear date := by
  obtain ⟨date, valid, number, shown⟩ := gmtime_spec t low high
  refine ⟨date, number ▸ walk_of_number date valid, fun inside => ⟨_, by rw [shown, if_pos inside]⟩,
    fun outside => by rw [shown, if_neg outside], fun tm ran => ?_⟩
  obtain ⟨_, _, other, valid', number', year, mon, mday, wday, yday⟩ := gmtime_fields t tm low high ran
  rw [day_number_inj date other valid valid' (number.trans number'.symm)]
  exact ⟨by omega, by omega, mday, wday, yday⟩

-- The calendar is the true one. timegm does not look at what gmtime_r answers: a year no int
-- holds leaves the fields as they were.
theorem calendar_round_trip (t : Int) (low : -2 ^ 63 ≤ t) (high : t < 2 ^ 63) (tm : Tm) (fields : IntFields tm) :
    (∃ date, Walk (t / 86400) date ∧
      ((∃ tm, gmtimeR t = some (.ok tm)) ↔ InInt (date.year - 1900)) ∧
      ∀ tm, gmtimeR t = some (.ok tm) → timegm tm = some (t, tm) ∧ tm.year + 1900 = date.year ∧
        tm.mon + 1 = date.month ∧ tm.mday = date.day ∧ tm.wday = weekday (t / 86400) ∧ tm.yday = dayOfYear date) ∧
    ∃ date tm', Walk (linear tm / 86400) date ∧ timegm tm = some (linear tm, tm') ∧
      (gmtimeR (linear tm) = some (.ok tm') ↔ InInt (date.year - 1900)) ∧ (¬ InInt (date.year - 1900) → tm' = tm) := by
  constructor
  · obtain ⟨date, walk, inside, outside, shown⟩ := gmtime_dates t low high
    refine ⟨date, walk, ⟨?_, inside⟩, fun tm ran => ⟨?_, shown tm ran⟩⟩
    · rintro ⟨tm, ran⟩
      by_contra fails
      rw [outside fails] at ran
      cases ran
    · obtain ⟨fields, value, _⟩ := gmtime_fields t tm low high ran
      obtain ⟨_, _, back⟩ := timegm_spec tm fields
      rwa [value, ran] at back
  · obtain ⟨low, high, ran⟩ := timegm_spec tm fields
    obtain ⟨date, walk, inside, outside, _⟩ := gmtime_dates (linear tm) low high
    by_cases fits : InInt (date.year - 1900)
    · obtain ⟨normal, shown⟩ := inside fits
      rw [shown, map_some] at ran
      exact ⟨date, normal, walk, ran, iff_of_true shown fits, fun fails => absurd fits fails⟩
    · rw [outside fits, map_some] at ran
      have shown : gmtimeR (linear tm) ≠ some (.ok tm) := by
        intro same
        rw [outside fits] at same
        cases same
      exact ⟨date, tm, walk, ran, iff_of_false shown fits, fun _ => rfl⟩

-- The last second before the epoch, and the same as one of a thirteenth month.
def newYearsEve : Tm :=
  { year := 69, mon := 11, mday := 31, hour := 23, min := 59, sec := 59, wday := 3, yday := 364, isdst := 0, gmtoff := 0,
    zone := "UTC" }

def uncarried : Tm := { newYearsEve with year := 70, mon := -1, mday := 32, hour := -1 }

theorem calendar_round_trip_eve : timegm newYearsEve = some (-1, newYearsEve) ∧
    timegm uncarried = some (-1, newYearsEve) ∧ gmtimeR (-1) = some (.ok newYearsEve) := by
  have shown : gmtimeR (-1) = some (.ok newYearsEve) := by decide +kernel
  have value : linear uncarried = -1 := by decide +kernel
  have fields : IntFields uncarried := ⟨by decide, by decide, by decide, by decide, by decide, by decide⟩
  obtain ⟨⟨_, _, _, back⟩, date, normal, _, ran, same, kept⟩ :=
    calendar_round_trip (-1) (by norm_num) (by norm_num) uncarried fields
  rw [value] at ran same
  have fits : InInt (date.year - 1900) := by
    by_contra fails
    rw [kept fails] at ran
    exact absurd ran (by decide +kernel)
  have normal_is := same.mpr fits
  rw [shown, some.injEq, Except.ok.injEq] at normal_is
  exact ⟨(back newYearsEve shown).1, normal_is ▸ ran, shown⟩

-- A thirteenth month of the last year an int holds.
def lastYear : Tm := { newYearsEve with year := 2 ^ 31 - 1, mon := 12 }

theorem last_year_unnormalised : timegm lastYear = some (linear lastYear, lastYear) ∧
    gmtimeR (linear lastYear) = some (.error .eoverflow) := by decide +kernel

end Spicule.Time
