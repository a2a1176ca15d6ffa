import Spicule.Cron.Fields

namespace Spicule.Cron
open Strtol Time
open Diff (ascii)

structure InRange (t : Tm) : Prop where
  min : 0 ≤ t.min ∧ t.min ≤ 59
  hour : 0 ≤ t.hour ∧ t.hour ≤ 23
  mday : 1 ≤ t.mday ∧ t.mday ≤ 31
  mon : 0 ≤ t.mon ∧ t.mon ≤ 11
  wday : 0 ≤ t.wday ∧ t.wday ≤ 6

def ClockDue (texts : Schedule) (t : Tm) : Prop :=
  Allows minuteField texts.min t.min.toNat ∧ Allows hourField texts.hour t.hour.toNat ∧
    Allows monthField texts.mon (t.mon + 1).toNat

def DomDue (texts : Schedule) (t : Tm) : Prop := Allows domField texts.dom t.mday.toNat

def DowDue (texts : Schedule) (t : Tm) : Prop := Allows dowField texts.dow t.wday.toNat

def Restricted (texts : Schedule) : Prop := texts.dom ≠ star ∧ texts.dow ≠ star

def Due (texts : Schedule) (t : Tm) : Prop :=
  ClockDue texts t ∧ (Restricted texts → DomDue texts t ∨ DowDue texts t) ∧
    (¬ Restricted texts → DomDue texts t ∧ DowDue texts t)

theorem set_allows {f : Field} {text : Bytes} {out : List Bool} (bounded : f.top < 2 ^ 63 - 1)
    (parsed : accepted f text = some out) {v : Int} (low : 0 ≤ v) (high : v ≤ f.hi) :
    set out v = true ↔ Allows f text v.toNat :=
  parse_field_allows bounded parsed v.toNat (by omega)

variable (texts : Schedule) {e : Crontime}
theorem parse_fields (parsed : crontimeParse texts = some e) :
    accepted minuteField texts.min = some e.minute ∧ accepted hourField texts.hour = some e.hour ∧
      accepted domField texts.dom = some e.dom ∧ accepted monthField texts.mon = some e.month ∧
      accepted dowField texts.dow = some e.dow ∧ e.domIsStar = (texts.dom == star) := by
  simp only [crontimeParse, Option.bind_eq_bind, Option.bind_eq_some_iff] at parsed
  obtain ⟨minute, m, hour, h, dom, d, month, mo, dow, w, same⟩ := parsed
  cases same
  exact ⟨m, h, d, mo, w, rfl⟩

-- A starred day of the month leaves the day of the week, any other needs both.
theorem matches_iff (parsed : crontimeParse texts = some e) {t : Tm}
    (inRange : InRange t) : crontimeMatches e t = true ↔
      ClockDue texts t ∧ (texts.dom ≠ star → DomDue texts t) ∧ DowDue texts t := by
  obtain ⟨minute, hour, dom, month, dow, starred⟩ := parse_fields texts parsed
  have minutes := set_allows (by decide) minute inRange.min.1 inRange.min.2
  have hours := set_allows (by decide) hour inRange.hour.1 inRange.hour.2
  have days := set_allows (by decide) dom (Int.le_trans (by decide) inRange.mday.1)
    inRange.mday.2
  have months := set_allows (by decide) month
    (Int.le_trans inRange.mon.1 (Int.le_add_one (Int.le_refl _))) (Int.add_le_add_right inRange.mon.2 1)
  have weekdays := set_allows (by decide) dow inRange.wday.1 inRange.wday.2
  rw [ClockDue, DomDue, DowDue, ← minutes, ← hours, ← days, ← months, ← weekdays, crontimeMatches, starred]
  by_cases star_dom : texts.dom = star <;> simp [star_dom, and_assoc]

def noon (mday wday : Int) : Tm :=
  { sec := 0, min := 0, hour := 12, mday, mon := 0, year := 126, wday, yday := 0, isdst := 0, gmtoff := 0, zone := "UTC" }

def oddFriday : Schedule := ⟨ascii "0", ascii "12", ascii "13", ascii "*", ascii "fri"⟩

theorem noon_in_range (mday wday : Int) (day : 1 ≤ mday ∧ mday ≤ 31) (weekday : 0 ≤ wday ∧ wday ≤ 6) :
    InRange (noon mday wday) :=
  ⟨(by decide : (0 : Int) ≤ 0 ∧ (0 : Int) ≤ 59), (by decide : (0 : Int) ≤ 12 ∧ (12 : Int) ≤ 23), day,
    (by decide : (0 : Int) ≤ 0 ∧ (0 : Int) ≤ 11), weekday⟩

theorem odd_friday_accepted : (crontimeParse oddFriday).isSome = true := by decide +kernel

theorem odd_friday_parsed : ∃ e, crontimeParse oddFriday = some e ∧ set e.minute 0 = true ∧ set e.hour 12 = true ∧
    set e.month 1 = true ∧ set e.dom 2 = false ∧ set e.dow 5 = true := by
  refine ⟨(crontimeParse oddFriday).get odd_friday_accepted, (Option.some_get odd_friday_accepted).symm,
    ?_, ?_, ?_, ?_, ?_⟩ <;> decide +kernel

theorem matches_friday_the_13th : ∃ e, crontimeParse oddFriday = some e ∧ InRange (noon 13 5) ∧
    crontimeMatches e (noon 13 5) = true ∧ ClockDue oddFriday (noon 13 5) ∧ DomDue oddFriday (noon 13 5) ∧
      DowDue oddFriday (noon 13 5) := by
  have matched : crontimeMatches ((crontimeParse oddFriday).get odd_friday_accepted) (noon 13 5) = true := by
    decide +kernel
  have parsed := (Option.some_get odd_friday_accepted).symm
  have inRange := noon_in_range 13 5 (by decide) (by decide)
  obtain ⟨clock, dom, dow⟩ := (matches_iff oddFriday parsed inRange).mp matched
  exact ⟨_, parsed, inRange, matched, clock, dom (by decide), dow⟩

-- "0 12 13 * fri" is due on every Friday, and the code waits for a Friday the 13th.
theorem friday_the_2nd_missed : ∃ e, crontimeParse oddFriday = some e ∧ InRange (noon 2 5) ∧ Due oddFriday (noon 2 5) ∧
    crontimeMatches e (noon 2 5) = false := by
  obtain ⟨e, parsed, minute, hour, month, dom, dow⟩ := odd_friday_parsed
  obtain ⟨minutes, hours, _, months, dows, starred⟩ := parse_fields oddFriday parsed
  have restricted : Restricted oddFriday := by constructor <;> decide
  have clock : ClockDue oddFriday (noon 2 5) :=
    ⟨(set_allows (by decide) minutes (by decide) (by decide)).mp minute,
      (set_allows (by decide) hours (by decide) (by decide)).mp hour,
      (set_allows (by decide) months (by decide) (by decide)).mp month⟩
  have friday : DowDue oddFriday (noon 2 5) :=
    (set_allows (by decide) dows (by decide) (by decide)).mp dow
  refine ⟨e, parsed, noon_in_range 2 5 (by decide) (by decide),
    ⟨clock, fun _ => .inr friday, fun open_days => absurd restricted open_days⟩, ?_⟩
  have unstarred : e.domIsStar = false := by rw [starred]; decide
  simp [crontimeMatches, noon, minute, hour, month, unstarred, dom]

end Spicule.Cron
