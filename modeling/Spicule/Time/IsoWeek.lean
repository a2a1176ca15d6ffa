import Spicule.Time.Strftime

-- ISO 8601 weeks run from Monday and belong to the year of their Thursday.
namespace Spicule.Time
open Calendar

def monday (z : Int) : Int := z - (weekday z - 1) % 7

def firstMonday (y : Int) : Int := monday (yearStart y + (4 - weekday (yearStart y)) % 7)

theorem iso_weeks_in_year_spec (y : Int) : isoWeeksInYear y =
    if weekday (yearStart (y + 1) - 1) = 4 ∨ weekday (yearStart y) = 4 then 53 else 52 := by
  unfold isoWeeksInYear
  simp only [floordiv_floor _ (show (0 : Int) < 4 by decide), floordiv_floor _ (show (0 : Int) < 100 by decide),
    floordiv_floor _ (show (0 : Int) < 400 by decide), floormod_floor _ (show (0 : Int) < 7 by decide)]
  unfold weekday yearStart
  rw [add_sub_cancel_right]
  grind

theorem monday_eq (z : Int) : monday z = 7 * ((z + 3) / 7) - 3 := by
  unfold monday weekday
  omega

theorem first_monday_eq (y : Int) : firstMonday y = 7 * ((yearStart y + 6) / 7) - 3 := by
  rw [firstMonday, monday_eq, weekday]
  omega

theorem iso_week_spec {y k : Int} (low : 0 ≤ k) (high : yearStart y + k < yearStart (y + 1)) :
    ∃ g, yearStart g ≤ monday (yearStart y + k) + 3 ∧ monday (yearStart y + k) + 3 < yearStart (g + 1) ∧
      isoWeek y k (weekday (yearStart y + k)) = (g, 1 + (monday (yearStart y + k) - firstMonday g) / 7) := by
  have before := year_start_succ (y - 1)
  have inside := year_start_succ y
  have after := year_start_succ (y + 1)
  rw [sub_add_cancel] at before
  have isodow : (if weekday (yearStart y + k) = 0 then 7 else weekday (yearStart y + k)) =
      (yearStart y + k + 3) % 7 + 1 := by
    unfold weekday
    split <;> omega
  simp only [isoWeek, isodow, iso_weeks_in_year_spec, monday_eq, first_monday_eq, sub_add_cancel]
  rw [Int.tdiv_eq_ediv_of_nonneg (by omega)]
  split
  · refine ⟨y - 1, ?_⟩
    rw [sub_add_cancel, Prod.mk.injEq]
    unfold weekday
    split at before <;> split <;> omega
  · split
    · rename_i long
      unfold weekday at long
      refine ⟨y, ?_⟩
      rw [if_neg (by split at inside <;> omega), Prod.mk.injEq]
      split at inside <;> omega
    · rename_i short
      unfold weekday at short
      split
      · refine ⟨y + 1, ?_⟩
        rw [Prod.mk.injEq]
        split at inside <;> split at after <;> omega
      · refine ⟨y, ?_⟩
        rw [Prod.mk.injEq]
        split at inside <;> omega

-- %G and %V for day `z`: the year of its week's Thursday, and one more than the weeks
-- since that year's first Thursday.
def IsoDated (tm : Tm) (z : Int) : Prop :=
  ∃ thursday, Valid thursday ∧ dayNumber thursday = monday z + 3 ∧ ∀ mktime spec,
    conversion mktime tm spec 71 = [.number thursday.year (if spec.explicitWidth then spec.width else 4) spec.plus
      (if spec.explicitWidth then 0 else 4)] ∧
    conversion mktime tm spec 86 = [.num (1 + (monday z - firstMonday thursday.year) / 7) 2 48]

theorem iso_week_date {tm : Tm} {date : Date} (fits : InInt tm.year) (valid : Valid date)
    (year : tm.year + 1900 = date.year) (yday : tm.yday = dayOfYear date) (wday : tm.wday = weekday (dayNumber date)) :
    IsoDated tm (dayNumber date) := by
  obtain ⟨low, high⟩ := day_number_year date valid
  obtain ⟨g, from_start, to_end, week⟩ := iso_week_spec (Int.natCast_nonneg (dayOfYear date)) high
  have near := monday_eq (dayNumber date)
  obtain ⟨y, m, d, -, valid', number⟩ := civil_from_days_spec (monday (dayNumber date) + 3)
    (by unfold InInt yearStart at *; omega) (by unfold InInt yearStart at *; omega)
  obtain ⟨low', high'⟩ := day_number_year _ valid'
  have same : y = g := year_unique low' high' (number ▸ from_start) (number ▸ to_end)
  have day : wdayOf tm = weekday (dayNumber date) := by
    unfold wdayOf
    rw [wday, if_pos (by unfold weekday; omega)]
  refine ⟨_, valid', number, fun mktime spec => ?_⟩
  have found : isoWeek (tm.year + 1900) tm.yday (wdayOf tm) = (y, 1 + (monday (dayNumber date) - firstMonday y) / 7) := by
    rw [year, yday, day, same]
    exact week
  have values : conversion mktime tm spec 71 = [.number (isoWeek (tm.year + 1900) tm.yday (wdayOf tm)).1
        (if spec.explicitWidth then spec.width else 4) spec.plus (if spec.explicitWidth then 0 else 4)] ∧
      conversion mktime tm spec 86 = [.num (isoWeek (tm.year + 1900) tm.yday (wdayOf tm)).2 2 48] := ⟨rfl, rfl⟩
  rwa [found] at values

theorem iso_week_date_eve : IsoDated newYearsEve (-1) :=
  @iso_week_date newYearsEve ⟨1969, 12, 31⟩ (by decide) ⟨by decide, by decide, by decide, by decide⟩ (by decide) (by decide)
    (by decide)

end Spicule.Time
