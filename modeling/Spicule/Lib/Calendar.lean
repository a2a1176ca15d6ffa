import Mathlib

-- The proleptic Gregorian calendar, walked day by day from 1970-01-01.
namespace Spicule.Calendar

structure Date where
  year : Int
  month : Nat
  day : Nat
deriving DecidableEq

def leap (y : Int) : Bool := y % 4 = 0 && (y % 100 ≠ 0 || y % 400 = 0)

def monthLength (y : Int) (m : Nat) : Nat :=
  if m = 2 then if leap y then 29 else 28
  else if m = 4 ∨ m = 6 ∨ m = 9 ∨ m = 11 then 30 else 31

structure Valid (d : Date) : Prop where
  month_low : 1 ≤ d.month
  month_high : d.month ≤ 12
  day_low : 1 ≤ d.day
  day_high : d.day ≤ monthLength d.year d.month

def next (d : Date) : Date :=
  if d.day < monthLength d.year d.month then { d with day := d.day + 1 }
  else if d.month < 12 then { d with month := d.month + 1, day := 1 }
  else { year := d.year + 1, month := 1, day := 1 }

inductive Walk : Int → Date → Prop where
  | epoch : Walk 0 { year := 1970, month := 1, day := 1 }
  | forth (z : Int) (d : Date) : Walk z d → Walk (z + 1) (next d)
  | back (z : Int) (d : Date) : Valid d → Walk (z + 1) (next d) → Walk z d

def monthStart (y : Int) : Nat → Nat
  | 0 => 0
  | 1 => 0
  | m + 1 => monthStart y m + monthLength y m

def dayOfYear (d : Date) : Nat := monthStart d.year d.month + d.day - 1

def yearStart (y : Int) : Int := 365 * (y - 1970) + ((y - 1) / 4 - (y - 1) / 100 + (y - 1) / 400) - 477

def dayNumber (d : Date) : Int := yearStart d.year + dayOfYear d

-- Day 0 was a Thursday; Sunday is 0.
def weekday (z : Int) : Int := (z + 4) % 7

variable (y : Int)
theorem leap_iff : leap y = true ↔ y % 4 = 0 ∧ (y % 100 ≠ 0 ∨ y % 400 = 0) := by
  simp [leap]

theorem year_start_succ : yearStart (y + 1) = yearStart y + (if leap y then 366 else 365) := by
  have rule := leap_iff y
  unfold yearStart
  rw [add_sub_cancel_right]
  split
  · rename_i long
    have parts := rule.mp long
    omega
  · rename_i short
    rw [rule] at short
    have parts : y % 4 ≠ 0 ∨ (y % 100 = 0 ∧ y % 400 ≠ 0) := by omega
    omega

theorem year_start_mono (y' : Int) (before : y < y') : yearStart (y + 1) ≤ yearStart y' := by
  unfold yearStart
  omega

theorem month_start_succ {m : Nat} (pos : 1 ≤ m) : monthStart y (m + 1) = monthStart y m + monthLength y m := by
  obtain ⟨k, rfl⟩ : ∃ k, m = k + 1 := ⟨m - 1, by omega⟩
  rfl

theorem month_start_mono (m m' : Nat) (pos : 1 ≤ m) (before : m < m') :
    monthStart y m + monthLength y m ≤ monthStart y m' := by
  induction m' with
  | zero => omega
  | succ m' ih =>
    rw [month_start_succ y (by omega)]
    rcases Nat.lt_or_ge m m' with earlier | last
    · have reach := ih earlier
      omega
    · rw [show m' = m by omega]

theorem month_start_thirteen : monthStart y 13 = if leap y then 366 else 365 := by
  cases long : leap y with
  | true | false => simp [monthStart, monthLength, long]

variable (d : Date)
theorem day_of_year_lt (valid : Valid d) : (dayOfYear d : Int) < if leap d.year then 366 else 365 := by
  have reach := month_start_mono d.year d.month 13 valid.month_low (by have := valid.month_high; omega)
  have high := valid.day_high
  rw [month_start_thirteen] at reach
  unfold dayOfYear
  split at reach
  · rename_i long
    rw [if_pos long]
    omega
  · rename_i short
    rw [if_neg short]
    omega

theorem next_valid (valid : Valid d) : Valid (next d) := by
  have low := valid.month_low
  have high := valid.month_high
  have some_day (y : Int) (m : Nat) : 1 ≤ monthLength y m := by
    unfold monthLength
    split <;> (split <;> omega)
  unfold next
  split
  · rename_i inside
    exact ⟨low, high, by simp only; omega, inside⟩
  · split <;> (exact ⟨by simp only; omega, by simp only; omega, le_refl _, some_day _ _⟩)

theorem day_number_next (valid : Valid d) : dayNumber (next d) = dayNumber d + 1 := by
  have low := valid.month_low
  have high := valid.month_high
  have first := valid.day_low
  have last := valid.day_high
  unfold next
  split
  · unfold dayNumber dayOfYear
    simp only
    omega
  · rename_i month_over
    split
    · unfold dayNumber dayOfYear
      simp only
      rw [month_start_succ d.year low]
      omega
    · rename_i year_over
      have december : d.month = 12 := by omega
      have end_of_year := month_start_thirteen d.year
      rw [month_start_succ d.year (by omega)] at end_of_year
      unfold dayNumber dayOfYear
      simp only [monthStart, year_start_succ]
      rw [december] at month_over last ⊢
      split at end_of_year
      · rename_i long
        rw [if_pos long]
        omega
      · rename_i short
        rw [if_neg short]
        omega

theorem day_number_year (valid : Valid d) :
    yearStart d.year ≤ dayNumber d ∧ dayNumber d < yearStart (d.year + 1) := by
  have inside := day_of_year_lt d valid
  rw [year_start_succ]
  unfold dayNumber
  omega

theorem year_unique {y y' z : Int} (low : yearStart y ≤ z) (high : z < yearStart (y + 1)) (low' : yearStart y' ≤ z)
    (high' : z < yearStart (y' + 1)) : y = y' := by
  rcases lt_trichotomy y y' with before | equal | after
  · have apart := year_start_mono _ _ before
    omega
  · exact equal
  · have apart := year_start_mono _ _ after
    omega

theorem day_number_inj (e : Date) (valid : Valid d) (valid' : Valid e) (same : dayNumber d = dayNumber e) : d = e := by
  obtain ⟨low, high⟩ := day_number_year d valid
  obtain ⟨low', high'⟩ := day_number_year e valid'
  have year : d.year = e.year := year_unique low high (by omega) (by omega)
  have within : dayOfYear d = dayOfYear e := by
    unfold dayNumber at same
    rw [year] at same
    omega
  have bounds := valid.day_high
  have bounds' := valid'.day_high
  have first := valid.day_low
  have first' := valid'.day_low
  unfold dayOfYear at within
  have month : d.month = e.month := by
    rcases lt_trichotomy d.month e.month with before | equal | after
    · have apart := month_start_mono d.year _ _ valid.month_low before
      rw [year] at apart within bounds
      omega
    · exact equal
    · have apart := month_start_mono e.year _ _ valid'.month_low after
      rw [year] at within
      omega
  have day : d.day = e.day := by
    rw [year, month] at within
    omega
  cases d
  cases e
  simp_all

theorem walk_forth (n : Nat) : ∃ d, Valid d ∧ dayNumber d = n ∧ Walk n d := by
  induction n with
  | zero => exact ⟨{ year := 1970, month := 1, day := 1 }, ⟨by decide, by decide, by decide, by decide⟩, by decide, .epoch⟩
  | succ n ih =>
    obtain ⟨d, valid, number, walk⟩ := ih
    refine ⟨next d, next_valid d valid, ?_, ?_⟩
    · rw [day_number_next d valid, number, Nat.cast_succ]
    · rw [Nat.cast_succ]
      exact .forth _ _ walk

theorem walk_back (n : Nat) (d : Date) (valid : Valid d) (number : dayNumber d = -n) : Walk (-n) d := by
  induction n generalizing d with
  | zero =>
    obtain ⟨e, valid', number', walk⟩ := walk_forth 0
    rw [Nat.cast_zero] at number' walk
    rw [Nat.cast_zero, neg_zero] at number ⊢
    rw [day_number_inj d e valid valid' (by rw [number, number'])]
    exact walk
  | succ n ih =>
    have later : dayNumber (next d) = -n := by
      rw [day_number_next d valid, number]
      omega
    apply Walk.back _ _ valid
    rw [show -((n + 1 : Nat) : Int) + 1 = -n by omega]
    exact ih (next d) (next_valid d valid) later

theorem walk_of_number (valid : Valid d) : Walk (dayNumber d) d := by
  rcases Int.eq_nat_or_neg (dayNumber d) with ⟨n, pos | negative⟩
  · obtain ⟨e, valid', number, walk⟩ := walk_forth n
    rw [day_number_inj d e valid valid' (by rw [pos, number]), number]
    exact walk
  · rw [negative]
    exact walk_back n d valid negative

end Spicule.Calendar
