import Spicule.Time.Zone

namespace Spicule.Time
open List
open Diff (ascii)

def Piece.text : Piece → Bytes
  | .ch c => [c]
  | .str text => text
  | .num v width pad => (if v < 0 then [45] else []) ++ numDigits v.natAbs width pad
  | .number v width plus automaticPlus => numberText v width plus automaticPlus
  | .fault => []

def printed (mktime : Tm → Option Int) (f : Bytes) (tm : Tm) : Bytes := (layout mktime tm f.length f).flatMap Piece.text

def store (mem : Nat → UInt8) (writes : List (Nat × UInt8)) : Nat → UInt8 :=
  writes.foldl (fun mem w i => if i = w.1 then w.2 else mem i) mem

theorem store_write (mem : Nat → UInt8) (writes : List (Nat × UInt8)) (at_ : Nat) (c : UInt8) (i : Nat) :
    store mem (writes ++ [(at_, c)]) i = if i = at_ then c else store mem writes i := by
  simp only [store, foldl_append, foldl_cons, foldl_nil]

structure Wrote (max : Nat) (text : Bytes) (s : Sink) : Prop where
  inside : ∀ w ∈ s.writes, w.1 < max
  full : s.overflow = true → max ≤ text.length
  fits : s.overflow = false → s.pos = text.length ∧ text.length < max
  holds : s.overflow = false → ∀ mem i, i < text.length → store mem s.writes i = text.getD i 0

variable {max : Nat} {text : Bytes} {s : Sink}
variable (more : Bytes)
theorem Wrote.overflowed (wrote : Wrote max text s) (overs : s.overflow = true) : Wrote max (text ++ more) s where
  inside := wrote.inside
  full _ := by
    have := wrote.full overs
    rw [length_append]
    omega
  fits clear := absurd (overs.symm.trans clear) (by decide)
  holds clear := absurd (overs.symm.trans clear) (by decide)

theorem Wrote.refused (wrote : Wrote max text s) (overs : max ≤ text.length + more.length) :
    Wrote max (text ++ more) { s with overflow := true } where
  inside := wrote.inside
  full _ := by rwa [length_append]
  fits clear := nomatch clear
  holds clear := nomatch clear

variable (c : UInt8)
theorem Wrote.stored (wrote : Wrote max text s) (clear : s.overflow = false) (mem : Nat → UInt8) (i : Nat)
    (inside : i < text.length + 1) : store mem (s.writes ++ [(s.pos, c)]) i = (text ++ [c]).getD i 0 := by
  rw [store_write, (wrote.fits clear).1]
  split
  · rename_i last
    rw [last, getD_append_right _ _ _ _ (Nat.le_refl _), Nat.sub_self, getD_cons_zero]
  · rw [getD_append _ _ _ _ (by omega)]
    exact wrote.holds clear mem i (by omega)

theorem Wrote.next_inside {c : UInt8} (wrote : Wrote max text s) (clear : s.overflow = false) :
    ∀ w ∈ s.writes ++ [(s.pos, c)], w.1 < max := by
  obtain ⟨here, low⟩ := wrote.fits clear
  intro w member
  cases mem_append.mp member with
  | inl before => exact wrote.inside w before
  | inr last =>
    cases mem_singleton.mp last
    change s.pos < max
    omega

theorem Wrote.write (wrote : Wrote max text s) (clear : s.overflow = false) (room : text.length + 1 < max) :
    Wrote max (text ++ [c]) (s.write c) where
  inside := wrote.next_inside clear
  full overs := absurd (overs.symm.trans clear) (by decide)
  fits _ := by
    obtain ⟨here, low⟩ := wrote.fits clear
    rw [length_append, length_singleton]
    exact ⟨congrArg (· + 1) here, room⟩
  holds _ mem i inside := by
    rw [length_append, length_singleton] at inside
    exact wrote.stored c clear mem i inside

theorem put_ch_wrote (wrote : Wrote max text s) : Wrote max (text ++ [c]) (putCh max s c) := by
  unfold putCh
  split
  · rename_i overs
    exact wrote.overflowed [c] overs
  · rename_i clear
    have clear := Bool.eq_false_iff.mpr clear
    obtain ⟨here, low⟩ := wrote.fits clear
    split
    · exact wrote.refused [c] (by rw [length_singleton]; omega)
    · exact wrote.write c clear (by omega)

section
variable (wrote : Wrote max text s)
include wrote

theorem put_str_wrote : Wrote max (text ++ more) (putStr max s more) := by
  induction more generalizing text s with
  | nil => rwa [append_nil]
  | cons c more ih =>
    have later := ih (put_ch_wrote c wrote)
    rwa [append_assoc, singleton_append] at later

theorem writes_wrote (clear : s.overflow = false)
    (room : text.length + more.length < max) : Wrote max (text ++ more) (more.foldl Sink.write s) ∧
      (more.foldl Sink.write s).overflow = false := by
  induction more generalizing text s with
  | nil => exact ⟨by rwa [append_nil], clear⟩
  | cons c more ih =>
    rw [length_cons] at room
    have later := ih (wrote.write c clear (by omega)) clear
      (by rw [length_append, length_singleton]; omega)
    rwa [append_assoc, singleton_append] at later

theorem Wrote.terminate (clear : s.overflow = false) :
    Wrote max text { s with writes := s.writes ++ [(s.pos, 0)] } where
  inside := wrote.next_inside clear
  full overs := wrote.full overs
  fits _ := wrote.fits clear
  holds _ := by
    obtain ⟨here, low⟩ := wrote.fits clear
    intro mem i inside
    rw [store_write, if_neg (by omega)]
    exact wrote.holds clear mem i inside

variable {more}
theorem format_number_wrote : Wrote max (text ++ more) (formatNumber max s more) := by
  unfold formatNumber
  split
  · rename_i overs
    exact wrote.overflowed more overs
  · rename_i clear
    have clear := Bool.eq_false_iff.mpr clear
    obtain ⟨here, low⟩ := wrote.fits clear
    split
    · exact wrote.refused more (by omega)
    · obtain ⟨later, still⟩ := writes_wrote more wrote clear (by omega)
      exact later.terminate still

end

theorem put_wrote (piece : Piece) (wrote : Wrote max text s) : Wrote max (text ++ piece.text) (put max s piece) := by
  cases piece with
  | ch c => exact put_ch_wrote c wrote
  | str more => exact put_str_wrote more wrote
  | num v width pad =>
    by_cases negative : v < 0
    · have signed := put_str_wrote (numDigits v.natAbs width pad) (put_ch_wrote 45 wrote)
      simpa only [put, putNum, Piece.text, if_pos negative, append_assoc] using signed
    · have unsigned := put_str_wrote (numDigits v.natAbs width pad) wrote
      simpa only [put, putNum, Piece.text, if_neg negative, nil_append] using unsigned
  | number v width plus automaticPlus => exact format_number_wrote wrote
  | fault =>
    rw [Piece.text, append_nil]
    exact wrote

theorem puts_wrote (pieces : List Piece) (wrote : Wrote max text s) :
    Wrote max (text ++ pieces.flatMap Piece.text) (pieces.foldl (put max) s) := by
  induction pieces generalizing text s with
  | nil => rwa [flatMap_nil, append_nil]
  | cons piece pieces ih =>
    have later := ih (put_wrote piece wrote)
    rwa [append_assoc, ← flatMap_cons] at later

theorem wrote_nothing (room : 0 < max) : Wrote max [] ⟨0, [], false⟩ where
  inside _ member := absurd member not_mem_nil
  full overs := nomatch overs
  fits _ := ⟨rfl, room⟩
  holds _ _ _ inside := absurd inside (Nat.not_lt_zero _)

-- The writes are inside the array, and hold the text and its NUL if these fit.
structure Delivers (max : Nat) (text : Bytes) (result : Nat × List (Nat × UInt8)) : Prop where
  inside : ∀ w ∈ result.2, w.1 < max
  whole : text.length < max → result.1 = text.length ∧
    ∀ mem i, i ≤ text.length → store mem result.2 i = (text ++ [0]).getD i 0
  refused : max ≤ text.length → result.1 = 0

theorem strftime_printed (mktime : Tm → Option Int) (max : Nat) (f : Bytes) (tm : Tm)
    (sound : .fault ∉ layout mktime tm f.length f) :
    ∃ result, strftime mktime max f tm = some result ∧ Delivers max (printed mktime f tm) result := by
  unfold strftime
  split
  · rename_i empty
    subst empty
    exact ⟨_, rfl, fun w member => absurd member not_mem_nil, fun fits => absurd fits (Nat.not_lt_zero _), fun _ => rfl⟩
  · rename_i room
    have wrote := puts_wrote (layout mktime tm f.length f) (wrote_nothing (Nat.pos_of_ne_zero room))
    rw [nil_append] at wrote
    have whole : (layout mktime tm f.length f).takeWhile (· ≠ .fault) = layout mktime tm f.length f :=
      takeWhile_eq_self_iff.mpr fun piece member => decide_eq_true fun same => sound (same ▸ member)
    unfold doStrftime
    dsimp only
    rw [whole, if_neg sound]
    split
    · rename_i overs
      have past := wrote.full overs
      exact ⟨_, rfl, wrote.inside, fun fits => absurd fits (Nat.not_lt.mpr past), fun _ => rfl⟩
    · rename_i clear
      have clear := Bool.eq_false_iff.mpr clear
      obtain ⟨here, low⟩ := wrote.fits clear
      refine ⟨_, rfl, (wrote.terminate clear).inside, fun _ => ⟨here, ?_⟩, fun past => absurd low (Nat.not_lt.mpr past)⟩
      exact fun mem i reach => wrote.stored 0 clear mem i (Nat.lt_succ_of_le reach)

theorem strftime_undefined (mktime : Tm → Option Int) (f : Bytes) (tm : Tm)
    (fault : .fault ∈ layout mktime tm f.length f) :
    strftime mktime ((printed mktime f tm).length + 1) f tm = none := by
  have wrote := puts_wrote ((layout mktime tm f.length f).takeWhile (· ≠ .fault))
    (wrote_nothing (Nat.succ_pos (printed mktime f tm).length))
  have shorter := congrArg (length ∘ flatMap Piece.text)
    (takeWhile_append_dropWhile (p := (· ≠ Piece.fault)) (l := layout mktime tm f.length f))
  rw [strftime, if_neg (Nat.succ_ne_zero _), doStrftime, if_neg, if_pos fault]
  intro overs
  have past := wrote.full overs
  simp only [Function.comp, flatMap_append, length_append] at shorter
  rw [nil_append, printed] at past
  omega

theorem letter_inj (c d : UInt8) (same : Char.ofNat c.toNat = Char.ofNat d.toNat) : c = d := by
  have valid : ∀ e : UInt8, (Char.ofNat e.toNat).toNat = e.toNat := fun e => by
    have small := e.toNat_lt
    rw [Char.toNat_ofNat, if_pos (Or.inl (by omega))]
  exact UInt8.toNat_inj.mp (valid c ▸ valid d ▸ congrArg Char.toNat same)

theorem fault_conversion (mktime : Tm → Option Int) (tm : Tm) (spec : Spec) (c : UInt8) :
    .fault ∈ conversion mktime tm spec c ↔
      c = 122 ∧ tm.gmtoff < 0 ∧ ll (-tm.gmtoff) = none ∨ c = 115 ∧ mktime tm = none := by
  by_cases zone : c = 122
  · subst zone
    change Piece.fault ∈ _ :: Option.elim _ _ _ ↔ _
    by_cases negative : tm.gmtoff < 0
    · cases ll (-tm.gmtoff) <;> simp [negative]
    · simp [negative]
  · by_cases time : c = 115
    · subst time
      change Piece.fault ∈ Option.elim _ _ _ ↔ _
      cases mktime tm <;> simp
    · simp only [zone, time, false_and, or_false, iff_false]
      unfold conversion
      dsimp only
      split
      all_goals first
        | exact absurd (letter_inj c 115 (by assumption)) time
        | exact absurd (letter_inj c 122 (by assumption)) zone
        | simp

theorem fault_layout (mktime : Tm → Option Int) (tm : Tm) (fuel : Nat) (f : Bytes) :
    .fault ∈ layout mktime tm fuel f ↔
      122 ∈ letters fuel f ∧ tm.gmtoff < 0 ∧ ll (-tm.gmtoff) = none ∨ 115 ∈ letters fuel f ∧ mktime tm = none := by
  induction fuel generalizing f with
  | zero => simp [layout, letters]
  | succ fuel ih =>
    cases f with
    | nil => simp [layout, letters]
    | cons c f =>
      by_cases plain : c ≠ 37
      · simp [layout, letters, plain, ih]
      · simp only [layout, letters, if_neg plain]
        cases skipModifier (readFlags f).2 with
        | nil => simp
        | cons c f =>
          simp only [mem_append, mem_cons, ih, fault_conversion, eq_comm (a := c)]
          tauto

def seconds (tz : Option Bytes) (tm : Tm) : Option Int := (mktime tz tm).map Prod.fst

-- One text for every size, exactly when no operation overflows: the negation of the
-- offset for %z, the sum in mktime for %s.
theorem strftime_bounded (tz : Option Bytes) (f : Bytes) (tm : Tm) (fields : IntFields tm) (offset : IsLong tm.gmtoff) :
    (∃ text, ∀ max, ∃ result, strftime (seconds tz) max f tm = some result ∧ Delivers max text result) ↔
      (122 ∈ letters f.length f → tm.gmtoff ≠ -2 ^ 63) ∧
      (115 ∈ letters f.length f → IsLong (linear tm + offsetSeconds tz)) := by
  have negated : tm.gmtoff < 0 ∧ ll (-tm.gmtoff) = none ↔ tm.gmtoff = -2 ^ 63 := by
    obtain ⟨low, high⟩ := offset
    unfold ll
    split
    · simp only [reduceCtorEq, and_false, false_iff]
      omega
    · simp only [and_true]
      omega
  have summed : seconds tz tm = none ↔ ¬ IsLong (linear tm + offsetSeconds tz) := by
    rw [← mktime_defined_iff tz fields, seconds, Option.map_eq_none_iff, ← Option.isNone_iff_eq_none]
    simp
  have faults := fault_layout (seconds tz) tm f.length f
  rw [negated, summed] at faults
  constructor
  · rintro ⟨text, delivered⟩
    by_contra outside
    have fault : .fault ∈ layout (seconds tz) tm f.length f := by
      rw [faults]
      tauto
    obtain ⟨result, ran, _⟩ := delivered ((printed (seconds tz) f tm).length + 1)
    rw [strftime_undefined _ f tm fault] at ran
    cases ran
  · rintro ⟨zone, time⟩
    refine ⟨printed (seconds tz) f tm, fun max => strftime_printed (seconds tz) max f tm ?_⟩
    rw [faults]
    tauto

theorem strftime_bounded_eve : ∃ text, ∀ max, ∃ result,
    strftime (seconds (some (ascii "EST5:30EDT"))) max (ascii "%s %z") newYearsEve = some result ∧
      Delivers max text result := by
  have fields : IntFields newYearsEve := ⟨by decide, by decide, by decide, by decide, by decide, by decide⟩
  exact (strftime_bounded (some (ascii "EST5:30EDT")) (ascii "%s %z") newYearsEve fields (by decide)).mpr
    ⟨fun _ => by decide, fun _ => by decide +kernel⟩

theorem least_offset_undefined :
    strftime (seconds none) 16 (ascii "%z") { newYearsEve with gmtoff := -2 ^ 63 } = none ∧
    strftime (seconds (some (ascii "X9999999999999999"))) 16 (ascii "%s") secondDay = none := by
  decide +kernel

variable (mktime : Tm → Option Int) (tm : Tm)
def Same (f g : Bytes) : Prop := ∀ max, strftime mktime max f tm = strftime mktime max g tm

theorem same_of_layout {f g : Bytes} (equal : layout mktime tm f.length f = layout mktime tm g.length g) :
    Same mktime tm f g := by
  intro max
  simp only [strftime, doStrftime, equal]

theorem delivered_unique {max : Nat} {text other : Bytes} {result : Nat × List (Nat × UInt8)}
    (one : Delivers max text result) (two : Delivers max other result) (first : text.length < max)
    (second : other.length < max) : text = other := by
  obtain ⟨size, holds⟩ := one.whole first
  obtain ⟨size', holds'⟩ := two.whole second
  refine ext_getElem (by omega) (fun i inside inside' => ?_)
  have left := holds (fun _ => 0) i (by omega)
  have right := holds' (fun _ => 0) i (by omega)
  rw [getD_append _ _ _ _ inside, getD_eq_getElem _ _ inside] at left
  rw [getD_append _ _ _ _ inside', getD_eq_getElem _ _ inside'] at right
  exact left.symm.trans right

theorem printed_of_same {f g : Bytes} (sound : .fault ∉ layout mktime tm f.length f)
    (sound' : .fault ∉ layout mktime tm g.length g) (same : Same mktime tm f g) :
    printed mktime f tm = printed mktime g tm := by
  let max := (printed mktime f tm).length + (printed mktime g tm).length + 1
  obtain ⟨result, ran, one⟩ := strftime_printed mktime max f tm sound
  obtain ⟨other, ran', two⟩ := strftime_printed mktime max g tm sound'
  rw [← same max, ran, Option.some.injEq] at ran'
  exact delivered_unique one (ran' ▸ two) (by omega) (by omega)

def dateLead : List Piece := [.num (tm.mon + 1) 2 48, .ch 47, .num tm.mday 2 48, .ch 47]

theorem layout_D : layout mktime tm (ascii "%D").length (ascii "%D") =
    dateLead tm ++ [.num ((tm.year + 1900).tmod 100) 2 48] := rfl

theorem layout_x : layout mktime tm (ascii "%x").length (ascii "%x") =
    dateLead tm ++ [.num ((tm.year + 1900).tmod 100) 2 48] := rfl

theorem layout_mdy : layout mktime tm (ascii "%m/%d/%y").length (ascii "%m/%d/%y") =
    dateLead tm ++ [.num (floormod (tm.year + 1900) 100) 2 48] := rfl

theorem clock_same : Same mktime tm (ascii "%T") (ascii "%H:%M:%S") ∧ Same mktime tm (ascii "%R") (ascii "%H:%M") ∧
    Same mktime tm (ascii "%r") (ascii "%I:%M:%S %p") :=
  ⟨same_of_layout mktime tm rfl, same_of_layout mktime tm rfl, same_of_layout mktime tm rfl⟩

theorem full_date_same : Same mktime tm (ascii "%F") (ascii "%Y-%m-%d") ∧
    Same mktime tm (ascii "%c") (ascii "%a %b %e %H:%M:%S %Y") :=
  ⟨same_of_layout mktime tm rfl, same_of_layout mktime tm rfl⟩

theorem trunc_century (y : Int) : y.tmod 100 = if 0 ≤ y ∨ 100 ∣ y then y % 100 else y % 100 - 100 := by
  rw [Int.tmod_eq_emod]
  split <;> omega

theorem floor_is_trunc_iff (y : Int) : y.tmod 100 = floormod y 100 ↔ 0 ≤ y ∨ 100 ∣ y := by
  rw [floormod_floor _ (by decide), trunc_century]
  split
  · rename_i plain
    exact iff_of_true rfl plain
  · rename_i below
    exact iff_of_false (by omega) below

theorem num_digits_zero_padded (v width : Nat) : ∀ c ∈ numDigits v width 48, Decimal.isDigit c = true := by
  intro c member
  rw [numDigits, mem_reverse] at member
  have member := mem_reverse.mp (mem_of_mem_take member)
  cases mem_append.mp member with
  | inl padding => exact eq_of_mem_replicate padding ▸ rfl
  | inr digit => exact Decimal.digits_all v c digit

theorem num_text_ne (v w : Int) (width : Nat) (negative : v < 0) (positive : 0 ≤ w) :
    (Piece.num v width 48).text ≠ (Piece.num w width 48).text := by
  intro same
  rw [Piece.text, Piece.text, if_pos negative, if_neg (Int.not_lt.mpr positive), nil_append] at same
  have minus : (45 : UInt8) ∈ numDigits w.natAbs width 48 := same ▸ mem_cons_self
  exact absurd (num_digits_zero_padded _ _ 45 minus) (by decide)

theorem short_year_iff {f : Bytes} (composed : layout mktime tm f.length f =
      dateLead tm ++ [.num ((tm.year + 1900).tmod 100) 2 48]) :
    Same mktime tm f (ascii "%m/%d/%y") ↔ 0 ≤ tm.year + 1900 ∨ 100 ∣ tm.year + 1900 := by
  constructor
  · intro same
    by_contra below
    have texts := printed_of_same mktime tm (by simp [composed, dateLead]) (by simp [layout_mdy, dateLead]) same
    rw [printed, printed, composed, layout_mdy, flatMap_append, flatMap_append] at texts
    have years := append_cancel_left texts
    rw [flatMap_singleton, flatMap_singleton] at years
    have floored := floormod_floor (tm.year + 1900) (show 0 < 100 by decide)
    have truncated := trunc_century (tm.year + 1900)
    rw [if_neg below] at truncated
    exact num_text_ne _ _ 2 (by omega) (by omega) years
  · intro plain
    refine same_of_layout mktime tm ?_
    rw [composed, layout_mdy, (floor_is_trunc_iff (tm.year + 1900)).mpr plain]

structure CompositesAgree : Prop where
  date : Same mktime tm (ascii "%D") (ascii "%m/%d/%y")
  localDate : Same mktime tm (ascii "%x") (ascii "%m/%d/%y")
  time : Same mktime tm (ascii "%T") (ascii "%H:%M:%S")
  shortTime : Same mktime tm (ascii "%R") (ascii "%H:%M")
  time12 : Same mktime tm (ascii "%r") (ascii "%I:%M:%S %p")
  isoDate : Same mktime tm (ascii "%F") (ascii "%Y-%m-%d")
  dateTime : Same mktime tm (ascii "%c") (ascii "%a %b %e %H:%M:%S %Y")

theorem composites_agree_iff : CompositesAgree mktime tm ↔ 0 ≤ tm.year + 1900 ∨ 100 ∣ tm.year + 1900 := by
  constructor
  · intro agree
    exact (short_year_iff mktime tm (layout_D mktime tm)).mp agree.date
  · intro plain
    obtain ⟨time, shortTime, time12⟩ := clock_same mktime tm
    obtain ⟨isoDate, dateTime⟩ := full_date_same mktime tm
    exact {
      date := (short_year_iff mktime tm (layout_D mktime tm)).mpr plain
      localDate := (short_year_iff mktime tm (layout_x mktime tm)).mpr plain
      time, shortTime, time12, isoDate, dateTime }

-- The short year of the year -5 is -05 in %D and 95 in %y.
def yearMinusFive : Tm :=
  { sec := 0, min := 0, hour := 0, mday := 1, mon := 0, year := -1905, wday := 0, yday := 0, isdst := 0, gmtoff := 0,
    zone := "UTC" }

theorem date_before_the_era : printed (fun _ => none) (ascii "%D") yearMinusFive = ascii "01/01/-05" ∧
    printed (fun _ => none) (ascii "%m/%d/%y") yearMinusFive = ascii "01/01/95" ∧
    (strftime (fun _ => none) 16 (ascii "%D") yearMinusFive).map Prod.fst = some 9 ∧
    (strftime (fun _ => none) 16 (ascii "%m/%d/%y") yearMinusFive).map Prod.fst = some 8 := by
  decide +kernel

end Spicule.Time
