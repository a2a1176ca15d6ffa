import Spicule.Lib.Decimal
import Spicule.Printf.Dec
import Spicule.Printf.Sink

namespace Spicule.Printf
open List Option Nat
open Decimal (digit)
open Limbs (digits_length_le)
open Numeral

def bodymax : Nat := 1536

def chars (digits : List Nat) : Bytes := digits.map digit

def place (D : Dec) (i : Nat) : UInt8 := digit (D.d.getD i 0)

def places (D : Dec) (first count : Nat) : Bytes := (List.range count).map fun i => place D (first + i)

def point (prec : Nat) (alt : Bool) : Bytes := if 0 < prec ∨ alt = true then [46] else []

def fRounded (D : Dec) (prec : Nat) : Option Dec :=
  let want := D.decexp + 1 + prec
  if 1 ≤ want then decRound D want.toNat
  else do
    let first ← D.d[0]?
    some { d := [if want = 0 ∧ (5 < first ∨ (first = 5 ∧ 1 < D.d.length)) then 1 else 0], decexp := -prec }

def fBody (D : Dec) (prec : Nat) (alt : Bool) : Bytes :=
  let pos := D.decexp + 1
  if pos ≤ 0 then
    48 :: (point prec alt ++ (List.replicate (min (-pos).toNat prec) 48 ++ places D 0 (prec + pos).toNat))
  else places D 0 pos.toNat ++ (point prec alt ++ places D pos.toNat prec)

def fmtF (D : Dec) (prec : Nat) (alt : Bool) : Option Bytes := do
  let D ← fRounded D prec
  within bodymax (fBody D prec alt)

def exponentBytes (upper : Bool) (decexp : Int) : Option Bytes := do
  let ax := decexp.natAbs
  let eb := if ax = 0 then [0] else digits 10 ax
  let eb ← within 8 (eb ++ List.replicate (2 - eb.length) 0)
  some ((if upper then 69 else 101) :: (if decexp < 0 then 45 else 43) :: chars eb.reverse)

def eMantissa (D : Dec) (first prec : Nat) (alt : Bool) : Bytes :=
  digit first :: if 0 < prec ∨ alt = true then 46 :: places D 1 prec else []

def fmtE (D : Dec) (prec : Nat) (alt upper : Bool) : Option (Bytes × Nat) := do
  let D ← decRound D (prec + 1)
  let first ← D.d[0]?
  let mant := eMantissa D first prec alt
  let exponent ← exponentBytes upper D.decexp
  let body ← within bodymax (mant ++ exponent)
  some (body, mant.length)

def stripG (buf : Bytes) (hasExp : Bool) : Bytes :=
  let mantEnd := if hasExp then buf.findIdx fun c => c = 101 ∨ c = 69 else buf.length
  let mant := buf.take mantEnd
  if 46 ∈ mant then
    let bare := mant.reverse.dropWhile (· = 48)
    (match bare with
      | 46 :: whole => whole
      | kept => kept).reverse ++ buf.drop mantEnd
  else buf

def hexNeeded (man : Nat) : Nat → Nat
  | 0 => 0
  | nd + 1 => if man / 2 ^ (52 - 4 * (nd + 1)) % 16 = 0 then hexNeeded man nd else nd + 1

def hexChar (upper : Bool) (d : Nat) : UInt8 :=
  if d < 10 then digit d else UInt8.ofNat ((if upper then 55 else 87) + d)

-- A significand of 52 bits rounded to `prec` hexadecimal digits, and the digit in front.
def hexRounded (man lead prec : Nat) : Nat × Nat :=
  let shift := (13 - prec) * 4
  let rem := man % 2 ^ shift
  let half := 2 ^ (shift - 1)
  let man := man / 2 ^ shift
  let man := if half < rem ∨ (rem = half ∧ (if prec ≠ 0 then man else lead) % 2 = 1) then man + 1 else man
  if man / 2 ^ (4 * prec) ≠ 0 then (0, lead + 1) else (man * 2 ^ shift, lead)

def fmtA (v : UInt64) (prec : Int) (alt upper : Bool) : Option (Bytes × Nat) := do
  let e := (v >>> 52 &&& 0x7ff).toNat
  let man := (v &&& 0xfffffffffffff).toNat
  let lead := if e = 0 then 0 else 1
  let exp : Int := if e = 0 then (if man ≠ 0 then -1022 else 0) else (e : Int) - 1023
  let nd := if prec < 0 then hexNeeded man 13 else if prec < 13 then prec.toNat else 13
  let (man, lead) := if 0 ≤ prec ∧ prec < 13 then hexRounded man lead prec.toNat else (man, lead)
  let mant := digit lead :: ((if 0 < nd ∨ alt = true then [46] else []) ++
    ((List.range nd).map (fun i => hexChar upper (man / 2 ^ (48 - 4 * i) % 16)) ++ List.replicate (prec.toNat - 13) 48))
  let ax := exp.natAbs
  let eb ← within 8 (if ax = 0 then [0] else digits 10 ax)
  let body ← within bodymax
    (mant ++ (if upper then 80 else 112) :: (if exp < 0 then 45 else 43) :: chars eb.reverse)
  some (body, mant.length)

def fixedText (prec : Nat) (alt : Bool) (n : Nat) : Bytes :=
  let ds := numeral 10 (prec + 1) n
  chars (ds.take (ds.length - prec)) ++ (point prec alt ++ chars (ds.drop (ds.length - prec)))

def mantissaText (prec : Nat) (alt : Bool) (n : Nat) : Bytes :=
  let ds := numeral 10 (prec + 1) n
  chars (ds.take 1) ++ (point prec alt ++ chars (ds.drop 1))

def exponentText (upper : Bool) (x : Int) : Bytes :=
  (if upper then 69 else 101) :: (if x < 0 then 45 else 43) :: chars (numeral 10 2 x.natAbs)

def scientificText (prec : Nat) (alt upper : Bool) (n : Nat) (x : Int) : Bytes :=
  mantissaText prec alt n ++ exponentText upper x

-- n has prec + 1 digits: the number rounded at that place, which may give a power of ten.
def Scientific (prec : Nat) (y : ℚ) (n : Nat) (x : Int) : Prop :=
  (y = 0 ∧ n = 0 ∧ x = 0) ∨
    (10 ^ prec ≤ n ∧ n < 10 ^ (prec + 1) ∧
      ∃ (x₀ : Int) (n₀ : Nat), (10 : ℚ) ^ x₀ ≤ y ∧ y < 10 ^ (x₀ + 1) ∧ HalfEven (y * 10 ^ ((prec : Int) - x₀)) n₀ ∧
        (n : ℚ) * 10 ^ x = n₀ * 10 ^ x₀)

def padded (D : Dec) (count : Nat) : List Nat := D.d ++ List.replicate (count - D.d.length) 0

variable (D : Dec) (count : Nat)
theorem padded_length (short : D.d.length ≤ count) : (padded D count).length = count := by
  rw [padded, length_append, length_replicate]
  omega

theorem padded_each (each : ∀ d ∈ D.d, d < 10) : ∀ d ∈ padded D count, d < 10 := by
  intro d mem
  rcases mem_append.mp mem with front | zero
  · exact each d front
  · rw [eq_of_mem_replicate zero]
    norm_num

theorem padded_getD (i : Nat) : (padded D count).getD i 0 = D.d.getD i 0 := by
  rw [padded, getD_eq_getElem?_getD, getD_eq_getElem?_getD, List.getElem?_append]
  split
  · rfl
  · rename_i behind
    rw [List.getElem?_replicate, List.getElem?_eq_none (by omega)]
    split <;> rfl

theorem places_padded (first count total : Nat) (short : D.d.length ≤ total) (inside : first + count ≤ total) :
    places D first count = chars (((padded D total).drop first).take count) := by
  have length := padded_length D total short
  apply ext_getElem
  · simp only [places, chars, length_map, length_range, length_take, length_drop, length]
    omega
  · intro i here there
    have bound : i < count := by simpa [places] using here
    simp only [places, chars, place, List.getElem_map, List.getElem_range, List.getElem_take, List.getElem_drop]
    rw [← padded_getD D total, getD_eq_getElem _ _ (by omega)]

theorem padded_value {k : Int} {n : Nat} (short : D.d.length ≤ count)
    (place : D.decexp + 1 + k = count) (value : D.value * 10 ^ k = n) : natOf 10 (padded D count) = n := by
  have exponent : D.decexp + 1 - D.d.length + k = ((count - D.d.length : Nat) : Int) := by omega
  rw [Dec.value_scaled, exponent, zpow_natCast] at value
  rw [padded, nat_of_padded]
  exact_mod_cast value

variable (alt : Bool)
theorem f_body_text (prec n : Nat) (each : ∀ d ∈ D.d, d < 10) (nonempty : D.d ≠ [])
    (short : D.d.length ≤ D.decexp + 1 + prec) (head : 0 < D.decexp → D.d.head? ≠ some 0)
    (value : D.value * 10 ^ (prec : Int) = n) : fBody D prec alt = fixedText prec alt n := by
  have filled : 0 < D.d.length := length_pos_of_ne_nil nonempty
  obtain ⟨count, total⟩ : ∃ count : Nat, (count : Int) = D.decexp + 1 + prec := ⟨(D.decexp + 1 + prec).toNat, by omega⟩
  have number := padded_value D count (by omega) total.symm value
  have length := padded_length D count (by omega)
  have small := padded_each D count each
  unfold fBody fixedText
  by_cases below : D.decexp + 1 ≤ 0
  · have digits : 0 :: (List.replicate (-(D.decexp + 1)).toNat 0 ++ padded D count) = numeral 10 (prec + 1) n := by
      have value : natOf 10 (0 :: (List.replicate (-(D.decexp + 1)).toNat 0 ++ padded D count)) = n := by
        rw [nat_of_cons, nat_of_append, nat_of_zeros, zero_mul, zero_mul, zero_add, zero_add, number]
      have width : (0 :: (List.replicate (-(D.decexp + 1)).toNat 0 ++ padded D count)).length = prec + 1 := by
        rw [length_cons, length_append, length_replicate, length]
        omega
      have all : ∀ d ∈ 0 :: (List.replicate (-(D.decexp + 1)).toNat 0 ++ padded D count), d < 10 := by
        intro d mem
        rcases mem_cons.mp mem with zero | later
        · omega
        · rcases mem_append.mp later with zero | inside
          · rw [eq_of_mem_replicate zero]
            norm_num
          · exact small d inside
      rw [← value]
      exact numeral_unique 10 (prec + 1) (by norm_num) all width.ge fun wider => absurd width wider.ne'
    have size : (numeral 10 (prec + 1) n).length - prec = 1 := by
      rw [← digits, length_cons, length_append, length_replicate, length]
      omega
    have zeros : min (-(D.decexp + 1)).toNat prec = (-(D.decexp + 1)).toNat := by omega
    have rest : (prec + (D.decexp + 1)).toNat = count := by omega
    have printed := places_padded D 0 count count (by omega) (by omega)
    rw [drop_zero, take_of_length_le length.le] at printed
    have blank : digit 0 = 48 := rfl
    simp only [if_pos below, zeros, rest, printed]
    rw [size, ← digits]
    simp only [chars, take_succ_cons, take_zero, drop_succ_cons, drop_zero, map_cons, map_nil,
      map_append, map_replicate, blank, cons_append, nil_append]
  · obtain ⟨pos, whole⟩ : ∃ pos : Nat, (pos : Int) = D.decexp + 1 := ⟨(D.decexp + 1).toNat, by omega⟩
    have digits : padded D count = numeral 10 (prec + 1) n := by
      rw [← number]
      apply numeral_unique 10 (prec + 1) (by norm_num) small (by omega)
      intro wider
      rw [padded, head?_append_of_ne_nil _ nonempty]
      exact head (by omega)
    have size : (numeral 10 (prec + 1) n).length - prec = pos := by
      rw [← digits, length]
      omega
    have front : (D.decexp + 1).toNat = pos := by omega
    have before := places_padded D 0 pos count (by omega) (by omega)
    have behind := places_padded D pos prec count (by omega) (by omega)
    have last : ((padded D count).drop pos).take prec = (padded D count).drop pos :=
      take_of_length_le (by rw [length_drop]; omega)
    rw [last] at behind
    rw [drop_zero] at before
    simp only [if_neg below, front, before, behind]
    rw [size, ← digits]

theorem behind_place (prec first : Nat) (rest : List Nat) (proper : D.Proper) (shape : D.d = first :: rest)
    (low : D.decexp + 1 + prec ≤ 0) :
    HalfEven (D.value * 10 ^ (prec : Int))
      (if D.decexp + 1 + prec = 0 ∧ (5 < first ∨ (first = 5 ∧ 1 < D.d.length)) then 1 else 0) := by
  by_cases next : D.decexp + 1 + prec = 0
  · have exponent : D.decexp + 1 - D.d.length + prec = -(D.d.length : Int) := by omega
    have number : D.value * 10 ^ (prec : Int) = (0 : Nat) + fraction (first :: rest) := by
      rw [Dec.value_scaled, exponent, zpow_neg, zpow_natCast, ← div_eq_mul_inv, shape, cast_zero, zero_add]
      rfl
    have tail : 1 < D.d.length ↔ ∃ e ∈ rest, e ≠ 0 := by
      have last := proper.last
      rw [shape] at last ⊢
      cases rest with
      | nil => simp
      | cons e rest =>
        rw [getLast?_cons_cons, getLast?_eq_some_getLast (cons_ne_nil e rest), Ne, some.injEq] at last
        exact iff_of_true (by simp) ⟨_, getLast_mem (cons_ne_nil e rest), last⟩
    have each := proper.each
    rw [shape] at each
    have decided : decide (5 < first ∨ (first = 5 ∧ 1 < D.d.length)) = true ↔
        5 < first ∨ (first = 5 ∧ ((∃ e ∈ rest, e ≠ 0) ∨ 0 % 2 = 1)) := by
      rw [decide_eq_true_eq, tail]
      simp
    have rounded := half_even_digits [] each decided rfl
    change HalfEven ((0 : Nat) + fraction (first :: rest)) (0 + _) at rounded
    rw [number]
    simpa only [next, true_and, decide_eq_true_eq, zero_add] using rounded
  · rw [if_neg fun both => next both.1]
    obtain ⟨low', high⟩ := proper.bounds
    have small : D.value * 10 ^ (prec : Int) < 10 ^ (-1 : Int) := by
      have unit : (0 : ℚ) < 10 ^ (prec : Int) := zpow_pos (by norm_num) _
      calc D.value * 10 ^ (prec : Int) < 10 ^ (D.decexp + 1) * 10 ^ (prec : Int) := mul_lt_mul_of_pos_right high unit
        _ = 10 ^ (D.decexp + 1 + prec) := (zpow_add₀ ten_ne _ _).symm
        _ ≤ 10 ^ (-1 : Int) := zpow_le_zpow_right₀ (by norm_num) (by omega)
    have nonneg : 0 ≤ D.value * 10 ^ (prec : Int) := by
      apply mul_nonneg _ (zpow_pos (by norm_num) _).le
      exact (zpow_pos (by norm_num) _).le.trans low'
    have tenth : (10 : ℚ) ^ (-1 : Int) = 1 / 10 := by norm_num
    rw [tenth] at small
    have rounded := half_even_down 0 _ nonneg (by linarith) fun half => by linarith
    simpa only [cast_zero, zero_add] using rounded

variable (prec : Nat)
theorem f_rounded_spec (proper : D.Proper) :
    ∃ D' n, fRounded D prec = some D' ∧ (∀ d ∈ D'.d, d < 10) ∧ D'.d ≠ [] ∧ D'.d.length ≤ D'.decexp + 1 + prec ∧
      (0 < D'.decexp → D'.d.head? ≠ some 0) ∧ D'.decexp ≤ max (D.decexp + 1) 0 ∧
      HalfEven (D.value * 10 ^ (prec : Int)) n ∧ D'.value * 10 ^ (prec : Int) = n := by
  by_cases some_place : 1 ≤ D.decexp + 1 + prec
  · obtain ⟨want, total⟩ : ∃ want : Nat, (want : Int) = D.decexp + 1 + prec := ⟨(D.decexp + 1 + prec).toNat, by omega⟩
    obtain ⟨D', n, ran, proper', short, low, high, rounded, value⟩ := dec_round_spec D want proper (by omega)
    have exponent : (want : Int) - 1 - D.decexp = prec := by omega
    rw [exponent] at rounded value
    refine ⟨D', n, ?_, proper'.each, proper'.nonempty, by omega, fun _ => proper'.head, by omega, rounded, value⟩
    have same : (D.decexp + 1 + prec).toNat = want := by omega
    simp only [fRounded, if_pos some_place, same, ran]
  · obtain ⟨first, rest, shape⟩ := exists_cons_of_ne_nil proper.nonempty
    have rounded := behind_place D prec first rest proper shape (by omega)
    have head : D.d[0]? = some first := by rw [shape]; rfl
    simp only [fRounded, if_neg some_place, head, bind_eq_bind, bind_some]
    have bit : (if D.decexp + 1 + prec = 0 ∧ (5 < first ∨ (first = 5 ∧ 1 < D.d.length)) then 1 else 0) ≤ 1 := by
      split <;> omega
    generalize (if D.decexp + 1 + prec = 0 ∧ (5 < first ∨ (first = 5 ∧ 1 < D.d.length)) then 1 else 0) = n at rounded bit ⊢
    refine ⟨_, n, rfl, ?_, cons_ne_nil _ _, ?_, ?_, ?_, rounded, ?_⟩
    · intro d mem
      rw [mem_singleton.mp mem]
      omega
    · simp only [length_singleton]
      omega
    · intro positive
      simp only at positive
      omega
    · simp only
      omega
    · have exponent : -(prec : Int) + 1 - (1 : Nat) + prec = 0 := by omega
      rw [Dec.value_scaled]
      change (natOf 10 [n] : ℚ) * 10 ^ (-(prec : Int) + 1 - (1 : Nat) + prec) = n
      rw [exponent, zpow_zero, mul_one]
      simp [natOf]

theorem fixed_text_length (high : D.decexp ≤ 309) (narrow : prec ≤ 1080) : (fBody D prec alt).length ≤ bodymax := by
  have mark : (point prec alt).length ≤ 1 := by unfold point; split <;> simp
  unfold fBody bodymax
  simp only
  split
  · simp only [places, length_cons, length_append, length_replicate, length_map, length_range]
    omega
  · simp only [places, length_append, length_map, length_range]
    omega

theorem fmt_f_spec (proper : D.Proper) (high : D.decexp ≤ 308) (narrow : prec ≤ 1080) :
    ∃ n, fmtF D prec alt = some (fixedText prec alt n) ∧ HalfEven (D.value * 10 ^ (prec : Int)) n := by
  obtain ⟨D', n, ran, each, nonempty, short, head, high', rounded, value⟩ := f_rounded_spec D prec proper
  refine ⟨n, ?_, rounded⟩
  have room := fixed_text_length D' alt prec (by omega) narrow
  simp only [fmtF, ran, bind_eq_bind, bind_some, within, if_pos room]
  rw [f_body_text D' alt prec n each nonempty short head value]

theorem fmt_f_zero (alt : Bool) (narrow : prec ≤ 1080) :
    fmtF { d := [0], decexp := 0 } prec alt = some (fixedText prec alt 0) := by
  have ran : fRounded { d := [0], decexp := 0 } prec = some { d := [0], decexp := 0 } := by
    have some_place : (1 : Int) ≤ 0 + 1 + prec := by omega
    have short : [0].length ≤ (0 + 1 + (prec : Int)).toNat := by
      simp only [length_singleton]
      omega
    simp only [fRounded, if_pos some_place, decRound, if_pos short]
  have room := fixed_text_length { d := [0], decexp := 0 } alt prec (by simp) narrow
  have text := f_body_text { d := [0], decexp := 0 } alt prec 0 (by simp) (by simp) (by simp only [length_singleton]; omega)
    (fun positive => absurd positive (by simp)) (by simp [Dec.value, natOf])
  simp only [fmtF, ran, bind_eq_bind, bind_some, within, if_pos room]
  rw [text]

variable (upper : Bool)
theorem exponent_bytes_text (x : Int) (small : x.natAbs < 1000) :
    exponentBytes upper x = some (exponentText upper x) := by
  have short : (digits 10 x.natAbs).length ≤ 3 := digits_length_le 10 _ 3 (by norm_num) small
  have eb : ((if x.natAbs = 0 then [0] else digits 10 x.natAbs) ++
      List.replicate (2 - (if x.natAbs = 0 then [0] else digits 10 x.natAbs).length) 0) =
      (numeral 10 2 x.natAbs).reverse := by
    by_cases zero : x.natAbs = 0
    · rw [if_pos zero, zero, numeral, digits_zero]
      rfl
    · rw [if_neg zero, numeral, reverse_append, reverse_reverse, reverse_replicate]
  have room : (numeral 10 2 x.natAbs).reverse.length ≤ 8 := by
    rw [length_reverse, numeral, length_append, length_replicate, length_reverse]
    omega
  simp only [exponentBytes, eb, within, if_pos room, bind_eq_bind, bind_some, reverse_reverse, exponentText]

theorem e_mantissa_text {first prec n : Nat} (head : D.d[0]? = some first)
    (digits : padded D (prec + 1) = numeral 10 (prec + 1) n) (short : D.d.length ≤ prec + 1) :
    eMantissa D first prec alt = mantissaText prec alt n := by
  have length := padded_length D (prec + 1) short
  have behind := places_padded D 1 prec (prec + 1) short (by omega)
  rw [take_of_length_le (by rw [length_drop]; omega)] at behind
  have front : (padded D (prec + 1)).take 1 = [first] := by
    cases shape : D.d with
    | nil =>
      rw [shape] at head
      cases head
    | cons d rest =>
      rw [shape] at head
      rw [padded, shape, cons_append, take_succ_cons, take_zero]
      rw [List.getElem?_cons_zero, some.injEq] at head
      rw [head]
  unfold eMantissa mantissaText point
  simp only [← digits, front, chars, map_singleton]
  by_cases shown : 0 < prec ∨ alt = true
  · rw [if_pos shown, if_pos shown, behind]
    rfl
  · have none : (padded D (prec + 1)).drop 1 = [] := drop_eq_nil_of_le (by omega)
    rw [if_neg shown, if_neg shown, none]
    rfl

theorem mantissa_text_length (n : Nat) (wide : (numeral 10 (prec + 1) n).length = prec + 1) :
    (mantissaText prec alt n).length ≤ prec + 2 := by
  have mark : (point prec alt).length ≤ 1 := by unfold point; split <;> simp
  simp only [mantissaText, chars, length_append, length_map, length_take, length_drop, wide]
  omega

theorem exponent_text_length {x : Int} (small : x.natAbs < 1000) : (exponentText upper x).length ≤ 5 := by
  have short : (digits 10 x.natAbs).length ≤ 3 := digits_length_le 10 _ 3 (by norm_num) small
  simp only [exponentText, chars, length_cons, length_map, numeral, length_append, length_replicate, length_reverse]
  omega

theorem fmt_e_text {D' : Dec} {prec n : Nat} (ran : decRound D (prec + 1) = some D')
    (each : ∀ d ∈ D'.d, d < 10) (nonempty : D'.d ≠ []) (short : D'.d.length ≤ prec + 1) (small : D'.decexp.natAbs < 1000)
    (narrow : prec ≤ 1080) (value : D'.value * 10 ^ ((prec : Int) - D'.decexp) = n) :
    fmtE D prec alt upper = some (scientificText prec alt upper n D'.decexp, (mantissaText prec alt n).length) := by
  have number := padded_value D' (prec + 1) short (by push_cast; ring) value
  have length := padded_length D' (prec + 1) short
  have digits : padded D' (prec + 1) = numeral 10 (prec + 1) n := by
    rw [← number]
    exact numeral_unique 10 (prec + 1) (by norm_num) (padded_each D' _ each) length.ge fun wider => absurd length wider.ne'
  obtain ⟨first, rest, shape⟩ := exists_cons_of_ne_nil nonempty
  have head : D'.d[0]? = some first := by rw [shape]; rfl
  have mantissa := e_mantissa_text D' alt head digits short
  have room : (mantissaText prec alt n ++ exponentText upper D'.decexp).length ≤ bodymax := by
    have front := mantissa_text_length alt prec n (by rw [← digits, length])
    have back := exponent_text_length upper small
    rw [length_append]
    unfold bodymax
    omega
  simp only [fmtE, ran, head, mantissa, exponent_bytes_text upper _ small, within, if_pos room, bind_eq_bind,
    bind_some]
  rfl

theorem fmt_e_spec (proper : D.Proper) (low : -324 ≤ D.decexp) (high : D.decexp ≤ 308) (narrow : prec ≤ 1080) :
    ∃ n x, fmtE D prec alt upper = some (scientificText prec alt upper n x, (mantissaText prec alt n).length) ∧
      Scientific prec D.value n x := by
  obtain ⟨D', n₀, ran, proper', short, least, most, rounded, value⟩ := dec_round_spec D (prec + 1) proper (by omega)
  have exponent : ((prec + 1 : Nat) : Int) - 1 - D.decexp = prec - D.decexp := by push_cast; ring
  rw [exponent] at rounded value
  have length := padded_length D' (prec + 1) short
  have scaled : D'.value * 10 ^ ((prec : Int) - D'.decexp) = natOf 10 (padded D' (prec + 1)) := by
    have place : D'.decexp + 1 - D'.d.length + ((prec : Int) - D'.decexp) = ((prec + 1 - D'.d.length : Nat) : Int) := by omega
    rw [Dec.value_scaled, place, zpow_natCast, padded, nat_of_padded]
    push_cast
    rfl
  refine ⟨natOf 10 (padded D' (prec + 1)), D'.decexp, ?_, Or.inr ⟨?_, ?_, D.decexp, n₀, proper.bounds.1, proper.bounds.2, rounded, ?_⟩⟩
  · exact fmt_e_text D alt upper ran proper'.each proper'.nonempty short (by omega) narrow scaled
  · have floor := proper'.bounds.1
    have unit : (0 : ℚ) < 10 ^ ((prec : Int) - D'.decexp) := zpow_pos (by norm_num) _
    have reach := mul_le_mul_of_nonneg_right floor unit.le
    rw [scaled, ← zpow_add₀ ten_ne, show D'.decexp + ((prec : Int) - D'.decexp) = (prec : Nat) by ring, zpow_natCast] at reach
    exact_mod_cast reach
  · have below := nat_of_lt 10 _ (padded_each D' (prec + 1) proper'.each)
    rw [length] at below
    exact below
  · rw [← scaled, ← value, mul_assoc, mul_assoc, ← zpow_add₀ ten_ne, ← zpow_add₀ ten_ne]
    congr 2
    ring

theorem fmt_e_zero {alt upper : Bool} (narrow : prec ≤ 1080) : fmtE { d := [0], decexp := 0 } prec alt upper =
      some (scientificText prec alt upper 0 0, (mantissaText prec alt 0).length) := by
  have ran : decRound { d := [0], decexp := 0 } (prec + 1) = some { d := [0], decexp := 0 } := by
    rw [decRound, if_pos (by simp)]
  exact fmt_e_text _ alt upper ran (by simp) (by simp) (by simp) (by simp) narrow (by simp [Dec.value, natOf])

variable (zeros : Nat)
theorem point_longer (positive : 0 < prec) : point (prec + zeros) alt = point prec alt := by
  unfold point
  rw [if_pos (Or.inl (by omega)), if_pos (Or.inl positive)]

variable (n : Nat)
theorem fixed_text_zeros (positive : 0 < prec) :
    fixedText (prec + zeros) alt (n * 10 ^ zeros) = fixedText prec alt n ++ List.replicate zeros 48 := by
  have digits := numeral_scaled 10 (prec + 1) n zeros (by norm_num)
  have wide := numeral_length 10 (prec + 1) n
  have blank : digit 0 = 48 := rfl
  have size : (numeral 10 (prec + 1) n ++ List.replicate zeros 0).length - (prec + zeros) =
      (numeral 10 (prec + 1) n).length - prec := by
    rw [length_append, length_replicate]
    omega
  unfold fixedText
  rw [point_longer alt prec zeros positive, add_right_comm, digits]
  simp only
  rw [size, take_append_of_le_length (by omega), drop_append_of_le_length (by omega)]
  simp only [chars, map_append, map_replicate, blank, append_assoc]

theorem mantissa_text_zeros (positive : 0 < prec) :
    mantissaText (prec + zeros) alt (n * 10 ^ zeros) = mantissaText prec alt n ++ List.replicate zeros 48 := by
  have digits := numeral_scaled 10 (prec + 1) n zeros (by norm_num)
  have wide := numeral_length 10 (prec + 1) n
  have blank : digit 0 = 48 := rfl
  unfold mantissaText
  rw [point_longer alt prec zeros positive, add_right_comm, digits]
  simp only
  rw [take_append_of_le_length (by omega), drop_append_of_le_length (by omega)]
  simp only [chars, map_append, map_replicate, blank, append_assoc]

theorem scientific_zeros {y : ℚ} {x : Int} (rounded : Scientific prec y n x)
    (whole : ∀ x₀ : Int, (10 : ℚ) ^ x₀ ≤ y → ∃ k : Nat, y * 10 ^ ((prec : Int) - x₀) = k) :
    Scientific (prec + zeros) y (n * 10 ^ zeros) x := by
  rcases rounded with ⟨none, rfl, rfl⟩ | ⟨low, high, x₀, n₀, floor, ceiling, nearest, same⟩
  · exact Or.inl ⟨none, zero_mul _, rfl⟩
  · right
    obtain ⟨k, exactly⟩ := whole x₀ floor
    rw [exactly] at nearest
    have equal := half_even_exact nearest
    refine ⟨?_, ?_, x₀, n₀ * 10 ^ zeros, floor, ceiling, ?_, ?_⟩
    · rw [pow_add]
      exact mul_le_mul_right _ low
    · rw [add_right_comm, pow_add]
      exact Nat.mul_lt_mul_of_pos_right high (Nat.pow_pos (by norm_num))
    · have longer : y * 10 ^ (((prec + zeros : Nat) : Int) - x₀) = (n₀ * 10 ^ zeros : Nat) := by
        have exponent : ((prec + zeros : Nat) : Int) - x₀ = ((prec : Int) - x₀) + zeros := by push_cast; ring
        rw [exponent, zpow_add₀ ten_ne, ← mul_assoc, exactly, equal, zpow_natCast]
        push_cast
        rfl
      rw [longer]
      exact half_even_nat _
    · push_cast
      rw [mul_right_comm, same]
      ring

theorem half_even_zeros {y : ℚ} (rounded : HalfEven (y * 10 ^ (prec : Int)) n)
    (whole : ∃ k : Nat, y * 10 ^ (prec : Int) = k) : HalfEven (y * 10 ^ ((prec + zeros : Nat) : Int)) (n * 10 ^ zeros) := by
  obtain ⟨k, exactly⟩ := whole
  rw [exactly] at rounded
  have equal := half_even_exact rounded
  have longer : y * 10 ^ ((prec + zeros : Nat) : Int) = (n * 10 ^ zeros : Nat) := by
    rw [cast_add, zpow_add₀ ten_ne, ← mul_assoc, exactly, equal, zpow_natCast]
    push_cast
    rfl
  rw [longer]
  exact half_even_nat _

theorem Dec.value_whole (k : Int) (last : 0 ≤ D.decexp + 1 - D.d.length + k) : ∃ n : Nat, D.value * 10 ^ k = n := by
  obtain ⟨places, exponent⟩ := Int.eq_ofNat_of_zero_le last
  refine ⟨natOf 10 D.d * 10 ^ places, ?_⟩
  rw [Dec.value_scaled, exponent, zpow_natCast]
  push_cast
  rfl

end Spicule.Printf
