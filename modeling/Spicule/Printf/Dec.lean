import Spicule.Lib.Numeral
import Spicule.Lib.Limbs
import Spicule.Lib.Rounding

namespace Spicule.Printf
open List Option Nat Limbs Numeral Rounding

-- An array of `limit` places takes these in turn; none is a write behind its end.
def within {α : Type} (limit : Nat) (written : List α) : Option (List α) :=
  if written.length ≤ limit then some written else none

def significand (v : UInt64) : UInt64 × Int :=
  let e2 := (v >>> 52 &&& 0x7ff).toNat
  let m := v &&& 0xfffffffffffff
  if e2 ≠ 0 then (m ||| (1 : UInt64) <<< 52, (e2 : Int) - 1075) else (m, -1074)

def decLimbs : Nat := 88

def exactDig : Nat := 768

def mulSmall (a : List Nat) (m : Nat) : List Nat := mulAddWithin 1000000000 decLimbs m a 0

-- The digits are numbers here, characters in the code; `nd` is their count.
structure Dec where
  d : List Nat
  decexp : Int
deriving DecidableEq

def mulTwos : Nat → Nat → List Nat → List Nat
  | 0, _, bn => bn
  | chunks + 1, e2, bn =>
    let k := if e2 > 29 then 29 else e2
    mulTwos chunks (e2 - k) (mulSmall bn (2 ^ k))

def mulFives : Nat → Nat → List Nat → List Nat
  | 0, _, bn => bn
  | chunks + 1, k, bn =>
    if 12 ≤ k then mulFives chunks (k - 12) (mulSmall bn 244140625) else mulFives chunks 0 (mulSmall bn (5 ^ k))

def limbDigits : Nat → Nat → List Nat
  | 0, _ => []
  | j + 1, w => limbDigits j (w / 10) ++ [w % 10]

def decDigits (bn : List Nat) : Option (List Nat) :=
  match bn.reverse with
  | [] => none
  | hi :: rest => do
      let t ← within 10 (if hi = 0 then [0] else digits 10 hi)
      some (t.reverse ++ rest.flatMap (limbDigits 9))

def dropZeros : List Nat → List Nat
  | d :: e :: rest => if d = 0 then dropZeros (e :: rest) else d :: e :: rest
  | ds => ds

def trimmed (d : List Nat) : List Nat := (dropZeros d.reverse).reverse

def decExact (v : UInt64) : Option Dec :=
  let (m, e2) := significand v
  if m = 0 then some { d := [0], decexp := 0 }
  else do
    let bn ← within decLimbs (digits 1000000000 m.toNat)
    let twos := e2.toNat
    let bn := mulTwos (twos / 29 + if twos % 29 ≠ 0 then 1 else 0) twos bn
    let nfrac := (-e2).toNat
    let bn := mulFives (nfrac / 12 + if nfrac % 12 ≠ 0 then 1 else 0) nfrac bn
    let d ← decDigits bn
    let d ← within exactDig d
    some { d := trimmed d, decexp := d.length - 1 - nfrac }

-- One more in the last place, which comes first; none if all were nines. The nines passed
-- are zeros no longer kept.
def carryUp : List Nat → Option (List Nat)
  | [] => none
  | d :: rest => if d ≠ 9 then some ((d + 1) :: rest) else carryUp rest

def roundsUp (D : Dec) (want next : Nat) : Option Bool :=
  if next = 5 then
    if (D.d.drop (want + 1)).any (· ≠ 0) then some true
    else if want = 0 then none
    else D.d[want - 1]?.map fun last => decide (last % 2 = 1)
  else some (decide (5 < next))

def cutTo (D : Dec) (want : Nat) (up : Bool) : Dec :=
  if up = false then { D with d := trimmed (D.d.take want) }
  else
    match carryUp (D.d.take want).reverse with
    | some kept => { D with d := kept.reverse }
    | none => { d := [1], decexp := D.decexp + 1 }

def decRound (D : Dec) (want : Nat) : Option Dec :=
  if D.d.length ≤ want then some D
  else do
    let next ← D.d[want]?
    let up ← roundsUp D want next
    some (cutTo D want up)

namespace Dec

def value (D : Dec) : ℚ := natOf 10 D.d * 10 ^ (D.decexp + 1 - D.d.length)

structure Proper (D : Dec) : Prop where
  each : ∀ d ∈ D.d, d < 10
  nonempty : D.d ≠ []
  head : D.d.head? ≠ some 0
  last : D.d.getLast? ≠ some 0

end Dec

theorem mul_small_digits {v m : Nat} (pos : 0 < m) (small : m ≤ 2 ^ 29) (fits : v * m < 1000000000 ^ decLimbs) :
    mulSmall (digits 1000000000 v) m = digits 1000000000 (v * m) := by
  have word : 1000000000 * m < 2 ^ 64 := by omega
  exact mul_add_within_digits (by norm_num) pos (zero_le m) word fits

theorem mul_twos_digits (chunks e2 v : Nat) (enough : e2 ≤ 29 * chunks) (fits : v * 2 ^ e2 < 1000000000 ^ decLimbs) :
    mulTwos chunks e2 (digits 1000000000 v) = digits 1000000000 (v * 2 ^ e2) := by
  induction chunks generalizing e2 v with
  | zero =>
    have none : e2 = 0 := by omega
    rw [mulTwos, none, pow_zero, mul_one]
  | succ chunks ih =>
    obtain ⟨k, step⟩ : ∃ k, k = if e2 > 29 then 29 else e2 := ⟨_, rfl⟩
    have part : k ≤ e2 ∧ k ≤ 29 ∧ e2 - k ≤ 29 * chunks := by
      split at step <;> omega
    have whole : v * 2 ^ e2 = v * 2 ^ k * 2 ^ (e2 - k) := by
      rw [Nat.mul_assoc, ← Nat.pow_add, Nat.add_sub_cancel' part.1]
    have bound : v * 2 ^ k < 1000000000 ^ decLimbs := by
      apply lt_of_le_of_lt _ fits
      rw [whole]
      exact Nat.le_mul_of_pos_right _ (Nat.two_pow_pos _)
    rw [whole] at fits ⊢
    rw [mulTwos, ← step, mul_small_digits (Nat.two_pow_pos k) (Nat.pow_le_pow_right (by omega) part.2.1) bound,
      ih (e2 - k) (v * 2 ^ k) part.2.2 fits]

theorem mul_fives_digits (chunks k v : Nat) (enough : k ≤ 12 * chunks) (fits : v * 5 ^ k < 1000000000 ^ decLimbs) :
    mulFives chunks k (digits 1000000000 v) = digits 1000000000 (v * 5 ^ k) := by
  induction chunks generalizing k v with
  | zero =>
    have none : k = 0 := by omega
    rw [mulFives, none, pow_zero, mul_one]
  | succ chunks ih =>
    rw [mulFives]
    split
    · rename_i full
      have whole : v * 5 ^ k = v * 244140625 * 5 ^ (k - 12) := by
        rw [show 244140625 = 5 ^ 12 by norm_num, Nat.mul_assoc, ← Nat.pow_add, Nat.add_sub_cancel' full]
      have bound : v * 244140625 < 1000000000 ^ decLimbs := by
        apply lt_of_le_of_lt _ fits
        rw [whole]
        exact Nat.le_mul_of_pos_right _ (Nat.pow_pos (by omega))
      rw [whole] at fits ⊢
      rw [mul_small_digits (by omega) (by omega) bound, ih (k - 12) _ (by omega) fits]
    · rename_i rest
      have small : 5 ^ k ≤ 2 ^ 29 := (Nat.pow_le_pow_right (by omega) (show k ≤ 12 by omega)).trans (by norm_num)
      rw [mul_small_digits (Nat.pow_pos (by omega)) small fits,
        ih 0 _ (zero_le _) (by rw [pow_zero, mul_one]; exact fits), pow_zero, mul_one]

theorem limb_digits_spec (j w : Nat) :
    natOf 10 (limbDigits j w) = w % 10 ^ j ∧ (limbDigits j w).length = j ∧ ∀ d ∈ limbDigits j w, d < 10 := by
  induction j generalizing w with
  | zero => exact ⟨by rw [limbDigits, pow_zero, mod_one]; rfl, rfl, fun d mem => absurd mem not_mem_nil⟩
  | succ j ih =>
    obtain ⟨value, length, each⟩ := ih (w / 10)
    rw [limbDigits]
    refine ⟨?_, ?_, ?_⟩
    · rw [nat_of_snoc, value, pow_succ', mod_mul]
      ring
    · rw [length_append, length]
      rfl
    · intro d mem
      rcases mem_append.mp mem with front | last
      · exact each d front
      · rw [mem_singleton.mp last]
        exact mod_lt w (by omega)

theorem limbs_digits_spec {limbs : List Nat} (each : ∀ w ∈ limbs, w < 1000000000) :
    natOf 10 (limbs.flatMap (limbDigits 9)) = natOf 1000000000 limbs ∧
      (limbs.flatMap (limbDigits 9)).length = 9 * limbs.length ∧ ∀ d ∈ limbs.flatMap (limbDigits 9), d < 10 := by
  induction limbs with
  | nil => exact ⟨rfl, rfl, fun d mem => absurd mem not_mem_nil⟩
  | cons w limbs ih =>
    obtain ⟨value, length, small⟩ := ih (forall_mem_cons.mp each).2
    obtain ⟨limb, nine, digits⟩ := limb_digits_spec 9 w
    have bound := each w mem_cons_self
    rw [flatMap_cons]
    refine ⟨?_, ?_, ?_⟩
    · rw [nat_of_append, value, limb, length, nat_of_cons, mod_eq_of_lt (by omega), Nat.pow_mul]
    · rw [length_append, length, nine, length_cons]
      omega
    · intro d mem
      rcases mem_append.mp mem with front | back
      · exact digits d front
      · exact small d back

theorem dec_digits_spec (v : Nat) (pos : 0 < v) :
    decDigits (digits 1000000000 v) = some (digits 10 v).reverse := by
  have nonempty : digits 1000000000 v ≠ [] := Nat.digits_ne_nil_iff_ne_zero.mpr pos.ne'
  have total : natOf 1000000000 (digits 1000000000 v).reverse = v := by rw [nat_of_reverse, ofDigits_digits]
  have limbs : ∀ w ∈ (digits 1000000000 v).reverse, w < 1000000000 := fun w mem =>
    digits_lt_base (by norm_num) (mem_reverse.mp mem)
  have top : (digits 1000000000 v).reverse.head? ≠ some 0 := by
    rw [head?_reverse, getLast?_eq_some_getLast nonempty]
    intro zero
    exact getLast_digit_ne_zero 1000000000 pos.ne' (some.inj zero)
  unfold decDigits
  cases shape : (digits 1000000000 v).reverse with
  | nil => exact absurd (reverse_eq_nil_iff.mp shape) nonempty
  | cons hi rest =>
    rw [shape] at total limbs top
    have nonzero : hi ≠ 0 := fun zero => top (by rw [zero, head?_cons])
    have bound := limbs hi mem_cons_self
    obtain ⟨value, length, small⟩ := limbs_digits_spec (forall_mem_cons.mp limbs).2
    have short : (digits 10 hi).length ≤ 10 := digits_length_le 10 hi 10 (by norm_num) (by omega)
    have front : natOf 10 (digits 10 hi).reverse = hi := by rw [nat_of_reverse, ofDigits_digits]
    have number : natOf 10 ((digits 10 hi).reverse ++ rest.flatMap (limbDigits 9)) = v := by
      rw [nat_of_append, value, front, length, Nat.pow_mul, ← total, nat_of_cons]
    have each : ∀ d ∈ (digits 10 hi).reverse ++ rest.flatMap (limbDigits 9), d < 10 := by
      intro d mem
      rcases mem_append.mp mem with high | low
      · exact digits_lt_base (by norm_num) (mem_reverse.mp high)
      · exact small d low
    have filled : digits 10 hi ≠ [] := Nat.digits_ne_nil_iff_ne_zero.mpr nonzero
    have head : ((digits 10 hi).reverse ++ rest.flatMap (limbDigits 9)).head? ≠ some 0 := by
      rw [head?_append_of_ne_nil _ (reverse_ne_nil_iff.mpr filled), head?_reverse, getLast?_eq_some_getLast filled]
      intro zero
      exact getLast_digit_ne_zero 10 nonzero (some.inj zero)
    have written := numeral_unique 10 0 (by norm_num) each (Nat.zero_le _) fun _ => head
    rw [number] at written
    simp only [if_neg nonzero, within, if_pos short, bind_eq_bind, bind_some, written]
    simp [numeral]

theorem drop_zeros_spec {ds : List Nat} {first : Nat} (lead : ds.getLast? = some first) (nonzero : first ≠ 0) :
    ∃ k, ds = List.replicate k 0 ++ dropZeros ds ∧ (dropZeros ds).getLast? = some first ∧ (dropZeros ds).head? ≠ some 0 := by
  induction ds with
  | nil => cases lead
  | cons d rest ih =>
    cases rest with
    | nil =>
      rw [getLast?_singleton, some.injEq] at lead
      have kept : dropZeros [d] = [d] := rfl
      rw [kept, lead]
      refine ⟨0, rfl, rfl, ?_⟩
      rw [head?_cons, Ne, some.injEq]
      exact nonzero
    | cons e rest =>
      rw [dropZeros]
      by_cases zero : d = 0
      · rw [getLast?_cons_cons] at lead
        obtain ⟨k, shape, lead', head⟩ := ih lead
        rw [if_pos zero]
        exact ⟨k + 1, by rw [replicate_succ, cons_append, ← shape, zero], lead', head⟩
      · rw [if_neg zero]
        refine ⟨0, rfl, lead, ?_⟩
        rw [head?_cons, Ne, some.injEq]
        exact zero

theorem trimmed_spec {d : List Nat} (nonempty : d ≠ []) (head : d.head? ≠ some 0) :
    ∃ k, d = trimmed d ++ List.replicate k 0 ∧ (trimmed d).head? = d.head? ∧ (trimmed d).getLast? ≠ some 0 := by
  obtain ⟨first, rest, shape⟩ := exists_cons_of_ne_nil nonempty
  have lead : d.reverse.getLast? = some first := by rw [getLast?_reverse, shape, head?_cons]
  have nonzero : first ≠ 0 := fun zero => head (by rw [shape, head?_cons, zero])
  obtain ⟨k, split, lead', head'⟩ := drop_zeros_spec lead nonzero
  refine ⟨k, ?_, ?_, ?_⟩
  · rw [trimmed, ← reverse_replicate, ← reverse_append, ← split, reverse_reverse]
  · rw [trimmed, head?_reverse, lead', shape, head?_cons]
  · rw [trimmed, getLast?_reverse]
    exact head'

theorem carry_up_some {front kept : List Nat} (each : ∀ d ∈ front, d < 10) (up : carryUp front = some kept) :
    (∃ zeros, natOf 10 front.reverse + 1 = natOf 10 kept.reverse * 10 ^ zeros ∧ kept.length + zeros = front.length) ∧
      (∀ d ∈ kept, d < 10) ∧ kept.head? ≠ some 0 ∧ kept ≠ [] ∧ (front.getLast? ≠ some 0 → kept.getLast? ≠ some 0) := by
  induction front with
  | nil => cases up
  | cons d rest ih =>
    have digit := each d mem_cons_self
    have others : ∀ e ∈ rest, e < 10 := (forall_mem_cons.mp each).2
    rw [carryUp] at up
    by_cases nine : d = 9
    · rw [if_neg (by simpa using nine)] at up
      obtain ⟨⟨zeros, value, length⟩, small, head, nonempty, lead⟩ := ih others up
      refine ⟨⟨zeros + 1, ?_, by rw [length_cons]; omega⟩, small, head, nonempty, ?_⟩
      · rw [reverse_cons, nat_of_snoc, nine, pow_succ, ← mul_assoc, ← value]
        omega
      · cases rest with
        | nil => cases up
        | cons e rest =>
          rw [getLast?_cons_cons]
          exact lead
    · rw [if_pos nine] at up
      injection up with same
      rw [← same]
      refine ⟨⟨0, ?_, rfl⟩, ?_, ?_, cons_ne_nil _ _, ?_⟩
      · rw [reverse_cons, reverse_cons, nat_of_snoc, nat_of_snoc, pow_zero, mul_one, add_assoc]
      · intro e mem
        rcases mem_cons.mp mem with here | later
        · omega
        · exact others e later
      · rw [head?_cons, Ne, some.injEq]
        omega
      · cases rest with
        | nil =>
          intro _
          rw [getLast?_singleton, Ne, some.injEq]
          omega
        | cons e rest =>
          rw [getLast?_cons_cons, getLast?_cons_cons]
          exact id

theorem carry_up_none {front : List Nat} (up : carryUp front = none) : natOf 10 front.reverse + 1 = 10 ^ front.length := by
  induction front with
  | nil => rfl
  | cons d rest ih =>
    rw [carryUp] at up
    split at up
    · cases up
    · rename_i nine
      rw [not_not] at nine
      rw [reverse_cons, nat_of_snoc, length_cons, pow_succ, ← ih up, nine]
      omega

theorem ten_ne : (10 : ℚ) ≠ 0 := by norm_num

variable (D : Dec)
theorem Dec.value_scaled (k : Int) : D.value * 10 ^ k = natOf 10 D.d * 10 ^ (D.decexp + 1 - D.d.length + k) := by
  rw [Dec.value, mul_assoc, ← zpow_add₀ ten_ne]

theorem rounds_up_spec {want : Nat} (next : Nat) {last : Nat} (pos : 0 < want) (before : D.d[want - 1]? = some last) :
    ∃ up, roundsUp D want next = some up ∧
      (up = true ↔ 5 < next ∨ (next = 5 ∧ ((∃ e ∈ D.d.drop (want + 1), e ≠ 0) ∨ last % 2 = 1))) := by
  unfold roundsUp
  by_cases five : next = 5
  · rw [if_pos five]
    by_cases rest : (D.d.drop (want + 1)).any (· ≠ 0) = true
    · rw [if_pos rest]
      have found : ∃ e ∈ D.d.drop (want + 1), e ≠ 0 := by simpa using rest
      exact ⟨true, rfl, iff_of_true rfl (Or.inr ⟨five, Or.inl found⟩)⟩
    · have none : ¬∃ e ∈ D.d.drop (want + 1), e ≠ 0 := by simpa using rest
      rw [if_neg rest, if_neg pos.ne', before, map_some]
      refine ⟨_, rfl, ?_⟩
      rw [decide_eq_true_eq]
      constructor
      · exact fun odd => Or.inr ⟨five, Or.inr odd⟩
      · rintro (above | ⟨_, found | odd⟩)
        · omega
        · exact absurd found none
        · exact odd
  · rw [if_neg five]
    refine ⟨_, rfl, ?_⟩
    rw [decide_eq_true_eq]
    constructor
    · exact Or.inl
    · rintro (above | ⟨same, _⟩)
      · exact above
      · exact absurd same five

theorem value_at_place (d : List Nat) (decexp : Int) (want zeros : Nat) (size : d.length + zeros = want) :
    Dec.value { d, decexp } * 10 ^ ((want : Int) - 1 - decexp) = (natOf 10 d * 10 ^ zeros : Nat) := by
  have place : decexp + 1 - d.length + ((want : Int) - 1 - decexp) = zeros := by omega
  rw [Dec.value_scaled, place, zpow_natCast]
  push_cast
  rfl

theorem cut_to_spec {want : Nat} (up : Bool) (proper : D.Proper) (pos : 0 < want) (long : want < D.d.length) :
    (cutTo D want up).Proper ∧ (cutTo D want up).d.length ≤ want ∧
      D.decexp ≤ (cutTo D want up).decexp ∧ (cutTo D want up).decexp ≤ D.decexp + 1 ∧
      (cutTo D want up).value * 10 ^ ((want : Int) - 1 - D.decexp) =
        (natOf 10 (D.d.take want) + if up then 1 else 0 : Nat) := by
  have each : ∀ d ∈ D.d.take want, d < 10 := fun d mem => proper.each d (mem_of_mem_take mem)
  have length : (D.d.take want).length = want := by rw [length_take]; omega
  have nonempty : D.d.take want ≠ [] := ne_nil_of_length_pos (by omega)
  have head : (D.d.take want).head? ≠ some 0 := by
    rw [head?_take, if_neg pos.ne']
    exact proper.head
  unfold cutTo
  generalize D.d.take want = front at each length nonempty head ⊢
  cases up with
  | false =>
    obtain ⟨k, split, lead, last⟩ := trimmed_spec nonempty head
    have size : (trimmed front).length + k = want := by
      rw [← length_replicate (n := k) (a := 0), ← length_append, ← split, length]
    have value : natOf 10 front = natOf 10 (trimmed front) * 10 ^ k := by
      nth_rewrite 1 [split]
      exact nat_of_padded 10 _ k
    simp only [if_true, Bool.false_eq_true, if_false, Nat.add_zero]
    refine ⟨⟨?_, ?_, ?_, last⟩, by omega, le_refl _, by omega, ?_⟩
    · intro d mem
      exact each d (split ▸ mem_append_left _ mem)
    · intro none
      change trimmed front = [] at none
      rw [none, head?_nil] at lead
      exact nonempty (head?_eq_none_iff.mp lead.symm)
    · change (trimmed front).head? ≠ some 0
      rw [lead]
      exact head
    · rw [value_at_place (trimmed front) D.decexp want k size, value]
  | true =>
    have others : ∀ d ∈ front.reverse, d < 10 := fun d mem => each d (mem_reverse.mp mem)
    simp only [Bool.true_eq_false, if_false, if_true]
    cases carried : carryUp front.reverse with
    | some kept =>
      obtain ⟨⟨zeros, value, size⟩, small, last, filled, lead⟩ := carry_up_some others carried
      rw [reverse_reverse] at value
      rw [length_reverse, length] at size
      rw [getLast?_reverse] at lead
      refine ⟨⟨?_, ?_, ?_, ?_⟩, by simp only [length_reverse]; omega, le_refl _, by simp only; omega, ?_⟩
      · exact fun d mem => small d (mem_reverse.mp mem)
      · exact fun none => filled (reverse_eq_nil_iff.mp none)
      · change kept.reverse.head? ≠ some 0
        rw [head?_reverse]
        exact lead head
      · change kept.reverse.getLast? ≠ some 0
        rw [getLast?_reverse]
        exact last
      · rw [value_at_place kept.reverse D.decexp want zeros (by rw [length_reverse]; exact size), value]
    | none =>
      have value := carry_up_none carried
      rw [reverse_reverse, length_reverse, length] at value
      refine ⟨⟨?_, ?_, ?_, ?_⟩, pos, by simp only; omega, le_refl _, ?_⟩
      · intro d mem
        rw [mem_singleton.mp mem]
        norm_num
      · exact cons_ne_nil _ _
      · change some 1 ≠ some 0
        simp
      · change some 1 ≠ some 0
        simp
      · have place : D.decexp + 1 + 1 - (1 : Nat) + ((want : Int) - 1 - D.decexp) = want := by omega
        rw [Dec.value_scaled, value]
        change ((1 : Nat) : ℚ) * 10 ^ (D.decexp + 1 + 1 - (1 : Nat) + ((want : Int) - 1 - D.decexp)) = _
        rw [place, zpow_natCast, cast_one, one_mul]
        push_cast
        rfl

theorem dec_round_spec (want : Nat) (proper : D.Proper) (pos : 0 < want) :
    ∃ D' n, decRound D want = some D' ∧ D'.Proper ∧ D'.d.length ≤ want ∧ D.decexp ≤ D'.decexp ∧ D'.decexp ≤ D.decexp + 1 ∧
      HalfEven (D.value * 10 ^ ((want : Int) - 1 - D.decexp)) n ∧ D'.value * 10 ^ ((want : Int) - 1 - D.decexp) = n := by
  unfold decRound
  by_cases long : want < D.d.length
  · have split := take_append_drop want D.d
    obtain ⟨next, at_want⟩ : ∃ next, D.d[want]? = some next := ⟨_, List.getElem?_eq_getElem long⟩
    have behind : D.d.drop want = next :: D.d.drop (want + 1) := by
      rw [drop_eq_getElem_cons long, ← some.inj ((List.getElem?_eq_getElem long).symm.trans at_want)]
    obtain ⟨last, before⟩ : ∃ last, D.d[want - 1]? = some last := ⟨_, List.getElem?_eq_getElem (by omega)⟩
    have front : D.d.take want = D.d.take (want - 1) ++ [last] := by
      obtain ⟨k, shape⟩ : ∃ k, want = k + 1 := ⟨want - 1, by omega⟩
      rw [shape, Nat.add_sub_cancel] at before ⊢
      rw [take_add_one, before]
      rfl
    obtain ⟨up, decided, when⟩ := rounds_up_spec D next pos before
    obtain ⟨proper', short, low, high, value⟩ := cut_to_spec D up proper pos long
    refine ⟨cutTo D want up, _, ?_, proper', short, low, high, ?_, value⟩
    · rw [if_neg (by omega), at_want]
      simp only [bind_eq_bind, bind_some, decided]
    · have count : (D.d.drop want).length = D.d.length - want := length_drop
      have place : D.decexp + 1 - D.d.length + ((want : Int) - 1 - D.decexp) = -((D.d.drop want).length : Int) := by omega
      have scaled : D.value * 10 ^ ((want : Int) - 1 - D.decexp) =
          natOf 10 (D.d.take want) + fraction (next :: D.d.drop (want + 1)) := by
        rw [Dec.value_scaled, place, zpow_neg, zpow_natCast, ← div_eq_mul_inv, ← behind, ← nat_of_split, split]
      rw [scaled]
      apply half_even_digits _ _ when
      · rw [front]
        exact nat_of_parity _ last
      · rw [← behind]
        exact fun d mem => proper.each d (mem_of_mem_drop mem)
  · rw [if_pos (by omega)]
    have exactly := value_at_place D.d D.decexp want (want - D.d.length) (by omega)
    refine ⟨D, _, rfl, proper, by omega, le_refl _, by omega, ?_, exactly⟩
    rw [show D.value * 10 ^ ((want : Int) - 1 - D.decexp) = _ from exactly]
    exact half_even_nat _

def field (v : UInt64) : Nat := v.toNat / 2 ^ 52 % 2 ^ 11

def frac (v : UInt64) : Nat := v.toNat % 2 ^ 52

def Finite (v : UInt64) : Prop := field v ≠ 2047

def magnitude (v : UInt64) : ℚ := if field v = 0 then value (frac v) (-1074) else value (2 ^ 52 + frac v) (field v - 1075)

variable (v : UInt64)
theorem exponent_field : (v >>> 52 &&& 0x7ff).toNat = field v := by
  rw [UInt64.toNat_and, UInt64.toNat_shiftRight]
  change (v.toNat >>> 52) &&& (2 ^ 11 - 1) = _
  rw [and_two_pow_sub_one_eq_mod, shiftRight_eq_div_pow]
  rfl

theorem fraction_field : (v &&& 0xfffffffffffff).toNat = frac v := by
  rw [UInt64.toNat_and]
  change v.toNat &&& (2 ^ 52 - 1) = _
  rw [and_two_pow_sub_one_eq_mod]
  rfl

theorem implicit_bit (m : UInt64) (small : m.toNat < 2 ^ 52) : (m ||| (1 : UInt64) <<< 52).toNat = 2 ^ 52 + m.toNat := by
  have one : ((1 : UInt64) <<< 52).toNat = 2 ^ 52 * 1 := by decide
  rw [UInt64.toNat_or, one, Nat.or_comm, ← two_pow_add_eq_or_of_lt small, Nat.mul_one]

theorem significand_spec (finite : Finite v) : magnitude v = value (significand v).1.toNat (significand v).2 ∧
      Canonical 53 (-1074) (significand v).1.toNat (significand v).2 ∧ (significand v).2 ≤ 971 := by
  have small : frac v < 2 ^ 52 := mod_lt _ (by norm_num)
  have range : field v < 2048 := mod_lt _ (by norm_num)
  unfold Finite at finite
  unfold magnitude significand
  simp only [exponent_field]
  by_cases subnormal : field v = 0
  · rw [if_pos subnormal, if_neg (by omega)]
    simp only [fraction_field]
    exact ⟨trivial, ⟨by omega, le_refl _, Or.inr rfl⟩, by omega⟩
  · rw [if_neg subnormal, if_pos subnormal]
    simp only [implicit_bit _ (by rw [fraction_field]; exact small), fraction_field]
    exact ⟨trivial, ⟨by omega, by omega, Or.inl (by omega)⟩, by omega⟩

theorem Dec.Proper.bounds (proper : D.Proper) : (10 : ℚ) ^ D.decexp ≤ D.value ∧ D.value < 10 ^ (D.decexp + 1) := by
  obtain ⟨first, rest, shape⟩ := exists_cons_of_ne_nil proper.nonempty
  have nonzero : first ≠ 0 := fun zero => proper.head (by rw [shape, head?_cons, zero])
  have low : ((10 : ℚ)) ^ rest.length ≤ natOf 10 D.d := by
    rw [shape]
    exact_mod_cast nat_of_ge 10 first rest nonzero
  have high : (natOf 10 D.d : ℚ) < 10 ^ D.d.length := by exact_mod_cast nat_of_lt 10 D.d proper.each
  have length : D.d.length = rest.length + 1 := by rw [shape, length_cons]
  have unit : (0 : ℚ) < 10 ^ (D.decexp + 1 - D.d.length) := zpow_pos (by norm_num) _
  unfold Dec.value
  constructor
  · have power : (10 : ℚ) ^ D.decexp = 10 ^ rest.length * 10 ^ (D.decexp + 1 - D.d.length) := by
      rw [← zpow_natCast, ← zpow_add₀ ten_ne]
      congr 1
      omega
    rw [power]
    exact mul_le_mul_of_nonneg_right low unit.le
  · have power : (10 : ℚ) ^ (D.decexp + 1) = 10 ^ D.d.length * 10 ^ (D.decexp + 1 - D.d.length) := by
      rw [← zpow_natCast, ← zpow_add₀ ten_ne]
      congr 1
      omega
    rw [power]
    exact mul_lt_mul_of_pos_right high unit

theorem dec_exact_zero (finite : Finite v) (zero : magnitude v = 0) : decExact v = some { d := [0], decexp := 0 } := by
  obtain ⟨number, _, _⟩ := significand_spec v finite
  rw [zero, value] at number
  have none : (significand v).1 = 0 := by
    rcases mul_eq_zero.mp number.symm with empty | unit
    · exact UInt64.toNat_inj.mp (by exact_mod_cast empty)
    · exact absurd unit (unit_pos _).ne'
  simp only [decExact, none, if_true]

def expansion (q : Nat) (g : Int) : Nat := q * 2 ^ g.toNat * 5 ^ (-g).toNat

variable (q : Nat) (g : Int)
theorem expansion_value : (expansion q g : ℚ) * 10 ^ (-((-g).toNat : Int)) = value q g := by
  unfold expansion value
  push_cast
  rcases le_total 0 g with whole | part
  · have none : (-g).toNat = 0 := by omega
    have same : (g.toNat : Int) = g := by omega
    rw [none, cast_zero, neg_zero, zpow_zero, pow_zero, mul_one, mul_one, ← zpow_natCast, same]
  · have none : g.toNat = 0 := by omega
    have same : -((-g).toNat : Int) = g := by omega
    have inverse : (5 : ℚ) ^ (-g).toNat = 5 ^ (-g) := by
      rw [← zpow_natCast]
      congr 1
      omega
    rw [none, same, pow_zero, mul_one, inverse, show (10 : ℚ) = 2 * 5 by norm_num, mul_zpow, mul_assoc, mul_comm (_ ^ (-g)),
      mul_assoc, ← zpow_add₀ (by norm_num), add_neg_cancel, zpow_zero, mul_one]

variable {q}
theorem expansion_small (canonical : Canonical 53 (-1074) q g) (high : g ≤ 971) : expansion q g < 10 ^ 768 := by
  have fits := canonical.fits
  have least := canonical.least
  unfold expansion
  rcases le_total 0 g with whole | part
  · have none : (-g).toNat = 0 := by omega
    rw [none, pow_zero, mul_one]
    calc q * 2 ^ g.toNat ≤ 2 ^ 53 * 2 ^ 971 := Nat.mul_le_mul fits.le (Nat.pow_le_pow_right (by omega) (by omega))
      _ < 10 ^ 768 := by decide +kernel
  · have none : g.toNat = 0 := by omega
    rw [none, pow_zero, mul_one]
    calc q * 5 ^ (-g).toNat ≤ 2 ^ 53 * 5 ^ 1074 := Nat.mul_le_mul fits.le (Nat.pow_le_pow_right (by omega) (by omega))
      _ < 10 ^ 768 := by decide +kernel

theorem limbs_hold : 10 ^ 768 ≤ 1000000000 ^ decLimbs := by decide +kernel

theorem expansion_limbs (small : expansion q g < 1000000000 ^ decLimbs) :
    mulFives ((-g).toNat / 12 + if (-g).toNat % 12 ≠ 0 then 1 else 0) (-g).toNat
        (mulTwos (g.toNat / 29 + if g.toNat % 29 ≠ 0 then 1 else 0) g.toNat (digits 1000000000 q)) =
      digits 1000000000 (expansion q g) := by
  have part : q * 2 ^ g.toNat < 1000000000 ^ decLimbs :=
    Nat.lt_of_le_of_lt (Nat.le_mul_of_pos_right _ (Nat.pow_pos (by omega))) small
  rw [mul_twos_digits _ _ q (by split <;> omega) part, mul_fives_digits _ _ _ (by split <;> omega) small]
  rfl

theorem inverse_powers {a b : Nat} (le : 2 ^ a ≤ 10 ^ b) : (10 : ℚ) ^ (-(b : Int)) ≤ 2 ^ (-(a : Int)) := by
  have cast : (2 : ℚ) ^ a ≤ 10 ^ b := by exact_mod_cast le
  rw [zpow_neg, zpow_neg, zpow_natCast, zpow_natCast]
  exact inv_anti₀ (by positivity) cast

theorem tiny_reach (pos : 0 < q) (least : -1074 ≤ g) : (10 : ℚ) ^ (-324 : Int) ≤ value q g := by
  calc (10 : ℚ) ^ (-324 : Int) ≤ 2 ^ (-1074 : Int) := inverse_powers (by decide +kernel)
    _ ≤ 2 ^ g := zpow_le_zpow_right₀ (by norm_num) least
    _ ≤ value q g := le_mul_of_one_le_left (unit_pos g).le (by exact_mod_cast pos)

theorem huge_reach (fits : q < 2 ^ 53) (high : g ≤ 971) : value q g < (10 : ℚ) ^ (309 : Int) := by
  have power : (2 : ℚ) ^ 1024 ≤ 10 ^ 309 := by exact_mod_cast (by decide +kernel : 2 ^ 1024 ≤ 10 ^ 309)
  calc value q g < 2 ^ (g + (53 : Nat)) := value_lt q 53 g fits
    _ ≤ 2 ^ (1024 : Int) := zpow_le_zpow_right₀ (by norm_num) (by push_cast; omega)
    _ ≤ 10 ^ (309 : Int) := power

theorem dec_exact_spec (finite : Finite v) (pos : 0 < magnitude v) :
    ∃ D, decExact v = some D ∧ D.Proper ∧ D.value = magnitude v ∧ D.d.length ≤ exactDig ∧
      -1074 ≤ D.decexp + 1 - D.d.length ∧ -324 ≤ D.decexp ∧ D.decexp ≤ 308 := by
  obtain ⟨number, canonical, high⟩ := significand_spec v finite
  have fits := canonical.fits
  have least := canonical.least
  unfold decExact
  generalize significand v = fields at number canonical high fits least ⊢
  obtain ⟨m, g⟩ := fields
  simp only at number canonical high fits least ⊢
  have nonzero : m ≠ 0 := by
    intro zero
    rw [number, zero] at pos
    simp [value] at pos
  have some_bits : 0 < m.toNat := pos_of_ne_zero fun zero => nonzero (UInt64.toNat_inj.mp zero)
  have small := expansion_small g canonical high
  have room := lt_of_lt_of_le small limbs_hold
  have full : 0 < expansion m.toNat g := Nat.mul_pos (Nat.mul_pos some_bits (Nat.two_pow_pos _)) (Nat.pow_pos (by omega))
  have first : (digits 1000000000 m.toNat).length ≤ decLimbs :=
    digits_length_le 1000000000 _ decLimbs (by norm_num) (by unfold decLimbs; omega)
  have written : (digits 10 (expansion m.toNat g)).reverse.length ≤ exactDig := by
    rw [length_reverse]
    exact digits_length_le 10 _ 768 (by norm_num) small
  have digit : ∀ d ∈ (digits 10 (expansion m.toNat g)).reverse, d < 10 := fun d mem =>
    digits_lt_base (by norm_num) (mem_reverse.mp mem)
  have filled : digits 10 (expansion m.toNat g) ≠ [] := digits_ne_nil_iff_ne_zero.mpr full.ne'
  have lead : (digits 10 (expansion m.toNat g)).reverse.head? ≠ some 0 := by
    rw [head?_reverse, getLast?_eq_some_getLast filled]
    intro zero
    exact getLast_digit_ne_zero 10 full.ne' (some.inj zero)
  have total : natOf 10 (digits 10 (expansion m.toNat g)).reverse = expansion m.toNat g := by
    rw [nat_of_reverse, ofDigits_digits]
  have point := expansion_value m.toNat g
  simp only [if_neg nonzero, within, if_pos first, bind_eq_bind, bind_some, expansion_limbs g room,
    dec_digits_spec _ full, if_pos written]
  generalize (digits 10 (expansion m.toNat g)).reverse = d at written digit lead total ⊢
  have nonempty : d ≠ [] := by
    intro none
    rw [none] at total
    exact full.ne' total.symm
  obtain ⟨k, split, head, last⟩ := trimmed_spec nonempty lead
  have size : (trimmed d).length + k = d.length := by
    rw [← length_replicate (n := k) (a := 0), ← length_append, ← split]
  have proper : Dec.Proper { d := trimmed d, decexp := (d.length : Int) - 1 - ((-g).toNat : Nat) } := by
    refine ⟨fun e mem => digit e (split ▸ mem_append_left _ mem), ?_, ?_, last⟩
    · intro none
      change trimmed d = [] at none
      rw [none, head?_nil] at head
      exact nonempty (head?_eq_none_iff.mp head.symm)
    · change (trimmed d).head? ≠ some 0
      rw [head]
      exact lead
  have same : Dec.value { d := trimmed d, decexp := (d.length : Int) - 1 - ((-g).toNat : Nat) } = magnitude v := by
    have value : natOf 10 d = natOf 10 (trimmed d) * 10 ^ k := by
      nth_rewrite 1 [split]
      exact nat_of_padded 10 _ k
    rw [number, ← point, ← total, value, Dec.value]
    push_cast
    rw [mul_assoc, ← zpow_natCast, ← zpow_add₀ ten_ne]
    congr 2
    omega
  obtain ⟨low, above⟩ := proper.bounds
  rw [same, number] at low above
  refine ⟨_, rfl, proper, same, ?_, ?_, ?_, ?_⟩
  · change (trimmed d).length ≤ exactDig
    omega
  · change (-1074 : Int) ≤ (d.length : Int) - 1 - ((-g).toNat : Nat) + 1 - (trimmed d).length
    omega
  · have reach := (tiny_reach g some_bits least).trans_lt above
    have ordered := (zpow_lt_zpow_iff_right₀ (by norm_num : (1 : ℚ) < 10)).mp reach
    simp only at ordered ⊢
    omega
  · have below := low.trans_lt (huge_reach g fits high)
    have ordered := (zpow_lt_zpow_iff_right₀ (by norm_num : (1 : ℚ) < 10)).mp below
    simp only at ordered ⊢
    omega

end Spicule.Printf
