import Spicule.Utf.Convert

namespace Spicule.Utf
open List Option Nat UInt8 Utf8

def nextUnit (u : UInt16) (src : List UInt16) : Nat × List UInt16 :=
  let cp := u.toNat
  if 0xD800 ≤ cp ∧ cp ≤ 0xDBFF then
    match src with
    | low :: rest =>
      if 0xDC00 ≤ low.toNat ∧ low.toNat ≤ 0xDFFF then (0x10000 + ((cp - 0xD800) <<< 10) + (low.toNat - 0xDC00), rest)
      else (utfReplacement, low :: rest)
    | [] => (utfReplacement, [])
  else if 0xDC00 ≤ cp ∧ cp ≤ 0xDFFF then (utfReplacement, src)
  else (cp, src)

def bytesOf (cp : Nat) : List UInt8 :=
  if cp < 0x80 then [ofNat cp]
  else if cp < 0x800 then [ofNat (0xc0 ||| cp >>> 6), ofNat (0x80 ||| (cp &&& 0x3f))]
  else if cp < 0x10000 then
    [ofNat (0xe0 ||| cp >>> 12), ofNat (0x80 ||| (cp >>> 6 &&& 0x3f)), ofNat (0x80 ||| (cp &&& 0x3f))]
  else
    [ofNat (0xf0 ||| cp >>> 18), ofNat (0x80 ||| (cp >>> 12 &&& 0x3f)), ofNat (0x80 ||| (cp >>> 6 &&& 0x3f)),
      ofNat (0x80 ||| (cp &&& 0x3f))]

variable (u : UInt16) (src : List UInt16)
theorem next_unit_length : (nextUnit u src).2.length ≤ src.length := by
  unfold nextUnit
  simp only
  split
  · split
    · split
      · exact le_succ _
      · exact le_refl _
    · exact le_refl _
  · split <;> exact le_refl _

-- Every sum is a ULONG; none is a write past the end of dst.
def toUtf8 (dst : Option Nat) : List UInt16 → Nat → List UInt8 → Option (Conversion UInt8)
  | [], out, bytes => some { failed := false, written := out, dst := bytes }
  | u :: src, out, bytes =>
    let buf := bytesOf (nextUnit u src).1
    if dst.any (· < ulong (out + buf.length)) then some { failed := true, written := out, dst := bytes }
    else if dst.any (· < out + buf.length) then none
    else toUtf8 dst (nextUnit u src).2 (ulong (out + buf.length)) (if dst.isSome then bytes ++ buf else bytes)
termination_by src => src.length
decreasing_by
  have shorter := next_unit_length u src
  simp only [length_cons]
  omega

def utf16ToUtf8n (dst : Option Nat) (src : List UInt16) : Option (Conversion UInt8) := toUtf8 dst src 0 []

def codePoints16 : List UInt16 → List Nat
  | [] => []
  | u :: src => (nextUnit u src).1 :: codePoints16 (nextUnit u src).2
termination_by src => src.length
decreasing_by
  have shorter := next_unit_length u src
  simp only [length_cons]
  omega

def chars16 (w : List UInt16) : List Char := (codePoints16 w).map Char.ofNat

theorem or_mark (mark n shift : Nat) (small : n < 2 ^ shift) : (mark <<< shift ||| n) = mark * 2 ^ shift + n := by
  rw [← shiftLeft_add_eq_or_of_lt small, shiftLeft_eq]

theorem six_bits (n : Nat) : 0x80 ||| (n &&& 0x3f) = 0x80 + n % 0x40 := by
  have bits : n &&& 0x3f = n % 0x40 := and_two_pow_sub_one_eq_mod n 6
  have marked := or_mark 2 (n % 0x40) 6 (mod_lt _ (by decide))
  rw [bits]
  exact marked

variable (c : Char)
theorem bytes_of_char : bytesOf c.toNat = utf8EncodeChar c := by
  have valid := char_valid c
  unfold bytesOf utf8EncodeChar
  simp only [Char.toNat_val, six_bits, shiftRight_eq_div_pow]
  generalize c.toNat = v at valid
  by_cases one : v < 0x80
  · rw [if_pos one, if_pos (by omega)]
  · rw [if_neg one, if_neg (by omega : ¬v ≤ 127)]
    by_cases two : v < 0x800
    · have lead : 0xc0 ||| v / 2 ^ 6 = v / 64 % 32 + 192 := by
        have marked := or_mark 6 (v / 64) 5 (by omega)
        rw [mod_eq_of_lt (by omega), add_comm]
        exact marked
      rw [if_pos two, if_pos (by omega), lead, add_comm 0x80]
    · rw [if_neg two, if_neg (by omega : ¬v ≤ 2047)]
      by_cases three : v < 0x10000
      · have lead : 0xe0 ||| v / 2 ^ 12 = v / 4096 % 16 + 224 := by
          have marked := or_mark 14 (v / 4096) 4 (by omega)
          rw [mod_eq_of_lt (by omega), add_comm]
          exact marked
        rw [if_pos three, if_pos (by omega), lead, add_comm 0x80, add_comm 0x80]
      · have lead : 0xf0 ||| v / 2 ^ 18 = v / 262144 % 8 + 240 := by
          have marked := or_mark 30 (v / 262144) 3 (by omega)
          rw [mod_eq_of_lt (by omega), add_comm]
          exact marked
        rw [if_neg three, if_neg (by omega), lead, add_comm 0x80, add_comm 0x80, add_comm 0x80]

theorem unit_of_nat (n : Nat) (same : n = u.toNat) : UInt16.ofNat n = u := by
  rw [same, UInt16.ofNat_toNat]

theorem next_unit_step : ∃ taken c, u :: src = taken ++ (nextUnit u src).2 ∧ (nextUnit u src).1 = c.toNat ∧
      (taken = utf16EncodeChar c ∨ c = replacement ∧ taken.length = 1) := by
  have small := UInt16.toNat_lt u
  have lone : ∃ taken c, u :: src = taken ++ src ∧ utfReplacement = c.toNat ∧
      (taken = utf16EncodeChar c ∨ c = replacement ∧ taken.length = 1) := ⟨[u], replacement, rfl, rfl, Or.inr ⟨rfl, rfl⟩⟩
  unfold nextUnit
  simp only
  by_cases high : 0xD800 ≤ u.toNat ∧ u.toNat ≤ 0xDBFF
  · rw [if_pos high]
    cases src with
    | nil => exact lone
    | cons low rest =>
      by_cases pair : 0xDC00 ≤ low.toNat ∧ low.toNat ≤ 0xDFFF
      · simp only [pair, and_self, if_true]
        obtain ⟨c, number⟩ := char_of_nat (0x10000 + ((u.toNat - 0xD800) <<< 10) + (low.toNat - 0xDC00)) (by
          rw [shiftLeft_eq]
          omega)
        refine ⟨[u, low], c, rfl, number.symm, Or.inl ?_⟩
        rw [shiftLeft_eq] at number
        rw [utf16EncodeChar, number, if_neg (by omega), unit_of_nat u _ (by omega), unit_of_nat low _ (by omega)]
      · simp only [pair, if_false]
        exact lone
  · rw [if_neg high]
    by_cases low : 0xDC00 ≤ u.toNat ∧ u.toNat ≤ 0xDFFF
    · rw [if_pos low]
      exact lone
    · rw [if_neg low]
      obtain ⟨c, number⟩ := char_of_nat u.toNat (by omega)
      refine ⟨[u], c, rfl, number.symm, Or.inl ?_⟩
      rw [utf16EncodeChar, number, if_pos (by omega), UInt16.ofNat_toNat]

theorem chars16_nil : chars16 [] = [] := by
  rw [chars16, codePoints16, map_nil]

theorem chars16_cons (number : (nextUnit u src).1 = c.toNat) :
    chars16 (u :: src) = c :: chars16 (nextUnit u src).2 := by
  rw [chars16, codePoints16, map_cons, number, Char.ofNat_toNat, chars16]

theorem chars16_length (w : List UInt16) : (utf8 (chars16 w)).length ≤ 3 * w.length := by
  induction w using codePoints16.induct with
  | case1 => simp [chars16_nil]
  | case2 u src ih =>
    obtain ⟨taken, c, split, number, shape⟩ := next_unit_step u src
    have whole := congrArg List.length split
    have short : (utf8EncodeChar c).length ≤ 3 * taken.length := by
      rcases shape with same | ⟨same, one⟩
      · rw [same]
        exact utf8_length_le c
      · rw [same, one]
        decide
    rw [length_append] at whole
    rw [chars16_cons u src c number, utf8_cons, length_append, whole]
    omega

theorem surrogate_units :
    (UInt16.ofNat (0xD800 + (c.toNat - 0x10000) / 0x400)).toNat = 0xD800 + (c.toNat - 0x10000) / 0x400 ∧
      (UInt16.ofNat (0xDC00 + (c.toNat - 0x10000) % 0x400)).toNat = 0xDC00 + (c.toNat - 0x10000) % 0x400 := by
  have valid := char_valid c
  constructor <;> rw [UInt16.toNat_ofNat', mod_eq_of_lt (by omega)]

theorem next_unit_char (u : UInt16) (tail rest : List UInt16) (spelled : utf16EncodeChar c = u :: tail) :
    nextUnit u (tail ++ rest) = (c.toNat, rest) := by
  have valid := char_valid c
  unfold utf16EncodeChar at spelled
  by_cases single : c.toNat < 0x10000
  · rw [if_pos single, List.cons.injEq] at spelled
    obtain ⟨rfl, rfl⟩ := spelled
    have back : (UInt16.ofNat c.toNat).toNat = c.toNat := by
      rw [UInt16.toNat_ofNat', mod_eq_of_lt single]
    unfold nextUnit
    simp only [back]
    rw [if_neg (by omega), if_neg (by omega)]
    rfl
  · rw [if_neg single, List.cons.injEq] at spelled
    obtain ⟨rfl, rfl⟩ := spelled
    obtain ⟨high, low⟩ := surrogate_units c
    unfold nextUnit
    simp only [high, low, cons_append, nil_append, shiftLeft_eq]
    rw [if_pos (by omega), if_pos (by omega), Prod.mk.injEq]
    exact ⟨by omega, rfl⟩

theorem chars16_utf16 (cs : List Char) : chars16 (utf16 cs) = cs := by
  induction cs with
  | nil => exact chars16_nil
  | cons c cs ih =>
    rw [utf16_cons]
    cases spelled : utf16EncodeChar c with
    | nil =>
      have some_unit := utf16_nonempty c
      rw [spelled] at some_unit
      cases some_unit
    | cons u tail =>
      have next := next_unit_char c u tail (utf16 cs) spelled
      rw [cons_append, chars16_cons u _ c (by rw [next]), next, ih]

theorem next_code_point_char (lead : UInt8) (tails rest : List UInt8)
    (spelled : utf8EncodeChar c = lead :: tails) : nextCodePoint lead (tails ++ rest) = (c.toNat, rest) := by
  obtain ⟨tails', rest', split, all, after, taken⟩ := next_code_point_step lead (tails ++ rest)
  generalize cp_is : (nextCodePoint lead (tails ++ rest)).1 = cp at taken
  cases taken with
  | char c' spelled' =>
    have both : utf8EncodeChar c ++ rest = utf8EncodeChar c' ++ rest' := by
      rw [spelled, spelled', cons_append, cons_append, split]
    obtain ⟨rfl, rfl⟩ := encode_unique c both
    exact Prod.ext cp_is after
  | broken none _ _ =>
    refine absurd ?_ (none c)
    rw [← split, spelled]
    exact cons_prefix_cons.mpr ⟨rfl, prefix_append _ _⟩
  | refused b second bad =>
    obtain ⟨lead', run, spelled', starts, follow, _⟩ := encode_spells c
    rw [spelled, List.cons.injEq] at spelled'
    obtain ⟨rfl, rfl⟩ := spelled'
    cases tails with
    | nil =>
      have range := (announced_iff lead 0).mp starts
      have long := bad.1
      omega
    | cons a tails =>
      cases tails' with
      | nil => cases second
      | cons b' tails' =>
        rw [cons_append, cons_append, List.cons.injEq] at split
        rw [head?_cons, mem_some_iff] at second
        refine absurd ⟨by rw [starts]; rfl, ?_⟩ bad.2.2
        rw [← second, ← split.1]
        exact follow.1

theorem chars_utf8 (cs : List Char) : chars (utf8 cs) = cs := by
  induction cs with
  | nil => exact chars_nil
  | cons c cs ih =>
    obtain ⟨lead, tails, spelled, _⟩ := encode_spells c
    have next := next_code_point_char c lead tails (utf8 cs) spelled
    rw [utf8_cons, spelled, cons_append, chars, codePoints, next, map_cons, Char.ofNat_toNat]
    exact congrArg _ ih

theorem to_utf8_cons (dst : Option Nat) (u : UInt16) (src : List UInt16) (out : Nat) (bytes : List UInt8) (c : Char)
    (number : (nextUnit u src).1 = c.toNat) :
    toUtf8 dst (u :: src) out bytes =
      if dst.any (· < ulong (out + (utf8EncodeChar c).length)) then some { failed := true, written := out, dst := bytes }
      else if dst.any (· < out + (utf8EncodeChar c).length) then none
      else toUtf8 dst (nextUnit u src).2 (ulong (out + (utf8EncodeChar c).length))
        (if dst.isSome then bytes ++ utf8EncodeChar c else bytes) := by
  rw [toUtf8, number, bytes_of_char]

theorem to_utf8_stored (d : Nat) (w : List UInt16) (bytes : List UInt8) (total : bytes.length + (utf8 (chars16 w)).length < 2 ^ 32) :
    toUtf8 (some d) w bytes.length bytes = some (stored 1 utf8EncodeChar d (chars16 w) bytes) := by
  induction w using codePoints16.induct generalizing bytes with
  | case1 => rw [toUtf8, chars16_nil, stored, store, Nat.one_mul]
  | case2 u src ih =>
    obtain ⟨_, c, _, number, _⟩ := next_unit_step u src
    have split := chars16_cons u src c number
    rw [split, utf8_cons, length_append] at total
    have whole : ulong (bytes.length + (utf8EncodeChar c).length) = (bytes ++ utf8EncodeChar c).length := by
      rw [ulong, length_append, mod_eq_of_lt (by omega)]
    rw [to_utf8_cons (some d) u src _ bytes c number, split, stored, store, whole, Nat.one_mul, length_append]
    by_cases full : d < bytes.length + (utf8EncodeChar c).length
    · simp only [any_some, decide_eq_true_eq, full, if_true, Nat.one_mul]
    · simp only [any_some, decide_eq_true_eq, full, if_false, isSome_some, if_true]
      have rest := ih (bytes ++ utf8EncodeChar c) (by rw [length_append]; omega)
      rw [length_append] at rest
      exact rest

theorem to_utf8_sized (w : List UInt16) (out : Nat) (small : out < 2 ^ 32) :
    toUtf8 none w out [] = some { failed := false, written := ulong (out + (utf8 (chars16 w)).length), dst := [] } := by
  induction w using codePoints16.induct generalizing out with
  | case1 => rw [toUtf8, chars16_nil, utf8_nil, ulong, length_nil, add_zero, mod_eq_of_lt small]
  | case2 u src ih =>
    obtain ⟨_, c, _, number, _⟩ := next_unit_step u src
    have sum : ulong (ulong (out + (utf8EncodeChar c).length) + (utf8 (chars16 (nextUnit u src).2)).length) =
        ulong (out + (utf8 (c :: chars16 (nextUnit u src).2)).length) := by
      rw [utf8_cons, length_append, ulong, ulong, ulong, mod_add_mod, add_assoc]
    rw [to_utf8_cons none u src out [] c number, chars16_cons u src c number, ← sum]
    exact ih _ (mod_lt _ (by decide))

theorem to_utf8_whole (d : Nat) (w : List UInt16) (bytes : List UInt8) (inside : bytes.length ≤ d) (r : Conversion UInt8) (small : d < 2 ^ 32)
    (ran : toUtf8 (some d) w bytes.length bytes = some r) (ended : r.failed = false) :
    bytes.length + (utf8 (chars16 w)).length ≤ d := by
  induction w using codePoints16.induct generalizing bytes with
  | case1 => simpa [chars16_nil] using inside
  | case2 u src ih =>
    obtain ⟨_, c, _, number, _⟩ := next_unit_step u src
    rw [to_utf8_cons (some d) u src _ bytes c number] at ran
    split at ran
    · cases ran
      cases ended
    · split at ran
      · cases ran
      · rename_i room
        simp only [any_some, decide_eq_true_eq, not_lt] at room
        rw [ulong, mod_eq_of_lt (by omega), isSome_some, if_pos rfl, ← length_append] at ran
        have rest := ih (bytes ++ utf8EncodeChar c) (by rw [length_append]; exact room) ran
        rw [chars16_cons u src c number, utf8_cons, length_append]
        rw [length_append] at rest
        omega

end Spicule.Utf
