import Spicule.Utf.Encode

namespace Spicule.Utf
open List Option Nat Utf8

inductive Errno where
  | eoverflow
  | enomem
  | eilseq
  | erange
deriving DecidableEq

-- size_t arithmetic, 64 bits wide.
def sizeAddChecked (left right : Nat) : Option Nat := if 2 ^ 64 - 1 - left < right then none else some (left + right)

def sizeMulChecked (left right : Nat) : Option Nat :=
  if right ≠ 0 ∧ (2 ^ 64 - 1) / right < left then none else some (left * right)

def utf8ToUtf16Allocation (bytes : Nat) : Option Nat :=
  if (2 ^ 32 - 1) / 2 < bytes then none
  else (sizeAddChecked bytes 1).bind fun units => sizeMulChecked units 2

def utf16InputBytes (units : Nat) : Option Nat :=
  if units ≤ (2 ^ 32 - 1) / 2 then sizeMulChecked units 2 else none

def utf16ToUtf8Capacity (units : Nat) : Option Nat :=
  (utf16InputBytes units).bind fun _ =>
    (sizeMulChecked units 3).bind fun bytes =>
      if 2 ^ 32 - 1 < bytes then none else sizeAddChecked bytes 1

-- The units before the terminating one. malloc says which sizes are to be had.
def utf8ToUtf16 (malloc : Nat → Bool) (s : List UInt8) : Except Errno (List UInt16) :=
  match utf8ToUtf16Allocation s.length with
  | none => .error .eoverflow
  | some allocation =>
    if malloc allocation then
      if ulong s.length = 0 then .ok []
      else
        let r := utf8ToUtf16n (some (ulong (allocation - 2))) s
        if r.failed then .error .eilseq else .ok r.dst
    else .error .enomem

def toInt (n : Nat) : Int := if n < 2 ^ 31 then n else n - 2 ^ 32

def utf16ToUtf8Buf (w : List UInt16) (outsz : Nat) : Option (Except Errno (Int × List UInt8)) :=
  if outsz = 0 then some (.error .erange)
  else if utf16InputBytes w.length = none ∨ 2 ^ 32 - 1 < outsz - 1 then some (.error .eoverflow)
  else if w.length = 0 then some (.ok (0, []))
  else
    (utf16ToUtf8n (some (ulong (outsz - 1))) w).map fun r => if r.failed then .error .erange else .ok (toInt r.written, r.dst)

-- A null pointer comes with the errno set on the way, if one was.
def utf16ToUtf8 (malloc : Nat → Bool) (w : List UInt16) : Option (Except (Option Errno) (List UInt8)) :=
  match utf16ToUtf8Capacity w.length with
  | none => some (.error (some .eoverflow))
  | some cap =>
    if malloc cap then
      (utf16ToUtf8Buf w cap).map fun
        | .error e => .error (some e)
        | .ok (n, bytes) => if n < 0 then .error none else .ok bytes
    else some (.error (some .enomem))

structure BytesConvert (s : List UInt8) : Prop where
  formed : ∀ d < 2 ^ 32, Valid16 (utf8ToUtf16n (some d) s).dst ∧ (utf8ToUtf16n (some d) s).dst.length ≤ s.length
  sized : ∃ units, utf8ToUtf16n (some (utf8ToUtf16n none s).written) s =
    { failed := false, written := (utf8ToUtf16n none s).written, dst := units } ∧ 2 * units.length = (utf8ToUtf16n none s).written
  recovered : Valid8 s → ∀ d < 2 ^ 32, (utf8ToUtf16n (some d) s).failed = false →
    utf16ToUtf8n (some s.length) (utf8ToUtf16n (some d) s).dst = some { failed := false, written := s.length, dst := s }
  fits : ∀ malloc, utf8ToUtf16 malloc s ≠ .error .eilseq

structure UnitsConvert (w : List UInt16) : Prop where
  formed : ∀ d < 2 ^ 32, ∃ r, utf16ToUtf8n (some d) w = some r ∧ Valid8 r.dst ∧ r.dst.length ≤ 3 * w.length
  sized : ∃ n bytes, utf16ToUtf8n none w = some { failed := false, written := n, dst := [] } ∧
    utf16ToUtf8n (some n) w = some { failed := false, written := n, dst := bytes } ∧ bytes.length = n
  recovered : Valid16 w → ∀ d < 2 ^ 32, ∀ r, utf16ToUtf8n (some d) w = some r → r.failed = false →
    utf8ToUtf16n (some (2 * w.length)) r.dst = { failed := false, written := 2 * w.length, dst := w }
  fits : ∀ malloc, (∃ bytes, utf16ToUtf8 malloc w = some (.ok bytes)) ∨ utf16ToUtf8 malloc w = some (.error (some .eoverflow)) ∨
    utf16ToUtf8 malloc w = some (.error (some .enomem))

theorem utf8_to_utf16n_stored {d : Nat} (small : d < 2 ^ 32) (s : List UInt8) :
    utf8ToUtf16n (some d) s = stored 2 utf16EncodeChar d (chars s) [] :=
  to_utf16_stored d small s [] (zero_le d)

variable (s : List UInt8)
theorem utf8_to_utf16n_sized :
    utf8ToUtf16n none s = { failed := false, written := ulong (2 * (utf16 (chars s)).length), dst := [] } := by
  have sized := to_utf16_sized s 0 (by decide)
  rwa [zero_add] at sized

theorem utf16_to_utf8n_stored {d : Nat} {w : List UInt16} (total : (utf8 (chars16 w)).length < 2 ^ 32) :
    utf16ToUtf8n (some d) w = some (stored 1 utf8EncodeChar d (chars16 w) []) :=
  to_utf8_stored d w [] (by simpa using total)

variable (w : List UInt16)
theorem utf16_to_utf8n_sized :
    utf16ToUtf8n none w = some { failed := false, written := ulong (utf8 (chars16 w)).length, dst := [] } := by
  have sized := to_utf8_sized w 0 (by decide)
  rwa [zero_add] at sized

theorem stored_whole {α : Type} (unit : Nat) (enc : Char → List α) (d : Nat) (cs : List Char)
    (room : unit * (cs.flatMap enc).length ≤ d) :
    stored unit enc d cs [] = { failed := false, written := unit * (cs.flatMap enc).length, dst := cs.flatMap enc } := by
  rw [stored, store_whole unit enc d cs [] (by simpa using room), nil_append]

theorem stored_done {α : Type} (unit : Nat) (enc : Char → List α) (d : Nat) (cs : List Char)
    (ended : (stored unit enc d cs []).failed = false) :
    (stored unit enc d cs []).dst = cs.flatMap enc ∧ unit * (cs.flatMap enc).length ≤ d := by
  have done := store_done unit enc d cs [] (by simp) ended
  rwa [nil_append] at done

variable (n : Nat)
theorem allocation_spec : utf8ToUtf16Allocation n = if n < 2 ^ 31 then some (2 * n + 2) else none := by
  unfold utf8ToUtf16Allocation
  by_cases small : n < 2 ^ 31
  · rw [if_neg (by omega), if_pos small, sizeAddChecked, if_neg (by omega), bind_some, sizeMulChecked, if_neg (by omega)]
    congr 1
    omega
  · rw [if_pos (by omega), if_neg small]

theorem input_bytes_spec (small : 2 * n < 2 ^ 32) : utf16InputBytes n = some (n * 2) := by
  rw [utf16InputBytes, if_pos (by omega), sizeMulChecked, if_neg (by omega)]

theorem capacity_spec (small : 2 * n < 2 ^ 32) :
    utf16ToUtf8Capacity n = if 3 * n < 2 ^ 32 then some (3 * n + 1) else none := by
  rw [utf16ToUtf8Capacity, input_bytes_spec n small, bind_some, sizeMulChecked, if_neg (by omega), bind_some]
  by_cases fits : 3 * n < 2 ^ 32
  · rw [if_neg (by omega), if_pos fits, sizeAddChecked, if_neg (by omega), mul_comm n 3]
  · rw [if_pos (by omega), if_neg fits]

theorem to_int_nonneg (small : n < 2 ^ 32) : toInt n < 0 ↔ 2 ^ 31 ≤ n := by
  unfold toInt
  split <;> omega

variable (malloc : Nat → Bool)
theorem utf8_to_utf16_fits (s : List UInt8) : utf8ToUtf16 malloc s ≠ .error .eilseq := by
  unfold utf8ToUtf16
  rw [allocation_spec]
  by_cases small : s.length < 2 ^ 31
  · rw [if_pos small]
    simp only [Nat.add_sub_cancel]
    have room : ulong (2 * s.length) = 2 * s.length := mod_eq_of_lt (by omega)
    have shorter := chars_length s
    have whole := stored_whole 2 utf16EncodeChar (2 * s.length) (chars s) (Nat.mul_le_mul_left 2 shorter)
    rw [room, utf8_to_utf16n_stored (by omega) s, whole, if_neg Bool.false_ne_true]
    repeat' split
    all_goals simp
  · rw [if_neg small]
    simp

theorem utf16_to_utf8_spec {w : List UInt16} (long : 2 * w.length < 2 ^ 32) :
    utf16ToUtf8 malloc w = some (
      if 3 * w.length < 2 ^ 32 then
        if malloc (3 * w.length + 1) then
          if (utf8 (chars16 w)).length < 2 ^ 31 then .ok (utf8 (chars16 w)) else .error none
        else .error (some .enomem)
      else .error (some .eoverflow)) := by
  rw [utf16ToUtf8, capacity_spec _ long]
  by_cases fits : 3 * w.length < 2 ^ 32
  · rw [if_pos fits, if_pos fits]
    simp only
    cases malloc (3 * w.length + 1) with
    | false => rfl
    | true =>
      have shorter := chars16_length w
      have size : ulong (3 * w.length + 1 - 1) = 3 * w.length := by
        rw [Nat.add_sub_cancel, ulong, mod_eq_of_lt fits]
      have whole := stored_whole 1 utf8EncodeChar (3 * w.length) (chars16 w) (by rw [one_mul]; exact shorter)
      have sign := to_int_nonneg (utf8 (chars16 w)).length (by omega)
      rw [if_pos rfl, if_pos rfl, utf16ToUtf8Buf, if_neg (succ_ne_zero _), if_neg (by
        rw [input_bytes_spec _ long]
        simp only [reduceCtorEq, false_or]
        omega)]
      by_cases empty : w.length = 0
      · obtain rfl := eq_nil_of_length_eq_zero empty
        rw [if_pos empty, chars16_nil]
        rfl
      · rw [if_neg empty, size, utf16_to_utf8n_stored (by omega), whole]
        simp only [map_some, one_mul]
        have same : (chars16 w).flatMap utf8EncodeChar = utf8 (chars16 w) := rfl
        rw [same, if_neg Bool.false_ne_true]
        simp only
        by_cases large : 2 ^ 31 ≤ (utf8 (chars16 w)).length
        · rw [if_pos (sign.mpr large), if_neg (by omega)]
        · rw [if_neg (mt sign.mp large), if_pos (by omega)]
  · rw [if_neg fits, if_neg fits]

theorem bytes_convert_of_countable (long : s.length < 2 ^ 32) (countable : (utf16 (chars s)).length < 2 ^ 31) :
    BytesConvert s where
  formed := by
    intro d small
    obtain ⟨taken, start, same⟩ := store_start 2 utf16EncodeChar d (chars s) []
    have shorter := chars_length s
    have part : (utf16 taken).length ≤ (utf16 (chars s)).length := by
      obtain ⟨rest, split⟩ := start
      rw [← split, utf16, utf16, flatMap_append, length_append]
      exact le_add_right _ _
    rw [utf8_to_utf16n_stored small s, stored]
    simp only [same, nil_append]
    exact ⟨⟨taken, rfl⟩, part.trans shorter⟩
  sized := by
    have size : ulong (2 * (utf16 (chars s)).length) = 2 * (utf16 (chars s)).length := mod_eq_of_lt (by omega)
    have bound : 2 * (utf16 (chars s)).length < 2 ^ 32 := by omega
    rw [utf8_to_utf16n_sized, size, utf8_to_utf16n_stored bound s]
    exact ⟨utf16 (chars s), stored_whole 2 utf16EncodeChar _ (chars s) (le_refl _), rfl⟩
  recovered := by
    rintro ⟨cs, rfl⟩ d small ended
    rw [utf8_to_utf16n_stored small, chars_utf8] at ended ⊢
    obtain ⟨whole, _⟩ := stored_done 2 utf16EncodeChar d cs ended
    have back : chars16 (cs.flatMap utf16EncodeChar) = cs := chars16_utf16 cs
    rw [whole, utf16_to_utf8n_stored (by rw [back]; exact long), back,
      stored_whole 1 utf8EncodeChar _ cs (by rw [one_mul]; exact le_refl _), one_mul]
    rfl
  fits := fun malloc => utf8_to_utf16_fits malloc s

theorem countable_of_bytes_convert (converts : BytesConvert s) : (utf16 (chars s)).length < 2 ^ 31 := by
  obtain ⟨units, written, _⟩ := converts.sized
  have bound : (utf8ToUtf16n none s).written < 2 ^ 32 := by
    rw [utf8_to_utf16n_sized]
    exact mod_lt _ (by decide)
  rw [utf8_to_utf16n_stored bound s] at written
  obtain ⟨_, room⟩ := stored_done 2 utf16EncodeChar _ (chars s) (by rw [written])
  have same : (chars s).flatMap utf16EncodeChar = utf16 (chars s) := rfl
  rw [same] at room
  omega

theorem units_convert_of_countable (long : 2 * w.length < 2 ^ 32)
    (countable : (utf8 (chars16 w)).length < 2 ^ 31 ∨ (utf8 (chars16 w)).length < 2 ^ 32 ∧ 2 ^ 32 ≤ 3 * w.length) :
    UnitsConvert w where
  formed := by
    intro d _
    obtain ⟨taken, start, same⟩ := store_start 1 utf8EncodeChar d (chars16 w) []
    have shorter := chars16_length w
    have part : (utf8 taken).length ≤ (utf8 (chars16 w)).length := by
      obtain ⟨rest, split⟩ := start
      rw [← split, utf8, utf8, flatMap_append, length_append]
      exact le_add_right _ _
    refine ⟨_, utf16_to_utf8n_stored (by omega), ?_⟩
    simp only [stored, same, nil_append]
    exact ⟨⟨taken, rfl⟩, part.trans shorter⟩
  sized := by
    have size : ulong (utf8 (chars16 w)).length = (utf8 (chars16 w)).length := mod_eq_of_lt (by omega)
    have whole := stored_whole 1 utf8EncodeChar (utf8 (chars16 w)).length (chars16 w) (by rw [one_mul]; exact le_refl _)
    rw [one_mul] at whole
    refine ⟨(utf8 (chars16 w)).length, utf8 (chars16 w), ?_, ?_, rfl⟩
    · rw [utf16_to_utf8n_sized, size]
    · rw [utf16_to_utf8n_stored (by omega), whole]
      rfl
  recovered := by
    rintro ⟨cs, rfl⟩ d small r ran ended
    rw [chars16_utf16] at countable
    rw [utf16_to_utf8n_stored (by rw [chars16_utf16]; omega), chars16_utf16, some.injEq] at ran
    rw [← ran] at ended ⊢
    obtain ⟨whole, _⟩ := stored_done 1 utf8EncodeChar d cs ended
    have back : chars (cs.flatMap utf8EncodeChar) = cs := chars_utf8 cs
    rw [whole, utf8_to_utf16n_stored long, back]
    exact stored_whole 2 utf16EncodeChar _ cs (le_refl _)
  fits := by
    intro malloc
    rw [utf16_to_utf8_spec malloc long]
    by_cases fits : 3 * w.length < 2 ^ 32
    · rw [if_pos fits]
      cases malloc (3 * w.length + 1) with
      | false => exact Or.inr (Or.inr rfl)
      | true =>
        rw [if_pos rfl, if_pos (by omega)]
        exact Or.inl ⟨_, rfl⟩
    · rw [if_neg fits]
      exact Or.inr (Or.inl rfl)

theorem countable_of_units_convert (long : 2 * w.length < 2 ^ 32) (converts : UnitsConvert w) :
    (utf8 (chars16 w)).length < 2 ^ 31 ∨ (utf8 (chars16 w)).length < 2 ^ 32 ∧ 2 ^ 32 ≤ 3 * w.length := by
  obtain ⟨n, bytes, measured, written, _⟩ := converts.sized
  rw [utf16_to_utf8n_sized, some.injEq] at measured
  have count : ulong (utf8 (chars16 w)).length = n := congrArg Conversion.written measured
  have bound : n < 2 ^ 32 := count ▸ mod_lt _ (by decide)
  have room := to_utf8_whole n w [] (zero_le n) _ bound written rfl
  rw [length_nil, zero_add] at room
  have given := converts.fits fun _ => true
  rw [utf16_to_utf8_spec _ long, if_pos rfl] at given
  by_contra outside
  rw [if_pos (by omega), if_neg (by omega)] at given
  simp at given

-- The conversions are right as long as the unit count is a ULONG of bytes and the byte
-- count an int.
theorem conversions_iff_countable (s : List UInt8) (w : List UInt16) (srcbytes : s.length < 2 ^ 32) (srcbytes16 : 2 * w.length < 2 ^ 32) :
    BytesConvert s ∧ UnitsConvert w ↔
      (utf16 (chars s)).length < 2 ^ 31 ∧
        ((utf8 (chars16 w)).length < 2 ^ 31 ∨ (utf8 (chars16 w)).length < 2 ^ 32 ∧ 2 ^ 32 ≤ 3 * w.length) := by
  constructor
  · rintro ⟨bytes, units⟩
    exact ⟨countable_of_bytes_convert s bytes, countable_of_units_convert w srcbytes16 units⟩
  · rintro ⟨bytes, units⟩
    exact ⟨bytes_convert_of_countable s srcbytes bytes, units_convert_of_countable w srcbytes16 units⟩

-- "Aé€😀" with two stray bytes behind it, and as units with a stray surrogate.
def mixedBytes : List UInt8 := [0x41, 0xc3, 0xa9, 0xe2, 0x82, 0xac, 0xf0, 0x9f, 0x98, 0x80, 0xff, 0xe0]

def mixedUnits : List UInt16 := [0x41, 0xe9, 0x20ac, 0xd83d, 0xde00, 0xdc00]

theorem conversions_iff_countable_mixed : BytesConvert mixedBytes ∧ UnitsConvert mixedUnits :=
  (conversions_iff_countable mixedBytes mixedUnits (by decide) (by decide)).mpr
    ⟨(chars_length _).trans_lt (by decide), Or.inl ((chars16_length _).trans_lt (by decide))⟩

theorem utf16_replicate (c : Char) (u : UInt16) (single : utf16EncodeChar c = [u]) (n : Nat) :
    utf16 (List.replicate n c) = List.replicate n u := by
  induction n with
  | zero => rfl
  | succ n ih => rw [replicate_succ, utf16_cons, single, ih, replicate_succ, singleton_append]

theorem utf8_replicate_length (c : Char) (n : Nat) :
    (utf8 (List.replicate n c)).length = n * (utf8EncodeChar c).length := by
  induction n with
  | zero => simp
  | succ n ih => rw [replicate_succ, utf8_cons, length_append, ih, succ_mul, add_comm]

-- U+4E2D, three bytes, as often as the byte count is no int.
theorem wide_text_lost (long : 2 ^ 31 ≤ 3 * n) (small : 3 * n < 2 ^ 32) :
    utf16ToUtf8 (fun _ => true) (List.replicate n 0x4E2D) = some (.error none) := by
  have text := utf16_replicate (Char.ofNat 0x4E2D) 0x4E2D rfl n
  have size := utf8_replicate_length (Char.ofNat 0x4E2D) n
  have three : (utf8EncodeChar (Char.ofNat 0x4E2D)).length = 3 := rfl
  rw [← text, utf16_to_utf8_spec _ (by rw [text, length_replicate]; omega), chars16_utf16, size, three, text,
    length_replicate, if_pos small, if_pos rfl, if_neg (by omega)]

theorem utf16_to_utf8_three_gigabytes :
    utf16ToUtf8 (fun _ => true) (List.replicate (2 ^ 30) 0x4E2D) = some (.error none) :=
  wide_text_lost _ (by decide) (by decide)

end Spicule.Utf
