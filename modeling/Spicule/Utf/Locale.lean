import Spicule.Utf.Chunks
import Spicule.Utf.Wrappers

namespace Spicule.Utf
open List Option UInt8 Utf8 Bool Nat

-- What is returned, none for (size_t)-1, what is converted, and *src, none for null.
structure Converted (α β : Type) where
  ret : Option Nat
  out : List β
  src : Option (List α)

-- ws is the number of units to be had, none for a null pointer; s is memory from
-- *src on, of which mbrtowc may look at four bytes.
def mbsrtowcs (ws : Option Nat) : Nat → Mbstate → List UInt8 → List UInt16 → Option (Converted UInt8 UInt16)
  | 0, _, _, _ => none
  | fuel + 1, st, s, out =>
    if ws.any (· ≤ out.length) then some { ret := some out.length, out, src := some s }
    else
      let r := mbrtowc (s.take 4) st
      let wc := r.wc.getD 0
      match r.ret with
      | .ilseq => some { ret := none, out, src := some s }
      | .incomplete => some { ret := none, out, src := some s }
      | .fromState =>
        if wc = 0 then some { ret := some out.length, out, src := none } else mbsrtowcs ws fuel r.st s (out ++ [wc])
      | .used n =>
        if wc = 0 then some { ret := some out.length, out, src := none } else mbsrtowcs ws fuel r.st (s.drop n) (out ++ [wc])

def SurrHi (c : Nat) : Prop := 0xd800 ≤ c ∧ c < 0xdc00

def SurrLo (c : Nat) : Prop := 0xdc00 ≤ c ∧ c < 0xe000

instance (c : Nat) : Decidable (SurrHi c) := inferInstanceAs (Decidable (_ ∧ _))

instance (c : Nat) : Decidable (SurrLo c) := inferInstanceAs (Decidable (_ ∧ _))

def wcrtomb (wc : UInt16) (opaque1 : Nat) : Option (List UInt8) × Nat :=
  let c := wc.toNat
  if opaque1 ≠ 0 then
    if ¬SurrLo c then (none, 0)
    else
      let cp := 0x10000 + ((opaque1 - 0xd800) <<< 10) + (c - 0xdc00)
      (some [ofNat (0xf0 ||| cp >>> 18), ofNat (0x80 ||| (cp >>> 12 &&& 0x3f)), ofNat (0x80 ||| (cp >>> 6 &&& 0x3f)),
        ofNat (0x80 ||| (cp &&& 0x3f))], 0)
  else if SurrHi c then (some [], c)
  else if SurrLo c then (none, 0)
  else if c < 0x80 then (some [ofNat c], 0)
  else if c < 0x800 then (some [ofNat (0xc0 ||| c >>> 6), ofNat (0x80 ||| (c &&& 0x3f))], 0)
  else
    (some [ofNat (0xe0 ||| c >>> 12), ofNat (0x80 ||| (c >>> 6 &&& 0x3f)), ofNat (0x80 ||| (c &&& 0x3f))], 0)

-- s is the number of bytes to be had, none for a null pointer. A high surrogate is read
-- with the unit after it; none is a read past the end.
def wcsrtombs (s : Option Nat) : Nat → List UInt16 → List UInt8 → Option (Converted UInt16 UInt8)
  | _, [], _ => none
  | opaque1, u :: ws, out =>
    if SurrHi u.toNat then
      match ws with
      | [] => none
      | v :: ws =>
        if SurrLo v.toNat then
          if s.any (· < out.length + 4) then some { ret := some out.length, out, src := some (u :: v :: ws) }
          else
            match wcrtomb u opaque1 with
            | (none, _) => some { ret := none, out, src := some (u :: v :: ws) }
            | (some _, opaque1) =>
              match wcrtomb v opaque1 with
              | (none, _) => some { ret := none, out, src := some (u :: v :: ws) }
              | (some buf, opaque1) => wcsrtombs s opaque1 ws (out ++ buf)
        else some { ret := none, out, src := some (u :: v :: ws) }
    else
      match wcrtomb u opaque1 with
      | (none, _) => some { ret := none, out, src := some (u :: ws) }
      | (some buf, opaque1) =>
        if buf.length = 0 then some { ret := none, out, src := some (u :: ws) }
        else if s.any (· < out.length + buf.length) then some { ret := some out.length, out, src := some (u :: ws) }
        else if u = 0 then some { ret := some out.length, out, src := none }
        else wcsrtombs s opaque1 ws (out ++ buf)

theorem unreached {limit : Option Nat} {full : Nat → Bool} (room : ∀ n ∈ limit, full n = false) : limit.any full = false := by
  cases limit with
  | none => rfl
  | some n => exact room n rfl

variable (c : Char) (rest : List UInt8)
theorem mbrtowc_char : mbrtowc (utf8EncodeChar c ++ rest) .init = delivered c := by
  have read := mbrtowc_read (utf8EncodeChar c ++ rest)
  obtain ⟨lead, tails, spelled, starts, _, _⟩ := encode_spells c
  generalize whole : utf8EncodeChar c ++ rest = s at read
  generalize mbrtowc s .init = answer at read
  cases read with
  | empty =>
    rw [spelled] at whole
    cases whole
  | char c' rest' =>
    rw [(encode_unique c whole).1]
  | pending lead' tails' n starts' short kept =>
    rw [spelled, cons_append, List.cons.injEq] at whole
    obtain ⟨rfl, rfl⟩ := whole
    rw [starts, some.injEq] at starts'
    rw [length_append] at short
    omega
  | refused lead' p none dead =>
    refine absurd ?_ (none c)
    rw [← whole]
    exact prefix_append _ _

theorem encode_length : 1 ≤ (utf8EncodeChar c).length ∧ (utf8EncodeChar c).length ≤ 4 := by
  obtain ⟨lead, tails, spelled, starts, _, _⟩ := encode_spells c
  have most := announced_le lead _ starts
  rw [spelled, length_cons]
  omega

theorem window_char : mbrtowc ((utf8EncodeChar c ++ rest).take 4) .init = delivered c := by
  have most := (encode_length c).2
  rw [take_append, take_of_length_le most]
  exact mbrtowc_char c _

theorem units_nonzero (nonzero : c.toNat ≠ 0) : ∀ u ∈ utf16EncodeChar c, u ≠ 0 := by
  have valid := char_valid c
  have zero : (0 : UInt16).toNat = 0 := rfl
  intro u mem same
  unfold utf16EncodeChar at mem
  split at mem
  · rw [mem_singleton] at mem
    rw [← UInt16.toNat_inj, mem, UInt16.toNat_ofNat', zero] at same
    omega
  · rw [mem_cons, mem_singleton] at mem
    rcases mem with mem | mem
    all_goals
      rw [← UInt16.toNat_inj, mem, UInt16.toNat_ofNat', zero] at same
      omega

variable (ws : Option Nat) (fuel : Nat)
theorem mbsrtowcs_char (c : Char) (nonzero : c.toNat ≠ 0) (rest : List UInt8) (out : List UInt16)
    (room : ∀ n ∈ ws, out.length + (utf16EncodeChar c).length ≤ n) :
    mbsrtowcs ws (fuel + (utf16EncodeChar c).length) .init (utf8EncodeChar c ++ rest) out =
      mbsrtowcs ws fuel .init rest (out ++ utf16EncodeChar c) := by
  have nonzero_units := units_nonzero c nonzero
  have answer := window_char c rest
  have open_end (more : List UInt16) (shorter : more.length < (utf16EncodeChar c).length) :
      ws.any (· ≤ (out ++ more).length) = false :=
    unreached fun n mem => decide_eq_false (by have enough := room n mem; rw [length_append]; omega)
  have start := open_end [] (utf16_nonempty c)
  rw [append_nil] at start
  cases spelled : utf16EncodeChar c with
  | nil =>
    have some_unit := utf16_nonempty c
    rw [spelled] at some_unit
    cases some_unit
  | cons u tail =>
    rw [spelled] at nonzero_units open_end
    have first_nonzero := nonzero_units u mem_cons_self
    simp only [delivered, spelled, nonzero, if_false, head?_cons] at answer
    cases tail with
    | nil =>
      rw [length_singleton, mbsrtowcs, start, if_neg Bool.false_ne_true]
      simp only [answer, getD_some, first_nonzero, if_false, drop_left]
      rfl
    | cons v tail =>
      have pair := utf16_length_le_two c
      rw [spelled] at pair
      obtain rfl : tail = [] := eq_nil_of_length_eq_zero (by simpa using pair)
      have second_nonzero := nonzero_units v (by simp)
      have nonzero_nat : v.toNat ≠ 0 := fun same => second_nonzero (UInt16.toNat_inj.mp same)
      have middle := open_end [u] (by simp)
      have step : mbsrtowcs ws (fuel + 2) .init (utf8EncodeChar c ++ rest) out =
          mbsrtowcs ws (fuel + 1) { opaque1 := 0, opaque2 := v.toNat } rest (out ++ [u]) := by
        rw [mbsrtowcs, start, if_neg Bool.false_ne_true]
        simp only [answer, getD_some, first_nonzero, if_false, drop_left]
        rfl
      have pending := mbrtowc_pending (rest.take 4) { opaque1 := 0, opaque2 := v.toNat } nonzero_nat
      rw [length_cons, length_singleton, step, mbsrtowcs, middle, if_neg Bool.false_ne_true]
      simp only [pending, getD_some, UInt16.ofNat_toNat, second_nonzero, if_false]
      rw [append_assoc]
      rfl

theorem mbsrtowcs_end {beyond : List UInt8} {out : List UInt16} (room : ∀ n ∈ ws, out.length < n) :
    mbsrtowcs ws (fuel + 1) .init (0 :: beyond) out = some { ret := some out.length, out, src := none } := by
  have open_end : ws.any (· ≤ out.length) = false :=
    unreached fun n mem => decide_eq_false (by have enough := room n mem; omega)
  have answer : mbrtowc ((0 :: beyond).take 4) .init = delivered (Char.ofNat 0) := window_char (Char.ofNat 0) beyond
  rw [mbsrtowcs, open_end, if_neg Bool.false_ne_true]
  simp only [answer]
  rfl

theorem encode_nonzero (nonzero : c.toNat ≠ 0) : ∀ b ∈ utf8EncodeChar c, b ≠ 0 := by
  obtain ⟨lead, tails, spelled, starts, follow, number⟩ := encode_spells c
  rw [spelled]
  intro b mem same
  have zero : b.toNat = 0 := by
    rw [same]
    rfl
  rcases mem_cons.mp mem with rfl | later
  · have range := (announced_iff b _).mp starts
    obtain rfl : tails = [] := eq_nil_of_length_eq_zero (by omega)
    exact nonzero (number.symm.trans zero)
  · have low := (continues_tail lead tails follow b later).1
    omega

theorem prefix_before_null {p text beyond : List UInt8} (start : p <+: text ++ 0 :: beyond) (nonzero : ∀ b ∈ p, b ≠ 0) : p <+: text := by
  rcases lt_or_ge text.length p.length with longer | within
  · have whole : text ++ [0] <+: text ++ 0 :: beyond := (prefix_append_right_inj text).mpr ⟨beyond, rfl⟩
    have more : text ++ [0] <+: p := by
      refine prefix_of_prefix_length_le whole start ?_
      rw [length_append, length_singleton]
      exact longer
    exact absurd rfl (nonzero 0 (more.subset (by simp)))
  · exact prefix_of_prefix_length_le start (prefix_append _ _) within

theorem mbsrtowcs_refused {text beyond : List UInt8} {out : List UInt16} (some_byte : text ≠ [])
    (no_null : ∀ b ∈ text, b ≠ 0) (none_starts : ∀ c, ¬utf8EncodeChar c <+: text) (room : ∀ n ∈ ws, out.length < n) :
    mbsrtowcs ws (fuel + 1) .init (text ++ 0 :: beyond) out = some { ret := none, out, src := some (text ++ 0 :: beyond) } := by
  have open_end : ws.any (· ≤ out.length) = false :=
    unreached fun n mem => decide_eq_false (by have enough := room n mem; omega)
  have read := mbrtowc_read ((text ++ 0 :: beyond).take 4)
  rw [mbsrtowcs, open_end, if_neg Bool.false_ne_true]
  simp only
  generalize window_is : (text ++ 0 :: beyond).take 4 = window at read
  generalize mbrtowc window .init = answer at read
  cases read with
  | empty => rfl
  | char c rest =>
    exfalso
    have start : utf8EncodeChar c <+: text ++ 0 :: beyond := by
      refine List.IsPrefix.trans ?_ (List.take_prefix 4 _)
      rw [window_is]
      exact prefix_append _ _
    by_cases zero : c.toNat = 0
    · obtain rfl : c = Char.ofNat 0 := Char.toNat_inj.mp zero
      cases text with
      | nil => exact some_byte rfl
      | cons b text =>
        have same : (0 : UInt8) = b := (cons_prefix_cons.mp start).1
        exact no_null b mem_cons_self same.symm
    · exact none_starts c (prefix_before_null start (encode_nonzero c zero))
  | pending | refused => rfl

theorem mbsrtowcs_spec (text beyond : List UInt8) (no_null : ∀ b ∈ text, b ≠ 0) (fuel : Nat) (enough : text.length < fuel)
    (out : List UInt16) (room : ∀ n ∈ ws, out.length + text.length < n) :
    ∃ r, mbsrtowcs ws fuel .init (text ++ 0 :: beyond) out = some r ∧
      ((∃ cs, text = utf8 cs ∧ r.ret = some (out ++ utf16 cs).length ∧ r.out = out ++ utf16 cs) ∨ ¬Valid8 text ∧ r.ret = none) := by
  induction size : text.length using Nat.strong_induction_on generalizing text fuel out with
  | _ size ih =>
    by_cases none_starts : ∀ c, ¬utf8EncodeChar c <+: text
    · obtain ⟨fuel, rfl⟩ := exists_eq_add_one.mpr (zero_lt_of_lt enough)
      cases text with
      | nil =>
        refine ⟨_, mbsrtowcs_end ws fuel room, Or.inl ⟨[], rfl, ?_, ?_⟩⟩
        · rw [utf16_nil, append_nil]
        · rw [utf16_nil, append_nil]
      | cons b text =>
        refine ⟨_, mbsrtowcs_refused ws fuel (cons_ne_nil _ _) no_null none_starts
          (fun n mem => by have more := room n mem; omega), Or.inr ⟨?_, rfl⟩⟩
        rintro ⟨cs, spelled⟩
        cases cs with
        | nil => cases spelled
        | cons c cs =>
          refine none_starts c ?_
          rw [spelled, utf8_cons]
          exact prefix_append _ _
    · obtain ⟨c, rest, rfl⟩ : ∃ c rest, text = utf8EncodeChar c ++ rest := by
        by_contra none
        refine none_starts fun c start => ?_
        obtain ⟨rest, same⟩ := start
        exact none ⟨c, rest, same.symm⟩
      have nonzero : c.toNat ≠ 0 := by
        intro zero
        obtain rfl : c = Char.ofNat 0 := Char.toNat_inj.mp zero
        exact no_null 0 (by simp [utf8EncodeChar]) rfl
      have shorter := utf16_length_le c
      have some_unit := utf16_nonempty c
      rw [length_append] at size enough room
      obtain ⟨fuel, rfl⟩ : ∃ more, fuel = more + (utf16EncodeChar c).length := ⟨fuel - (utf16EncodeChar c).length, by omega⟩
      rw [append_assoc, mbsrtowcs_char ws fuel c nonzero _ out (fun n mem => by have more := room n mem; omega)]
      obtain ⟨r, ran, shape⟩ := ih rest.length (by omega) rest (fun b mem => no_null b (mem_append_right _ mem)) fuel (by omega)
        (out ++ utf16EncodeChar c) (fun n mem => by have more := room n mem; rw [length_append]; omega) rfl
      refine ⟨r, ran, ?_⟩
      rcases shape with ⟨cs, rfl, count, units⟩ | ⟨invalid, failed⟩
      · refine Or.inl ⟨c :: cs, (utf8_cons c cs).symm, ?_, ?_⟩
        · rw [count, utf16_cons, append_assoc]
        · rw [units, utf16_cons, append_assoc]
      · refine Or.inr ⟨?_, failed⟩
        rintro ⟨cs, spelled⟩
        cases cs with
        | nil =>
          have long := congrArg List.length spelled
          rw [length_append, utf8_nil, length_nil] at long
          omega
        | cons c' cs =>
          rw [utf8_cons] at spelled
          exact invalid ⟨cs, (encode_unique c spelled).2⟩

theorem wcrtomb_single (single : c.toNat < 0x10000) :
    wcrtomb (UInt16.ofNat c.toNat) 0 = (some (utf8EncodeChar c), 0) := by
  have valid := char_valid c
  have back : (UInt16.ofNat c.toNat).toNat = c.toNat := by
    rw [UInt16.toNat_ofNat', mod_eq_of_lt single]
  rw [← bytes_of_char]
  unfold wcrtomb bytesOf SurrHi SurrLo
  simp only [back]
  rw [if_neg (not_not.mpr rfl), if_neg (by omega), if_neg (by omega)]
  by_cases one : c.toNat < 0x80
  · rw [if_pos one, if_pos one]
  · rw [if_neg one, if_neg one]
    by_cases two : c.toNat < 0x800
    · rw [if_pos two, if_pos two]
    · rw [if_neg two, if_neg two, if_pos single]

theorem wcrtomb_pair (pair : ¬c.toNat < 0x10000) {u v : UInt16} (spelled : utf16EncodeChar c = [u, v]) :
    SurrHi u.toNat ∧ SurrLo v.toNat ∧ wcrtomb u 0 = (some [], u.toNat) ∧
      wcrtomb v u.toNat = (some (utf8EncodeChar c), 0) := by
  have valid := char_valid c
  rw [utf16EncodeChar, if_neg pair, List.cons.injEq, List.cons.injEq] at spelled
  obtain ⟨rfl, rfl, _⟩ := spelled
  obtain ⟨high, low⟩ := surrogate_units c
  have hi : SurrHi (0xD800 + (c.toNat - 0x10000) / 0x400) := ⟨by omega, by omega⟩
  have lo : SurrLo (0xDC00 + (c.toNat - 0x10000) % 0x400) := ⟨by omega, by omega⟩
  have joined : 0x10000 + ((0xD800 + (c.toNat - 0x10000) / 0x400 - 0xd800) <<< 10) + (0xDC00 + (c.toNat - 0x10000) % 0x400 - 0xdc00) =
      c.toNat := by
    rw [shiftLeft_eq]
    omega
  rw [← bytes_of_char]
  unfold wcrtomb bytesOf
  simp only [high, low, joined]
  refine ⟨hi, lo, ?_, ?_⟩
  · rw [if_neg (not_not.mpr rfl), if_pos hi]
  · rw [if_pos (by omega), if_neg (not_not.mpr lo), if_neg (by omega), if_neg (by omega), if_neg pair]

variable (s : Option Nat)
theorem wcsrtombs_plain (opaque1 : Nat) {u : UInt16} (ws : List UInt16) (out : List UInt8) (plain : ¬SurrHi u.toNat) :
    wcsrtombs s opaque1 (u :: ws) out = match wcrtomb u opaque1 with
      | (none, _) => some { ret := none, out, src := some (u :: ws) }
      | (some buf, opaque1) =>
        if buf.length = 0 then some { ret := none, out, src := some (u :: ws) }
        else if s.any (· < out.length + buf.length) then some { ret := some out.length, out, src := some (u :: ws) }
        else if u = 0 then some { ret := some out.length, out, src := none }
        else wcsrtombs s opaque1 ws (out ++ buf) := by
  cases ws with
  | nil | cons => rw [wcsrtombs, if_neg plain]

theorem wcsrtombs_char (c : Char) (nonzero : c.toNat ≠ 0) (ws : List UInt16) (out : List UInt8)
    (room : ∀ n ∈ s, out.length + (utf8EncodeChar c).length ≤ n) :
    wcsrtombs s 0 (utf16EncodeChar c ++ ws) out = wcsrtombs s 0 ws (out ++ utf8EncodeChar c) := by
  have valid := char_valid c
  have some_byte := (encode_length c).1
  have fits : s.any (· < out.length + (utf8EncodeChar c).length) = false :=
    unreached fun n mem => decide_eq_false (by have enough := room n mem; omega)
  by_cases single : c.toNat < 0x10000
  · have spelled : utf16EncodeChar c = [UInt16.ofNat c.toNat] := by
      rw [utf16EncodeChar, if_pos single]
    have back : (UInt16.ofNat c.toNat).toNat = c.toNat := by
      rw [UInt16.toNat_ofNat', mod_eq_of_lt single]
    have plain : ¬SurrHi (UInt16.ofNat c.toNat).toNat := by
      rw [back, SurrHi]
      omega
    have unit_nonzero := units_nonzero c nonzero (UInt16.ofNat c.toNat) (by rw [spelled]; exact mem_singleton_self _)
    rw [spelled, singleton_append, wcsrtombs_plain s 0 ws out plain, wcrtomb_single c single]
    simp only
    rw [if_neg (by omega), fits, if_neg Bool.false_ne_true, if_neg unit_nonzero]
  · obtain ⟨u, v, spelled⟩ : ∃ u v, utf16EncodeChar c = [u, v] := ⟨_, _, by rw [utf16EncodeChar, if_neg single]⟩
    obtain ⟨hi, lo, first, second⟩ := wcrtomb_pair c single spelled
    have four : (utf8EncodeChar c).length = 4 := by
      rw [← bytes_of_char, bytesOf, if_neg (by omega), if_neg (by omega), if_neg single]
      rfl
    rw [four] at fits
    rw [spelled, cons_append, singleton_append, wcsrtombs, if_pos hi, if_pos lo, fits, if_neg Bool.false_ne_true, first]
    simp only
    rw [second]

theorem wcsrtombs_spec {cs : List Char} (nonzero : ∀ c ∈ cs, c.toNat ≠ 0) (beyond : List UInt16) (out : List UInt8)
    (room : ∀ n ∈ s, out.length + (utf8 cs).length < n) :
    wcsrtombs s 0 (utf16 cs ++ 0 :: beyond) out =
      some { ret := some (out ++ utf8 cs).length, out := out ++ utf8 cs, src := none } := by
  induction cs generalizing out with
  | nil =>
    have fits : s.any (· < out.length + 1) = false :=
      unreached fun n mem => decide_eq_false (by have enough := room n mem; omega)
    have plain : ¬SurrHi (0 : UInt16).toNat := by decide
    have null : wcrtomb 0 0 = (some [0], 0) := by decide +kernel
    rw [utf16_nil, utf8_nil, nil_append, append_nil, wcsrtombs_plain s 0 beyond out plain, null]
    simp only [length_singleton, fits]
    rfl
  | cons c cs ih =>
    rw [utf8_cons, length_append] at room
    rw [utf16_cons, utf8_cons, append_assoc, wcsrtombs_char s c (nonzero c mem_cons_self) _ out
      (fun n mem => by have enough := room n mem; omega), ih (forall_mem_cons.mp nonzero).2
      (out ++ utf8EncodeChar c) (fun n mem => by have enough := room n mem; rw [length_append]; omega), append_assoc]

-- The locale's decoder takes exactly the valid strings, finds the units of the other decoder,
-- and its encoder brings the bytes back.
theorem locale_codec_agrees (text beyond : List UInt8) (no_null : ∀ b ∈ text, b ≠ 0) (ws : Option Nat)
    (room : ∀ n ∈ ws, text.length < n) (fuel : Nat) (enough : text.length < fuel) :
    ∃ r, mbsrtowcs ws fuel .init (text ++ 0 :: beyond) [] = some r ∧ (r.ret.isSome ↔ Valid8 text) ∧
      (Valid8 text → r.ret = some r.out.length ∧ r.out.length ≤ text.length ∧
        (∀ d < 2 ^ 32, ((utf8ToUtf16n (some d) text).failed = false ↔ 2 * r.out.length ≤ d) ∧
          (2 * r.out.length ≤ d → (utf8ToUtf16n (some d) text).dst = r.out)) ∧
        ∀ (s : Option Nat) (beyond16 : List UInt16), (∀ n ∈ s, text.length < n) →
          wcsrtombs s 0 (r.out ++ 0 :: beyond16) [] = some { ret := some text.length, out := text, src := none }) := by
  obtain ⟨r, ran, shape⟩ := mbsrtowcs_spec ws text beyond no_null fuel enough [] (by simpa using room)
  refine ⟨r, ran, ?_⟩
  rcases shape with ⟨cs, rfl, count, units⟩ | ⟨invalid, failed⟩
  · rw [nil_append] at count units
    refine ⟨⟨fun _ => ⟨cs, rfl⟩, fun _ => by rw [count]; rfl⟩, fun _ => ⟨by rw [count, units], ?_, ?_, ?_⟩⟩
    · have shorter := chars_length (utf8 cs)
      rwa [chars_utf8, ← units] at shorter
    · intro d small
      rw [utf8_to_utf16n_stored small, chars_utf8, units]
      have whole := stored_whole 2 utf16EncodeChar d cs
      exact ⟨⟨fun ended => (stored_done 2 utf16EncodeChar d cs ended).2, fun room => by rw [whole room]⟩,
        fun room => by rw [whole room]; rfl⟩
    · intro s beyond16 room16
      have nonzero : ∀ c ∈ cs, c.toNat ≠ 0 := by
        intro c mem zero
        obtain rfl : c = Char.ofNat 0 := Char.toNat_inj.mp zero
        exact no_null 0 (mem_flatMap.mpr ⟨Char.ofNat 0, mem, by simp [utf8EncodeChar]⟩) rfl
      rw [units, wcsrtombs_spec s nonzero beyond16 [] (by simpa using room16), nil_append]
  · refine ⟨⟨fun found => ?_, fun valid => absurd valid invalid⟩, fun valid => absurd valid invalid⟩
    rw [failed] at found
    cases found

-- "é😀A"
def emojiBytes : List UInt8 := [0xc3, 0xa9, 0xf0, 0x9f, 0x98, 0x80, 0x41]

def emojiUnits : List UInt16 := [0xe9, 0xd83d, 0xde00, 0x41]

theorem locale_codec_emoji :
    mbsrtowcs none 8 .init (emojiBytes ++ 0 :: []) [] = some { ret := some 4, out := emojiUnits, src := none } ∧
    (utf8ToUtf16n (some 8) emojiBytes).failed = false ∧ (utf8ToUtf16n (some 8) emojiBytes).dst = emojiUnits ∧
    wcsrtombs none 0 (emojiUnits ++ 0 :: []) [] = some { ret := some 7, out := emojiBytes, src := none } := by
  have found : mbsrtowcs none 8 .init (emojiBytes ++ 0 :: []) [] =
      some { ret := some 4, out := emojiUnits, src := none } := by rfl
  have valid : Valid8 emojiBytes := ⟨['é', '😀', 'A'], by decide +kernel⟩
  obtain ⟨r, ran, _, agrees⟩ := locale_codec_agrees emojiBytes [] (by simp [emojiBytes]) none (by simp) 8 (by decide)
  obtain rfl := Option.some.inj (found.symm.trans ran)
  obtain ⟨_, _, converts, back⟩ := agrees valid
  obtain ⟨ended, same⟩ := converts 8 (by decide)
  exact ⟨found, ended.mpr (by decide), same (by decide), back none [] (by simp)⟩

end Spicule.Utf
