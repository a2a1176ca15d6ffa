import Spicule.Utf.Encode

namespace Spicule.Utf
open List Utf8

def Unrefused (s : List UInt8) : Prop := s.IsChain fun lead b => ¬Refused lead b

theorem tail_not_refused (t b : UInt8) (tail : Tail t) : ¬Refused t b := by
  rintro ⟨range, _⟩
  have small := tail.2
  omega

theorem unrefused_tails {tails rest : List UInt8} (all : ∀ b ∈ tails, Tail b) (after : Unrefused rest) : Unrefused (tails ++ rest) := by
  induction tails with
  | nil => exact after
  | cons t tails ih =>
    have later := ih (forall_mem_cons.mp all).2
    exact isChain_cons.mpr ⟨fun b _ => tail_not_refused t b (all t mem_cons_self), later⟩

theorem char_not_refused (c : Char) (lead : UInt8) (tails rest : List UInt8) (spelled : utf8EncodeChar c = lead :: tails) :
    ∀ b ∈ (tails ++ rest).head?, ¬Refused lead b := by
  obtain ⟨lead', tails', spelled', starts, follow, _⟩ := encode_spells c
  rw [spelled, List.cons.injEq] at spelled'
  obtain ⟨rfl, rfl⟩ := spelled'
  cases tails with
  | nil =>
    rintro b _ ⟨range, _⟩
    have small := (announced_iff lead 0).mp starts
    omega
  | cons a tails => exact not_refused_of_announced lead (a :: tails) rest _ starts follow (by simp)

theorem refused_alone (lead b : UInt8) (rest : List UInt8) (bad : Refused lead b) :
    (∀ c, ¬utf8EncodeChar c <+: [lead] ++ b :: rest) ∧ MaximalSubpart [lead] (b :: rest) := by
  have broken (p : List UInt8) (start : lead :: p <+: [lead] ++ b :: rest) (longer : p ≠ []) : ¬Viable (lead :: p) := by
    intro viable
    obtain ⟨n, starts, _, follow⟩ := (viable_iff lead p).mp viable
    cases p with
    | nil => exact longer rfl
    | cons b' p =>
      rw [singleton_append, cons_prefix_cons, cons_prefix_cons] at start
      obtain ⟨_, rfl, _⟩ := start
      exact bad.2.2 ⟨by rw [starts]; rfl, follow.1⟩
  constructor
  · intro c start
    obtain ⟨lead', tails, spelled, starts, _, _⟩ := encode_spells c
    rw [spelled] at start
    have same := (cons_prefix_cons.mp start).1
    obtain rfl := same
    refine broken tails start ?_ ⟨c, by rw [spelled]⟩
    rintro rfl
    have small := (announced_iff lead' 0).mp starts
    have range := bad.1
    omega
  · refine ⟨cons_ne_nil _ _, Or.inl rfl, ?_⟩
    intro q start longer viable
    cases q with
    | nil => cases longer
    | cons lead' q =>
      have same := (cons_prefix_cons.mp start).1
      obtain rfl := same
      refine broken q start ?_ viable
      rintro rfl
      exact absurd longer (lt_irrefl _)

theorem tail_silent (t : UInt8) (tail : Tail t) : announced t = none := by
  have low := tail.1
  have high := tail.2
  exact announced_none t (by omega)

theorem replaced_tails (tails rest : List UInt8) (all : ∀ b ∈ tails, Tail b) (cs : List Char) (given : Replaced (tails ++ rest) cs) :
    ∃ cs', cs.length = tails.length + cs'.length ∧ Replaced rest cs' := by
  induction tails generalizing cs with
  | nil => exact ⟨cs, by simp, given⟩
  | cons t tails ih =>
    have silent := tail_silent t (all t mem_cons_self)
    have part := subpart_stops t [] (tails ++ rest) (Or.inl rfl) (Or.inl silent)
    obtain ⟨after, rfl, later⟩ := replaced_subpart [t] (tails ++ rest) cs (no_char_of_silent t _ silent) part given
    obtain ⟨cs', count, last⟩ := ih (forall_mem_cons.mp all).2 after later
    exact ⟨cs', by rw [length_cons, count, length_cons]; omega, last⟩

theorem chars_count (s : List UInt8) (cs : List Char) (given : Replaced s cs) :
    (chars s).length ≤ cs.length ∧ ((chars s).length = cs.length → Unrefused s) := by
  induction s using codePoints.induct generalizing cs with
  | case1 => exact ⟨by simp [chars_nil], fun _ => isChain_nil⟩
  | case2 lead s ih =>
    obtain ⟨tails, rest, split, all, after, taken⟩ := next_code_point_step lead s
    obtain ⟨_, c, _, _, _, _, found⟩ := chars_cons lead s
    rw [after] at ih found
    rw [found, length_cons]
    generalize (nextCodePoint lead s).1 = cp at taken
    have joined (second : ∀ b ∈ (tails ++ rest).head?, ¬Refused lead b) (unrefused : Unrefused rest) : Unrefused (lead :: s) := by
      rw [split]
      exact isChain_cons.mpr ⟨second, unrefused_tails all unrefused⟩
    cases taken with
    | char c' spelled =>
      rw [split, ← cons_append, ← spelled] at given
      obtain ⟨cs', rfl, later⟩ := replaced_char c' rest cs given
      obtain ⟨most, whole⟩ := ih cs' later
      refine ⟨Nat.succ_le_succ most, fun same => joined (char_not_refused c' lead tails rest spelled) (whole ?_)⟩
      exact Nat.succ_inj.mp same
    | broken none part accepted =>
      rw [split, ← cons_append] at given
      obtain ⟨cs', rfl, later⟩ := replaced_subpart (lead :: tails) rest cs none part given
      obtain ⟨most, whole⟩ := ih cs' later
      exact ⟨Nat.succ_le_succ most, fun same => joined accepted (whole (Nat.succ_inj.mp same))⟩
    | refused b second bad =>
      cases tails with
      | nil => cases second
      | cons b' tails =>
        rw [head?_cons, Option.mem_some_iff] at second
        obtain rfl := second
        rw [split] at given
        obtain ⟨none, part⟩ := refused_alone lead b' (tails ++ rest) bad
        obtain ⟨cs', rfl, later⟩ := replaced_subpart [lead] (b' :: (tails ++ rest)) cs none part given
        obtain ⟨last, count, final⟩ := replaced_tails (b' :: tails) rest all cs' later
        obtain ⟨most, _⟩ := ih last final
        rw [length_cons, count, length_cons]
        exact ⟨by omega, fun same => by omega⟩

theorem chars_replaced (s : List UInt8) (unrefused : Unrefused s) : Replaced s (chars s) := by
  induction s using codePoints.induct with
  | case1 =>
    rw [chars_nil]
    exact .nil
  | case2 lead s ih =>
    obtain ⟨tails, c, split, taken, _, _, found⟩ := chars_cons lead s
    generalize (nextCodePoint lead s).2 = rest at split taken found ih
    obtain ⟨second, tail⟩ := isChain_cons.mp unrefused
    rw [split] at tail second
    have later := ih tail.right_of_append
    rw [found, split, ← cons_append]
    generalize number : c.toNat = cp at taken
    cases taken with
    | char c' spelled =>
      obtain rfl := Char.toNat_inj.mp number
      rw [← spelled]
      exact .char c rest _ later
    | broken none part _ =>
      have same : c = replacement := Char.toNat_inj.mp number
      rw [same]
      exact .subpart _ rest _ none part later
    | refused b first bad =>
      refine absurd bad (second b ?_)
      cases tails with
      | nil => cases first
      | cons b' tails => exact first

-- The characters are those of the practice exactly where no byte stands before a
-- continuation byte it refuses.
theorem maximal_subparts_iff (s : List UInt8) :
    (∃ cs, Replaced s cs ∧ codePoints s = cs.map Char.toNat ∧
      ∀ d < 2 ^ 32, utf8ToUtf16n (some d) s = stored 2 utf16EncodeChar d cs []) ↔ Unrefused s := by
  constructor
  · rintro ⟨cs, given, same, _⟩
    rw [← code_points_chars] at same
    have lengths := congrArg List.length same
    rw [length_map, length_map] at lengths
    exact (chars_count s cs given).2 lengths
  · intro unrefused
    exact ⟨chars s, chars_replaced s unrefused, (code_points_chars s).symm,
      fun d small => to_utf16_stored d small s [] (Nat.zero_le d)⟩

theorem overlong_replaced_once :
    utf8ToUtf16n (some 64) [0xE0, 0x80, 0x80] = { failed := false, written := 2, dst := [0xFFFD] } ∧
      Replaced [0xE0, 0x80, 0x80] [replacement, replacement, replacement] := by
  have next : nextCodePoint 0xE0 [0x80, 0x80] = (replacement.toNat, []) := by decide +kernel
  have silent : announced 0x80 = none := by decide +kernel
  obtain ⟨none, part⟩ := refused_alone 0xE0 0x80 [0x80] (by decide +kernel)
  constructor
  · rw [utf8ToUtf16n, to_utf16_cons (by rw [next]), next, toUtf16]
    decide +kernel
  · exact .subpart [0xE0] [0x80, 0x80] _ none part
      (.subpart [0x80] [0x80] _ (no_char_of_silent _ _ silent) (subpart_stops _ [] _ (Or.inl rfl) (Or.inl silent))
        (.subpart [0x80] [] _ (no_char_of_silent _ _ silent) (subpart_stops _ [] _ (Or.inl rfl) (Or.inl silent)) .nil))

end Spicule.Utf
