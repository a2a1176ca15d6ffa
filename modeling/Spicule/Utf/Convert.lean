import Spicule.Lib.Utf8

namespace Spicule.Utf
open List Option Nat Prod Utf8

def utfReplacement : Nat := 0xFFFD

def ulong (n : Nat) : Nat := n % 2 ^ 32

structure Conversion (α : Type) where
  failed : Bool
  written : Nat
  dst : List α
deriving DecidableEq

def leadByte (c : UInt8) : Nat × Nat :=
  if c < 0x80 then (c.toNat, 0)
  else if c &&& 0xe0 = 0xc0 then ((c &&& 0x1f).toNat, 1)
  else if c &&& 0xf0 = 0xe0 then ((c &&& 0x0f).toNat, 2)
  else if c &&& 0xf8 = 0xf0 then ((c &&& 0x07).toNat, 3)
  else (utfReplacement, 0)

-- The continuation bytes; none where one is missing, with the string from there.
def continuation : Nat → Nat → List UInt8 → Option Nat × List UInt8
  | 0, cp, s => (some cp, s)
  | _ + 1, _, [] => (none, [])
  | extra + 1, cp, b :: s =>
    if b &&& 0xc0 ≠ 0x80 then (none, b :: s)
    else continuation extra (cp <<< 6 ||| (b &&& 0x3f).toNat) s

-- Overlong, surrogate, or out of range.
def Misfit (extra cp : Nat) : Prop :=
  0 < extra ∧ (extra = 1 ∧ cp < 0x80 ∨ extra = 2 ∧ cp < 0x800 ∨ extra = 3 ∧ cp < 0x10000 ∨ 0x10FFFF < cp ∨
    0xD800 ≤ cp ∧ cp ≤ 0xDFFF)

instance (extra cp : Nat) : Decidable (Misfit extra cp) := inferInstanceAs (Decidable (_ ∧ _))

def nextCodePoint (c : UInt8) (s : List UInt8) : Nat × List UInt8 :=
  let (cp, extra) := leadByte c
  match continuation extra cp s with
  | (none, s) => (utfReplacement, s)
  | (some cp, s) => (if Misfit extra cp then utfReplacement else cp, s)

theorem continuation_length (extra cp : Nat) (s : List UInt8) : (continuation extra cp s).2.length ≤ s.length := by
  induction extra generalizing cp s with
  | zero => exact le_refl _
  | succ extra ih =>
    cases s with
    | nil => exact le_refl _
    | cons b s =>
      unfold continuation
      split
      · exact le_refl _
      · exact (ih _ s).trans (le_succ _)

variable (c : UInt8)
theorem next_code_point_length (s : List UInt8) : (nextCodePoint c s).2.length ≤ s.length := by
  have shorter := continuation_length (leadByte c).2 (leadByte c).1 s
  unfold nextCodePoint
  simp only
  split
  · rename_i found
    rw [found] at shorter
    exact shorter
  · rename_i found
    rw [found] at shorter
    exact shorter

-- dst is its size in bytes, none for null. The sums with a sizeof are of type size_t, out
-- is a ULONG.
def toUtf16 (dst : Option Nat) : List UInt8 → Nat → List UInt16 → Conversion UInt16
  | [], out, units => { failed := false, written := out, dst := units }
  | c :: s, out, units =>
    let cp := (nextCodePoint c s).1
    if 0x10000 ≤ cp then
      if dst.any (· < out + 4) then { failed := true, written := out, dst := units }
      else
        toUtf16 dst (nextCodePoint c s).2 (ulong (out + 4))
          (if dst.isSome then
            units ++ [UInt16.ofNat (0xD800 + (cp - 0x10000) >>> 10), UInt16.ofNat (0xDC00 + ((cp - 0x10000) &&& 0x3ff))]
          else units)
    else if dst.any (· < out + 2) then { failed := true, written := out, dst := units }
    else toUtf16 dst (nextCodePoint c s).2 (ulong (out + 2)) (if dst.isSome then units ++ [UInt16.ofNat cp] else units)
termination_by s => s.length
decreasing_by
  all_goals
    have shorter := next_code_point_length c s
    simp only [length_cons]
    omega

def codePoints : List UInt8 → List Nat
  | [] => []
  | c :: s => (nextCodePoint c s).1 :: codePoints (nextCodePoint c s).2
termination_by s => s.length
decreasing_by
  have shorter := next_code_point_length c s
  simp only [length_cons]
  omega

def utf8ToUtf16n (dst : Option Nat) (src : List UInt8) : Conversion UInt16 := toUtf16 dst src 0 []

theorem lead_byte_cases : c.toNat < 0x80 ∧ leadByte c = (c.toNat, 0) ∨
      (0x80 ≤ c.toNat ∧ c.toNat < 0xC0 ∨ 0xF8 ≤ c.toNat) ∧ leadByte c = (utfReplacement, 0) ∨
      (0xC0 ≤ c.toNat ∧ c.toNat < 0xE0) ∧ leadByte c = (c.toNat % 32, 1) ∨
      (0xE0 ≤ c.toNat ∧ c.toNat < 0xF0) ∧ leadByte c = (c.toNat % 16, 2) ∨
      (0xF0 ≤ c.toNat ∧ c.toNat < 0xF8) ∧ leadByte c = (c.toNat % 8, 3) := by
  revert c
  exact byte_cases _ (by decide +kernel)

theorem continuation_spec (extra cp : Nat) (s : List UInt8) :
    ∃ tails rest, s = tails ++ rest ∧ (∀ b ∈ tails, Tail b) ∧ tails.length ≤ extra ∧
      (tails.length < extra → ∀ b ∈ rest.head?, ¬Tail b) ∧
      continuation extra cp s = (if tails.length = extra then some (value cp tails) else none, rest) := by
  induction extra generalizing cp s with
  | zero => exact ⟨[], s, rfl, by simp, le_refl _, by simp, rfl⟩
  | succ extra ih =>
    cases s with
    | nil => exact ⟨[], [], rfl, by simp, by simp, by simp, rfl⟩
    | cons b s =>
      unfold continuation
      rw [push_bits]
      by_cases tail : Tail b
      · obtain ⟨tails, rest, split, all, short, stop, taken⟩ := ih (cp * 64 + b.toNat % 64) s
        refine ⟨b :: tails, rest, by rw [split, cons_append], ?_, succ_le_succ short, ?_, ?_⟩
        · intro x mem
          rcases mem_cons.mp mem with rfl | older
          · exact tail
          · exact all x older
        · intro shorter
          exact stop (lt_of_succ_lt_succ shorter)
        · rw [if_neg (not_not.mpr ((tail_mark b).mpr tail)), taken]
          simp only [length_cons, add_right_cancel_iff, value_cons]
      · refine ⟨[], b :: s, rfl, by simp, by simp, ?_, ?_⟩
        · intro _ x mem
          rw [head?_cons, mem_some_iff] at mem
          rw [← mem]
          exact tail
        · rw [if_pos (mt (tail_mark b).mp tail), length_nil, if_neg (succ_ne_zero extra).symm]

theorem announced_none (outside : 0x80 ≤ c.toNat ∧ c.toNat < 0xC2 ∨ 0xF5 ≤ c.toNat) : announced c = none := by
  cases starts : announced c with
  | none => rfl
  | some n =>
    have range := (announced_iff c n).mp starts
    omega

theorem lead_announced {n : Nat} (starts : announced c = some n) : leadByte c = (leadBits c n, n) := by
  have range := (announced_iff c n).mp starts
  rcases lead_byte_cases c with ⟨small, read⟩ | ⟨outside, read⟩ | ⟨two, read⟩ | ⟨three, read⟩ | ⟨four, read⟩
  · obtain rfl : n = 0 := by omega
    exact read
  · omega
  · obtain rfl : n = 1 := by omega
    exact read
  · obtain rfl : n = 2 := by omega
    exact read
  · obtain rfl : n = 3 := by omega
    exact read

theorem fits_iff (extra low cp : Nat) (least : extra = 1 ∧ low = 0x80 ∨ extra = 2 ∧ low = 0x800 ∨ extra = 3 ∧ low = 0x10000) :
    ¬Misfit extra cp ↔ low ≤ cp ∧ cp ≤ 0x10FFFF ∧ (cp < 0xD800 ∨ 0xDFFF < cp) := by
  constructor
  · intro fits
    refine ⟨?_, ?_, ?_⟩
    all_goals by_contra bad
    all_goals exact fits ⟨by omega, by omega⟩
  · rintro fits ⟨_, bad⟩
    omega

theorem misfit_spec {tails : List UInt8} (all : ∀ b ∈ tails, Tail b) (long : (leadByte c).2 ≠ 0)
    (full : tails.length = (leadByte c).2) :
    ¬Misfit (leadByte c).2 (value (leadByte c).1 tails) ↔ announced c = some tails.length ∧ Continues c tails := by
  rw [announced_iff]
  rcases lead_byte_cases c with ⟨small, read⟩ | ⟨outside, read⟩ | ⟨range, read⟩ | ⟨range, read⟩ | ⟨range, read⟩
  · exact absurd (congrArg snd read) long
  · exact absurd (congrArg snd read) long
  · rw [read] at full ⊢
    obtain ⟨a, rfl⟩ := length_eq_one_iff.mp full
    have tail := all a (by simp)
    rw [fits_iff 1 0x80 _ (by omega)]
    simp only [Continues, Second, Tail, value_cons, value_nil, length_cons, length_nil, not_mem_nil,
      false_imp_iff, implies_true, and_true] at tail ⊢
    constructor
    · intro fits
      exact ⟨Or.inr (Or.inl ⟨trivial, by omega, by omega⟩), by omega⟩
    · intro given
      omega
  · rw [read] at full ⊢
    obtain ⟨a, b, rfl⟩ := length_eq_two.mp full
    have first := all a (by simp)
    have second := all b (by simp)
    rw [fits_iff 2 0x800 _ (by omega)]
    simp only [Continues, Second, Tail, value_cons, value_nil, length_cons, length_nil, mem_singleton,
      forall_eq] at first second ⊢
    constructor
    · intro fits
      exact ⟨Or.inr (Or.inr (Or.inl ⟨trivial, by omega, by omega⟩)), by omega⟩
    · intro given
      omega
  · rw [read] at full ⊢
    obtain ⟨a, b, d, rfl⟩ := length_eq_three.mp full
    have first := all a (by simp)
    have second := all b (by simp)
    have third := all d (by simp)
    rw [fits_iff 3 0x10000 _ (by omega)]
    simp only [Continues, Second, Tail, value_cons, value_nil, length_cons, length_nil, mem_cons,
      not_mem_nil, or_false, forall_eq_or_imp, forall_eq] at first second third ⊢
    constructor
    · intro fits
      exact ⟨Or.inr (Or.inr (Or.inr ⟨trivial, by omega, by omega⟩)), by omega⟩
    · intro given
      omega

-- A byte taken for a lead byte, before a continuation byte it cannot have.
def Refused (lead b : UInt8) : Prop :=
  (0xC0 ≤ lead.toNat ∧ lead.toNat < 0xF8) ∧ Tail b ∧ ¬((announced lead).isSome ∧ Second lead b)

instance (lead b : UInt8) : Decidable (Refused lead b) := inferInstanceAs (Decidable (_ ∧ _ ∧ _))

inductive Taken (lead : UInt8) (tails rest : List UInt8) : Nat → Prop where
  | char (c : Char) (spelled : utf8EncodeChar c = lead :: tails) : Taken lead tails rest c.toNat
  | broken (none : ∀ c, ¬utf8EncodeChar c <+: lead :: (tails ++ rest)) (part : MaximalSubpart (lead :: tails) rest)
      (accepted : ∀ b ∈ (tails ++ rest).head?, ¬Refused lead b) : Taken lead tails rest utfReplacement
  | refused (b : UInt8) (second : b ∈ tails.head?) (bad : Refused lead b) : Taken lead tails rest utfReplacement

variable (lead : UInt8) (tails rest : List UInt8)
theorem not_refused_of_announced (n : Nat) (starts : announced lead = some n)
    (follow : Continues lead tails) (stop : tails = [] → ∀ b ∈ rest.head?, ¬Tail b) :
    ∀ b ∈ (tails ++ rest).head?, ¬Refused lead b := by
  rintro b second ⟨_, tail, bad⟩
  cases tails with
  | nil => exact stop rfl b second tail
  | cons a tails =>
    rw [cons_append, head?_cons, mem_some_iff] at second
    rw [← second] at bad
    exact bad ⟨by rw [starts]; rfl, follow.1⟩

theorem no_char_of_short (n : Nat) (starts : announced lead = some n)
    (short : tails.length < n) (stop : ∀ b ∈ rest.head?, ¬Tail b) (c : Char) :
    ¬utf8EncodeChar c <+: lead :: (tails ++ rest) := by
  intro start
  obtain ⟨lead', run, spelled, starts', follow, _⟩ := encode_spells c
  rw [spelled, cons_prefix_cons] at start
  obtain ⟨rfl, start⟩ := start
  have most := run_within tails rest start (continues_tail _ run follow) stop
  rw [starts, some.injEq] at starts'
  omega

theorem next_code_point_eq {s tails rest : List UInt8} {bits extra : Nat} (read : leadByte lead = (bits, extra))
    (taken : continuation extra bits s = (if tails.length = extra then some (value bits tails) else none, rest)) :
    nextCodePoint lead s =
      (if tails.length = extra ∧ ¬Misfit extra (value bits tails) then value bits tails else utfReplacement, rest) := by
  unfold nextCodePoint
  simp only [read, taken]
  by_cases full : tails.length = extra
  · simp only [full, if_true, true_and, ite_not]
  · simp only [full, if_false, false_and]

theorem refused_of_bad {b : UInt8} {tails : List UInt8} {bits extra : Nat} (read : leadByte lead = (bits, extra)) (long : extra ≠ 0)
    (all : ∀ x ∈ b :: tails, Tail x) (bad : ¬((announced lead).isSome ∧ Continues lead (b :: tails))) : Refused lead b := by
  refine ⟨?_, all b mem_cons_self, ?_⟩
  · rcases lead_byte_cases lead with ⟨_, alone⟩ | ⟨_, alone⟩ | ⟨range, _⟩ | ⟨range, _⟩ | ⟨range, _⟩
    · exact absurd (congrArg snd (read.symm.trans alone)) long
    · exact absurd (congrArg snd (read.symm.trans alone)) long
    all_goals omega
  · rintro ⟨starts, second⟩
    exact bad ⟨starts, second, (forall_mem_cons.mp all).2⟩

theorem taken_of_short {bits extra : Nat} (read : leadByte lead = (bits, extra))
    (all : ∀ b ∈ tails, Tail b) (short : tails.length < extra) (stop : ∀ b ∈ rest.head?, ¬Tail b) :
    Taken lead tails rest utfReplacement := by
  by_cases good : (announced lead).isSome ∧ Continues lead tails
  · obtain ⟨n, starts⟩ := isSome_iff_exists.mp good.1
    have number : n = extra := congrArg snd ((lead_announced lead starts).symm.trans read)
    have viable := (viable_iff lead tails).mpr ⟨n, starts, by omega, good.2⟩
    exact .broken (no_char_of_short lead tails rest n starts (by omega) stop)
      (subpart_stops lead tails rest (Or.inr viable) (Or.inr stop))
      (not_refused_of_announced lead tails rest n starts good.2 fun _ => stop)
  · cases tails with
    | nil =>
      have silent : announced lead = none := by
        cases starts : announced lead with
        | none => rfl
        | some n => exact absurd ⟨by rw [starts]; rfl, trivial⟩ good
      refine .broken (no_char_of_silent lead _ silent) (subpart_stops lead [] rest (Or.inl rfl) (Or.inl silent)) ?_
      intro b second refused
      exact stop b second refused.2.1
    | cons b tails =>
      exact .refused b rfl (refused_of_bad lead read (by omega) all good)

theorem taken_of_full {bits : Nat} (read : leadByte lead = (bits, tails.length)) (all : ∀ b ∈ tails, Tail b) :
    Taken lead tails rest (if ¬Misfit tails.length (value bits tails) then value bits tails else utfReplacement) := by
  by_cases good : announced lead = some tails.length ∧ Continues lead tails
  · obtain ⟨c, number, spelled⟩ := spells_encode lead tails good.1 good.2
    have same : bits = leadBits lead tails.length := congrArg fst (read.symm.trans (lead_announced lead good.1))
    rw [same, ← number]
    have fits : ¬Misfit tails.length c.toNat := by
      rw [number, ← same]
      cases tails with
      | nil => exact fun misfit => absurd misfit.1 (lt_irrefl 0)
      | cons b tails =>
        have spec := misfit_spec lead all (by rw [read]; exact succ_ne_zero _) (by rw [read])
        rw [read] at spec
        exact spec.mpr good
    rw [if_pos fits]
    exact .char c spelled
  · cases tails with
    | nil =>
      rcases lead_byte_cases lead with ⟨small, _⟩ | ⟨outside, alone⟩ | ⟨_, long⟩ | ⟨_, long⟩ | ⟨_, long⟩
      · exact absurd ⟨(announced_iff lead 0).mpr (Or.inl ⟨rfl, small⟩), trivial⟩ good
      · have silent := announced_none lead (by omega)
        have same : bits = utfReplacement := congrArg fst (read.symm.trans alone)
        rw [value_nil, same, ite_self]
        refine .broken (no_char_of_silent lead _ silent) (subpart_stops lead [] rest (Or.inl rfl) (Or.inl silent)) ?_
        intro b _ refused
        have range := refused.1
        omega
      all_goals cases read.symm.trans long
    | cons b tails =>
      have spec := misfit_spec lead all (by rw [read]; exact succ_ne_zero _) (by rw [read])
      rw [read] at spec
      rw [if_neg (mt spec.mp good)]
      refine .refused b rfl (refused_of_bad lead read (succ_ne_zero _) all ?_)
      rintro ⟨starts, follow⟩
      obtain ⟨n, starts⟩ := isSome_iff_exists.mp starts
      have number : n = (b :: tails).length := congrArg snd ((lead_announced lead starts).symm.trans read)
      exact good ⟨by rw [starts, number], follow⟩

variable (s : List UInt8)
theorem next_code_point_step :
    ∃ tails rest, s = tails ++ rest ∧ (∀ b ∈ tails, Tail b) ∧ (nextCodePoint lead s).2 = rest ∧
      Taken lead tails rest (nextCodePoint lead s).1 := by
  obtain ⟨⟨bits, extra⟩, read⟩ : ∃ r, leadByte lead = r := ⟨_, rfl⟩
  obtain ⟨tails, rest, split, all, within, stop, taken⟩ := continuation_spec extra bits s
  have next := next_code_point_eq lead read taken
  refine ⟨tails, rest, split, all, by rw [next], ?_⟩
  rw [next]
  by_cases full : tails.length = extra
  · simp only [full, true_and]
    rw [← full] at read ⊢
    exact taken_of_full lead tails rest read all
  · rw [if_neg fun both => full both.1]
    have short := lt_of_le_of_ne within full
    exact taken_of_short lead tails rest read all short (stop short)

theorem taken_char (cp : Nat) (taken : Taken lead tails rest cp) :
    ∃ c : Char, c.toNat = cp ∧ (utf16EncodeChar c).length ≤ tails.length + 1 := by
  cases taken with
  | char c spelled =>
    have shorter := utf16_length_le c
    rw [spelled] at shorter
    exact ⟨c, rfl, shorter⟩
  | broken | refused => exact ⟨replacement, rfl, succ_le_succ (zero_le _)⟩

def chars (s : List UInt8) : List Char := (codePoints s).map Char.ofNat

theorem chars_nil : chars [] = [] := by
  rw [chars, codePoints, map_nil]

theorem chars_cons :
    ∃ tails c, s = tails ++ (nextCodePoint lead s).2 ∧ Taken lead tails (nextCodePoint lead s).2 c.toNat ∧
      (nextCodePoint lead s).1 = c.toNat ∧ (utf16EncodeChar c).length ≤ tails.length + 1 ∧
      chars (lead :: s) = c :: chars (nextCodePoint lead s).2 := by
  obtain ⟨tails, rest, split, _, after, taken⟩ := next_code_point_step lead s
  obtain ⟨c, number, shorter⟩ := taken_char lead tails rest _ taken
  rw [← number, ← after] at taken
  refine ⟨tails, c, by rw [after, ← split], taken, number.symm, shorter, ?_⟩
  rw [chars, codePoints, map_cons, ← number, Char.ofNat_toNat, chars]

theorem code_points_chars : (chars s).map Char.toNat = codePoints s := by
  induction s using codePoints.induct with
  | case1 => rw [chars_nil, codePoints, map_nil]
  | case2 lead s ih =>
    obtain ⟨_, c, _, _, number, _, split⟩ := chars_cons lead s
    rw [split, map_cons, ih, codePoints, number]

theorem chars_length : (utf16 (chars s)).length ≤ s.length := by
  induction s using codePoints.induct with
  | case1 => simp [chars_nil]
  | case2 lead s ih =>
    obtain ⟨tails, c, split, _, _, shorter, split_chars⟩ := chars_cons lead s
    have whole := congrArg List.length split
    rw [length_append] at whole
    rw [split_chars, utf16_cons, length_append, length_cons]
    omega

def store {α : Type} (unit : Nat) (enc : Char → List α) (d : Nat) : List Char → List α → Bool × List α
  | [], done => (false, done)
  | c :: cs, done =>
    if d < unit * (done.length + (enc c).length) then (true, done) else store unit enc d cs (done ++ enc c)

def stored {α : Type} (unit : Nat) (enc : Char → List α) (d : Nat) (cs : List Char) (done : List α) : Conversion α :=
  let r := store unit enc d cs done
  { failed := r.1, written := unit * r.2.length, dst := r.2 }

section
variable {α : Type} (unit : Nat) (enc : Char → List α) (d : Nat) (cs : List Char) (done : List α)
include α unit enc d cs done

theorem store_whole
    (room : unit * (done ++ cs.flatMap enc).length ≤ d) : store unit enc d cs done = (false, done ++ cs.flatMap enc) := by
  induction cs generalizing done with
  | nil => simp [store]
  | cons c cs ih =>
    have part : unit * (done.length + (enc c).length) ≤ unit * (done ++ (c :: cs).flatMap enc).length := by
      apply Nat.mul_le_mul_left
      simp only [flatMap_cons, length_append]
      omega
    rw [store, if_neg (by omega), ih (done ++ enc c) (by rwa [append_assoc, ← flatMap_cons]), append_assoc,
      ← flatMap_cons]

theorem store_start : ∃ taken, taken <+: cs ∧ (store unit enc d cs done).2 = done ++ taken.flatMap enc := by
  induction cs generalizing done with
  | nil => exact ⟨[], prefix_rfl, by simp [store]⟩
  | cons c cs ih =>
    rw [store]
    split
    · exact ⟨[], nil_prefix, by simp⟩
    · obtain ⟨taken, start, same⟩ := ih (done ++ enc c)
      refine ⟨c :: taken, cons_prefix_cons.mpr ⟨rfl, start⟩, ?_⟩
      rw [same, flatMap_cons, append_assoc]

theorem store_done (inside : unit * done.length ≤ d) (ended : (store unit enc d cs done).1 = false) :
    (store unit enc d cs done).2 = done ++ cs.flatMap enc ∧ unit * (done ++ cs.flatMap enc).length ≤ d := by
  induction cs generalizing done with
  | nil => simpa [store] using inside
  | cons c cs ih =>
    rw [store] at ended ⊢
    split at ended
    · cases ended
    · rename_i room
      rw [if_neg room, flatMap_cons, ← append_assoc]
      exact ih (done ++ enc c) (by rw [length_append]; omega) ended

end

theorem units_of_char (c : Char) : utf16EncodeChar c = if 0x10000 ≤ c.toNat then
      [UInt16.ofNat (0xD800 + (c.toNat - 0x10000) >>> 10), UInt16.ofNat (0xDC00 + ((c.toNat - 0x10000) &&& 0x3ff))]
    else [UInt16.ofNat c.toNat] := by
  have low : (c.toNat - 0x10000) &&& 0x3ff = (c.toNat - 0x10000) % 0x400 := and_two_pow_sub_one_eq_mod _ 10
  unfold utf16EncodeChar
  rw [low, shiftRight_eq_div_pow]
  split
  · rw [if_neg (by omega)]
  · rw [if_pos (by omega)]

theorem to_utf16_cons {dst : Option Nat} {lead : UInt8} {s : List UInt8} {out : Nat} {units : List UInt16} {c : Char}
    (number : (nextCodePoint lead s).1 = c.toNat) :
    toUtf16 dst (lead :: s) out units =
      if dst.any (· < out + 2 * (utf16EncodeChar c).length) then { failed := true, written := out, dst := units }
      else toUtf16 dst (nextCodePoint lead s).2 (ulong (out + 2 * (utf16EncodeChar c).length))
        (if dst.isSome then units ++ utf16EncodeChar c else units) := by
  rw [toUtf16, units_of_char, number]
  by_cases pair : 0x10000 ≤ c.toNat
  · rw [if_pos pair, if_pos pair]
    rfl
  · rw [if_neg pair, if_neg pair]
    rfl

theorem to_utf16_stored (d : Nat) (small : d < 2 ^ 32) (s : List UInt8) (units : List UInt16) (inside : 2 * units.length ≤ d) :
    toUtf16 (some d) s (2 * units.length) units = stored 2 utf16EncodeChar d (chars s) units := by
  induction s using codePoints.induct generalizing units with
  | case1 => rw [toUtf16, chars_nil, stored, store]
  | case2 lead s ih =>
    obtain ⟨_, c, _, _, number, _, split⟩ := chars_cons lead s
    rw [to_utf16_cons number, split, stored, store, ← mul_add]
    by_cases full : d < 2 * (units.length + (utf16EncodeChar c).length)
    · simp [full]
    · have room : 2 * (units ++ utf16EncodeChar c).length ≤ d := by
        rw [length_append]
        omega
      have whole : ulong (2 * (units.length + (utf16EncodeChar c).length)) = 2 * (units ++ utf16EncodeChar c).length := by
        rw [ulong, length_append, mod_eq_of_lt (by omega)]
      simp only [any_some, decide_eq_true_eq, full, if_false, isSome_some, if_true, whole]
      exact ih (units ++ utf16EncodeChar c) room

theorem to_utf16_sized (out : Nat) (small : out < 2 ^ 32) :
    toUtf16 none s out [] = { failed := false, written := ulong (out + 2 * (utf16 (chars s)).length), dst := [] } := by
  induction s using codePoints.induct generalizing out with
  | case1 =>
    rw [toUtf16, chars_nil, utf16_nil, ulong, mod_eq_of_lt (by simpa using small)]
    rfl
  | case2 lead s ih =>
    obtain ⟨_, c, _, _, number, _, split⟩ := chars_cons lead s
    have sum : ulong (ulong (out + 2 * (utf16EncodeChar c).length) + 2 * (utf16 (chars (nextCodePoint lead s).2)).length) =
        ulong (out + 2 * (utf16 (c :: chars (nextCodePoint lead s).2)).length) := by
      rw [utf16_cons, length_append, ulong, ulong, ulong, mod_add_mod, mul_add, add_assoc]
    rw [to_utf16_cons number, split, ← sum]
    exact ih _ (mod_lt _ (by decide))

end Spicule.Utf
