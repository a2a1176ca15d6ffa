import Mathlib

-- Characters as bytes and as 16-bit units. A lead byte announces how many continuation
-- bytes follow.
namespace Spicule.Utf8
open List UInt8
export String (utf8EncodeChar)

def Tail (b : UInt8) : Prop := 0x80 ≤ b.toNat ∧ b.toNat < 0xC0

instance : DecidablePred Tail := fun _ => inferInstanceAs (Decidable (_ ∧ _))

def announced (lead : UInt8) : Option Nat :=
  if lead.toNat < 0x80 then some 0
  else if lead.toNat < 0xC2 then none
  else if lead.toNat < 0xE0 then some 1
  else if lead.toNat < 0xF0 then some 2
  else if lead.toNat < 0xF5 then some 3
  else none

-- Four lead bytes take only some continuation bytes, or a character had two spellings or none.
def Second (lead b : UInt8) : Prop :=
  Tail b ∧ (lead.toNat = 0xE0 → 0xA0 ≤ b.toNat) ∧ (lead.toNat = 0xED → b.toNat < 0xA0) ∧
    (lead.toNat = 0xF0 → 0x90 ≤ b.toNat) ∧ (lead.toNat = 0xF4 → b.toNat < 0x90)

instance (lead b : UInt8) : Decidable (Second lead b) := inferInstanceAs (Decidable (_ ∧ _ ∧ _ ∧ _ ∧ _))

def Continues (lead : UInt8) : List UInt8 → Prop
  | [] => True
  | second :: rest => Second lead second ∧ ∀ b ∈ rest, Tail b

def leadBits (lead : UInt8) : Nat → Nat
  | 0 => lead.toNat
  | 1 => lead.toNat % 32
  | 2 => lead.toNat % 16
  | _ => lead.toNat % 8

def value (bits : Nat) (tails : List UInt8) : Nat := tails.foldl (fun v b => v * 64 + b.toNat % 64) bits

@[simp] theorem value_nil (bits : Nat) : value bits [] = bits := rfl

@[simp] theorem value_cons (bits : Nat) (b : UInt8) (tails : List UInt8) :
    value bits (b :: tails) = value (bits * 64 + b.toNat % 64) tails := rfl

theorem byte_cases (P : UInt8 → Prop) (all : ∀ n < 256, P (ofNat n)) (b : UInt8) : P b := by
  have one := all b.toNat (toNat_lt b)
  rwa [UInt8.ofNat_toNat] at one

variable (b : UInt8)
theorem tail_mark : b &&& 0xc0 = 0x80 ↔ Tail b :=
  byte_cases (fun b => b &&& 0xc0 = 0x80 ↔ Tail b) (by decide +kernel) b

theorem tail_bits : (b &&& 0x3f).toNat = b.toNat % 64 := by
  rw [UInt8.toNat_and]
  exact Nat.and_two_pow_sub_one_eq_mod b.toNat 6

theorem push_bits (v : Nat) (b : UInt8) : v <<< 6 ||| (b &&& 0x3f).toNat = v * 64 + b.toNat % 64 := by
  have small : b.toNat % 64 < 2 ^ 6 := Nat.mod_lt _ (by decide)
  rw [tail_bits, ← Nat.shiftLeft_add_eq_or_of_lt small, Nat.shiftLeft_eq]

theorem byte_of_nat {n : Nat} (same : n = b.toNat) : ofNat n = b := by
  rw [same, UInt8.ofNat_toNat]

variable (c : Char)
theorem char_valid : c.toNat < 0xD800 ∨ 0xDFFF < c.toNat ∧ c.toNat < 0x110000 := c.valid

theorem char_of_nat (n : Nat) (valid : n < 0xD800 ∨ 0xDFFF < n ∧ n < 0x110000) : ∃ c : Char, c.toNat = n :=
  ⟨Char.ofNatAux n valid, rfl⟩

theorem encode_spells :
    ∃ lead tails, utf8EncodeChar c = lead :: tails ∧ announced lead = some tails.length ∧ Continues lead tails ∧
      value (leadBits lead tails.length) tails = c.toNat := by
  have valid := char_valid c
  have nat : c.val.toNat = c.toNat := Char.toNat_val
  unfold utf8EncodeChar
  simp only [nat]
  generalize c.toNat = v at valid
  split
  · refine ⟨_, _, rfl, ?_, trivial, ?_⟩
    · simp only [announced, toNat_ofNat', length_nil]
      rw [if_pos (by omega)]
    · simp only [value_nil, length_nil, leadBits, toNat_ofNat']
      omega
  · split
    · refine ⟨_, _, rfl, ?_, ?_, ?_⟩
      · simp only [announced, toNat_ofNat', length_cons, length_nil]
        rw [if_neg (by omega), if_neg (by omega), if_pos (by omega)]
      · simp only [Continues, Second, Tail, toNat_ofNat', not_mem_nil, false_imp_iff, implies_true, and_true]
        omega
      · simp only [value_cons, value_nil, length_cons, length_nil, leadBits, toNat_ofNat']
        omega
    · split
      · refine ⟨_, _, rfl, ?_, ?_, ?_⟩
        · simp only [announced, toNat_ofNat', length_cons, length_nil]
          rw [if_neg (by omega), if_neg (by omega), if_neg (by omega), if_pos (by omega)]
        · simp only [Continues, Second, Tail, toNat_ofNat', mem_cons, not_mem_nil, or_false, forall_eq]
          omega
        · simp only [value_cons, value_nil, length_cons, length_nil, leadBits, toNat_ofNat']
          omega
      · refine ⟨_, _, rfl, ?_, ?_, ?_⟩
        · simp only [announced, toNat_ofNat', length_cons, length_nil]
          rw [if_neg (by omega), if_neg (by omega), if_neg (by omega), if_neg (by omega), if_pos (by omega)]
        · simp only [Continues, Second, Tail, toNat_ofNat', mem_cons, not_mem_nil, or_false, forall_eq_or_imp,
            forall_eq]
          omega
        · simp only [value_cons, value_nil, length_cons, length_nil, leadBits, toNat_ofNat']
          omega

variable (lead : UInt8) (n : Nat)
theorem announced_iff :
    announced lead = some n ↔ n = 0 ∧ lead.toNat < 0x80 ∨ n = 1 ∧ 0xC2 ≤ lead.toNat ∧ lead.toNat < 0xE0 ∨
      n = 2 ∧ 0xE0 ≤ lead.toNat ∧ lead.toNat < 0xF0 ∨ n = 3 ∧ 0xF0 ≤ lead.toNat ∧ lead.toNat < 0xF5 := by
  unfold announced
  repeat' split
  all_goals simp only [Option.some.injEq, reduceCtorEq]
  all_goals constructor
  all_goals intro given
  all_goals first | exact given.elim | omega

variable (tails : List UInt8)
theorem spells_encode (starts : announced lead = some tails.length) (follow : Continues lead tails) :
    ∃ c : Char, c.toNat = value (leadBits lead tails.length) tails ∧ utf8EncodeChar c = lead :: tails := by
  have small := toNat_lt lead
  rcases (announced_iff _ _).mp starts with ⟨none, range⟩ | ⟨one, low, high⟩ | ⟨two, low, high⟩ | ⟨three, low, high⟩
  · obtain rfl := eq_nil_of_length_eq_zero none
    obtain ⟨c, same⟩ := char_of_nat lead.toNat (by omega)
    refine ⟨c, same, ?_⟩
    unfold utf8EncodeChar
    simp only [Char.toNat_val, same]
    rw [if_pos (by omega), UInt8.ofNat_toNat]
  · obtain ⟨a, rfl⟩ := length_eq_one_iff.mp one
    simp only [Continues, Second, Tail] at follow
    simp only [length_singleton, value_cons, value_nil, leadBits]
    obtain ⟨c, same⟩ := char_of_nat (lead.toNat % 32 * 64 + a.toNat % 64) (by omega)
    refine ⟨c, same, ?_⟩
    unfold utf8EncodeChar
    simp only [Char.toNat_val, same]
    rw [if_neg (by omega), if_pos (by omega), byte_of_nat lead (by omega), byte_of_nat a (by omega)]
  · obtain ⟨a, b, rfl⟩ := length_eq_two.mp two
    simp only [Continues, Second, Tail, mem_singleton, forall_eq] at follow
    simp only [length_cons, length_nil, value_cons, value_nil, leadBits]
    obtain ⟨c, same⟩ := char_of_nat ((lead.toNat % 16 * 64 + a.toNat % 64) * 64 + b.toNat % 64) (by omega)
    refine ⟨c, same, ?_⟩
    unfold utf8EncodeChar
    simp only [Char.toNat_val, same]
    rw [if_neg (by omega), if_neg (by omega), if_pos (by omega), byte_of_nat lead (by omega), byte_of_nat a (by omega),
      byte_of_nat b (by omega)]
  · obtain ⟨a, b, d, rfl⟩ := length_eq_three.mp three
    simp only [Continues, Second, Tail, mem_cons, not_mem_nil, or_false, forall_eq_or_imp, forall_eq] at follow
    simp only [length_cons, length_nil, value_cons, value_nil, leadBits]
    obtain ⟨c, same⟩ := char_of_nat (((lead.toNat % 8 * 64 + a.toNat % 64) * 64 + b.toNat % 64) * 64 + d.toNat % 64) (by omega)
    refine ⟨c, same, ?_⟩
    unfold utf8EncodeChar
    simp only [Char.toNat_val, same]
    rw [if_neg (by omega), if_neg (by omega), if_neg (by omega), byte_of_nat lead (by omega), byte_of_nat a (by omega),
      byte_of_nat b (by omega), byte_of_nat d (by omega)]

theorem announced_le (starts : announced lead = some n) : n ≤ 3 := by
  rcases (announced_iff _ _).mp starts with ⟨rfl, _⟩ | ⟨rfl, _⟩ | ⟨rfl, _⟩ | ⟨rfl, _⟩ <;> omega

theorem continues_take (follow : Continues lead tails) {p : List UInt8} (start : p <+: tails) : Continues lead p := by
  obtain ⟨rest, rfl⟩ := start
  cases p with
  | nil => trivial
  | cons second p => exact ⟨follow.1, fun b mem => follow.2 b (mem_append_left rest mem)⟩

theorem continues_tail (follow : Continues lead tails) : ∀ b ∈ tails, Tail b := by
  cases tails with
  | nil => simp
  | cons second rest =>
    intro b mem
    rcases mem_cons.mp mem with rfl | later
    · exact follow.1.1
    · exact follow.2 b later

variable (rest : List UInt8)
theorem run_within {run : List UInt8} (start : run <+: tails ++ rest) (all : ∀ b ∈ run, Tail b)
    (stop : ∀ b ∈ rest.head?, ¬Tail b) : run.length ≤ tails.length := by
  by_contra longer
  obtain ⟨more, split⟩ := prefix_of_prefix_length_le (prefix_append tails rest) start (Nat.le_of_lt (Nat.not_le.mp longer))
  rw [← split, length_append] at longer
  rw [← split] at start all
  have start' := (prefix_append_right_inj tails).mp start
  cases more with
  | nil => exact longer (le_refl _)
  | cons b more =>
    obtain ⟨after, rfl⟩ := start'
    exact stop b rfl (all b (mem_append_right _ mem_cons_self))

theorem encode_unique {d : Char} {x y : List UInt8}
    (same : utf8EncodeChar c ++ x = utf8EncodeChar d ++ y) : c = d ∧ x = y := by
  obtain ⟨lead, tails, spelled, starts, _, number⟩ := encode_spells c
  obtain ⟨lead', tails', spelled', starts', _, number'⟩ := encode_spells d
  rw [spelled, spelled', cons_append, cons_append, List.cons.injEq] at same
  obtain ⟨rfl, rest⟩ := same
  rw [starts, Option.some.injEq] at starts'
  obtain ⟨rfl, rfl⟩ := append_inj rest starts'
  exact ⟨Char.toNat_inj.mp (number.symm.trans number'), rfl⟩

theorem no_char_of_silent (s : List UInt8) (silent : announced lead = none) (c : Char) :
    ¬utf8EncodeChar c <+: lead :: s := by
  intro start
  obtain ⟨lead', run, spelled, starts, _, _⟩ := encode_spells c
  rw [spelled, cons_prefix_cons] at start
  rw [start.1, silent] at starts
  cases starts

def Viable (p : List UInt8) : Prop := ∃ c : Char, p <+: utf8EncodeChar c

def secondOf (lead : UInt8) : UInt8 := if lead.toNat = 0xE0 then 0xA0 else if lead.toNat = 0xF0 then 0x90 else 0x80

theorem second_of_spec : Second lead (secondOf lead) := by
  unfold secondOf Second Tail
  split
  · rename_i e0
    rw [e0]
    decide
  · split
    · rename_i f0
      rw [f0]
      decide
    · rename_i not_e0 not_f0
      refine ⟨by decide, fun e0 => absurd e0 not_e0, fun _ => by decide, fun f0 => absurd f0 not_f0, fun _ => by decide⟩

variable (p : List UInt8)
theorem continues_extend (follow : Continues lead p) (n : Nat) (room : p.length ≤ n) :
    ∃ tails, tails.length = n ∧ Continues lead tails ∧ p <+: tails := by
  have tail : Tail 0x80 := by decide
  cases p with
  | nil =>
    cases n with
    | zero => exact ⟨[], rfl, trivial, prefix_rfl⟩
    | succ n =>
      refine ⟨secondOf lead :: List.replicate n 0x80, by simp, ⟨second_of_spec lead, ?_⟩, nil_prefix⟩
      intro b mem
      rw [eq_of_mem_replicate mem]
      exact tail
  | cons second p =>
    refine ⟨second :: (p ++ List.replicate (n - (p.length + 1)) 0x80), ?_, ⟨follow.1, ?_⟩,
      cons_prefix_cons.mpr ⟨rfl, prefix_append _ _⟩⟩
    · simp only [length_cons] at room
      simp only [length_append, length_cons, length_replicate]
      omega
    · intro b mem
      rcases mem_append.mp mem with old | padding
      · exact follow.2 b old
      · rw [eq_of_mem_replicate padding]
        exact tail

theorem viable_iff : Viable (lead :: p) ↔ ∃ n, announced lead = some n ∧ p.length ≤ n ∧ Continues lead p := by
  constructor
  · rintro ⟨c, start⟩
    obtain ⟨lead', tails, spelled, starts, follow, _⟩ := encode_spells c
    rw [spelled, cons_prefix_cons] at start
    obtain ⟨rfl, start⟩ := start
    exact ⟨tails.length, starts, start.length_le, continues_take lead tails follow start⟩
  · rintro ⟨n, starts, room, follow⟩
    obtain ⟨tails, full, continued, start⟩ := continues_extend lead p follow n room
    obtain ⟨c, _, spelled⟩ := spells_encode lead tails (by rw [starts, full]) continued
    refine ⟨c, ?_⟩
    rw [spelled]
    exact cons_prefix_cons.mpr ⟨rfl, start⟩

def utf16EncodeChar (c : Char) : List UInt16 :=
  if c.toNat < 0x10000 then [UInt16.ofNat c.toNat]
  else [UInt16.ofNat (0xD800 + (c.toNat - 0x10000) / 0x400), UInt16.ofNat (0xDC00 + (c.toNat - 0x10000) % 0x400)]

theorem utf16_length_le : (utf16EncodeChar c).length ≤ (utf8EncodeChar c).length := by
  unfold utf16EncodeChar utf8EncodeChar
  simp only [Char.toNat_val]
  repeat' split
  all_goals simp only [length_cons, length_nil]
  all_goals omega

theorem utf8_length_le : (utf8EncodeChar c).length ≤ 3 * (utf16EncodeChar c).length := by
  unfold utf16EncodeChar utf8EncodeChar
  simp only [Char.toNat_val]
  repeat' split
  all_goals simp only [length_cons, length_nil]
  all_goals omega

theorem utf16_nonempty : 1 ≤ (utf16EncodeChar c).length := by
  unfold utf16EncodeChar
  split <;> simp

theorem utf16_length_le_two : (utf16EncodeChar c).length ≤ 2 := by
  unfold utf16EncodeChar
  split <;> simp

def utf8 (cs : List Char) : List UInt8 := cs.flatMap utf8EncodeChar

def utf16 (cs : List Char) : List UInt16 := cs.flatMap utf16EncodeChar

@[simp] theorem utf8_nil : utf8 [] = [] := rfl

variable (cs : List Char)

@[simp] theorem utf8_cons : utf8 (c :: cs) = utf8EncodeChar c ++ utf8 cs := flatMap_cons

@[simp] theorem utf16_nil : utf16 [] = [] := rfl

@[simp] theorem utf16_cons : utf16 (c :: cs) = utf16EncodeChar c ++ utf16 cs := flatMap_cons

def Valid8 (s : List UInt8) : Prop := ∃ cs, s = utf8 cs

def Valid16 (w : List UInt16) : Prop := ∃ cs, w = utf16 cs

def replacement : Char := Char.ofNat 0xFFFD

-- The longest start of a string that starts a character, or its first byte.
structure MaximalSubpart (p rest : List UInt8) : Prop where
  nonempty : p ≠ []
  start : p.length = 1 ∨ Viable p
  longest : ∀ q, q <+: p ++ rest → p.length < q.length → ¬Viable q

theorem subpart_stops (start : tails = [] ∨ Viable (lead :: tails))
    (stop : announced lead = none ∨ ∀ b ∈ rest.head?, ¬Tail b) : MaximalSubpart (lead :: tails) rest where
  nonempty := cons_ne_nil _ _
  start := by
    rcases start with rfl | viable
    · exact Or.inl rfl
    · exact Or.inr viable
  longest := by
    intro q taken longer viable
    cases q with
    | nil => cases longer
    | cons lead' q =>
      rw [cons_append, cons_prefix_cons] at taken
      obtain ⟨rfl, taken⟩ := taken
      obtain ⟨n, starts, _, follow⟩ := (viable_iff lead' q).mp viable
      rcases stop with silent | stop
      · rw [silent] at starts
        cases starts
      · have short := run_within tails rest taken (continues_tail lead' q follow) stop
        simp only [length_cons] at longer
        omega

-- The characters of a string; each maximal subpart of what is none is U+FFFD.
inductive Replaced : List UInt8 → List Char → Prop where
  | nil : Replaced [] []
  | char (c : Char) (rest : List UInt8) (cs : List Char) : Replaced rest cs → Replaced (utf8EncodeChar c ++ rest) (c :: cs)
  | subpart (p rest : List UInt8) (cs : List Char) : (∀ c, ¬utf8EncodeChar c <+: p ++ rest) → MaximalSubpart p rest →
      Replaced rest cs → Replaced (p ++ rest) (replacement :: cs)

theorem subpart_unique {p' rest rest' : List UInt8} (part : MaximalSubpart p rest) (part' : MaximalSubpart p' rest')
    (same : p ++ rest = p' ++ rest') : p = p' ∧ rest = rest' := by
  have shorter (q q' more more' : List UInt8) (qpart : MaximalSubpart q more) (qpart' : MaximalSubpart q' more')
      (whole : q ++ more = q' ++ more') : q'.length ≤ q.length := by
    by_contra longer
    have some_byte := length_pos_of_ne_nil qpart.nonempty
    rcases qpart'.start with one | viable
    · omega
    · exact qpart.longest q' (whole ▸ prefix_append q' more') (Nat.not_le.mp longer) viable
  have order := shorter p p' rest rest' part part' same
  have order' := shorter p' p rest' rest part' part same.symm
  exact append_inj same (Nat.le_antisymm order' order)

theorem replaced_char (given : Replaced (utf8EncodeChar c ++ rest) cs) :
    ∃ cs', cs = c :: cs' ∧ Replaced rest cs' := by
  generalize whole : utf8EncodeChar c ++ rest = s at given
  cases given with
  | nil =>
    obtain ⟨lead, tails, spelled, _⟩ := encode_spells c
    rw [spelled] at whole
    cases whole
  | char c' rest' cs' after =>
    obtain ⟨rfl, rfl⟩ := encode_unique c whole
    exact ⟨cs', rfl, after⟩
  | subpart p rest' cs' none _ _ =>
    refine absurd ?_ (none c)
    rw [← whole]
    exact prefix_append _ _

theorem replaced_subpart (p rest : List UInt8) (cs : List Char) (none : ∀ c, ¬utf8EncodeChar c <+: p ++ rest)
    (part : MaximalSubpart p rest) (given : Replaced (p ++ rest) cs) : ∃ cs', cs = replacement :: cs' ∧ Replaced rest cs' := by
  generalize whole : p ++ rest = s at given
  cases given with
  | nil => exact absurd (append_eq_nil_iff.mp whole).1 part.nonempty
  | char c rest' cs' _ =>
    refine absurd ?_ (none c)
    rw [whole]
    exact prefix_append _ _
  | subpart p' rest' cs' _ part' after =>
    obtain ⟨rfl, rfl⟩ := subpart_unique p part part' whole
    exact ⟨cs', rfl, after⟩

end Spicule.Utf8
