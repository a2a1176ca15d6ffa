import Spicule.Utf.Encode

namespace Spicule.Utf
open List Option Nat Utf8

structure Mbstate where
  opaque1 : Nat
  opaque2 : Nat
deriving DecidableEq

def Mbstate.init : Mbstate := { opaque1 := 0, opaque2 := 0 }

-- (size_t)-1 with EILSEQ, (size_t)-2, (size_t)-3, or a number of bytes.
inductive Ret where
  | ilseq
  | incomplete
  | fromState
  | used (n : Nat)
deriving DecidableEq

structure Answer where
  ret : Ret
  wc : Option UInt16
  st : Mbstate
deriving DecidableEq

def ilseq : Answer := { ret := .ilseq, wc := none, st := .init }

-- The second byte rules out overlong forms and what is out of range.
def TooEarly (total cp : Nat) : Prop := total = 3 ∧ cp < 0x20 ∨ total = 4 ∧ (cp < 0x10 ∨ 0x10f < cp)

instance (total cp : Nat) : Decidable (TooEarly total cp) := inferInstanceAs (Decidable (_ ∨ _))

def finish (cp used : Nat) : Answer :=
  if 0xd800 ≤ cp ∧ cp < 0xe000 then ilseq
  else if 0x10000 ≤ cp then
    { ret := .used used, wc := some (UInt16.ofNat (0xd800 + (cp - 0x10000) >>> 10)),
      st := { opaque1 := 0, opaque2 := 0xdc00 + ((cp - 0x10000) &&& 0x3ff) } }
  else { ret := .used used, wc := some (UInt16.ofNat cp), st := .init }

def sequence : Nat → Nat → Nat → Nat → List UInt8 → Answer
  | 0, cp, _, used, _ => finish cp used
  | need + 1, cp, seen, _, [] =>
    { ret := .incomplete, wc := none, st := { opaque1 := cp <<< 8 ||| (need + 1) <<< 4 ||| seen, opaque2 := 0 } }
  | need + 1, cp, seen, used, c :: p =>
    if c &&& 0xc0 ≠ 0x80 then ilseq
    else
      let cp' := cp <<< 6 ||| (c &&& 0x3f).toNat
      if seen + 1 = 2 ∧ TooEarly (need + 2) cp' then ilseq else sequence need cp' (seen + 1) (used + 1) p

def mbrtowc (s : List UInt8) (st : Mbstate) : Answer :=
  if st.opaque2 ≠ 0 then { ret := .fromState, wc := some (UInt16.ofNat st.opaque2), st := { st with opaque2 := 0 } }
  else
    match s with
    | [] => { ret := .incomplete, wc := none, st }
    | c :: p =>
      if st.opaque1 ≠ 0 then sequence (st.opaque1 >>> 4 &&& 0xf) (st.opaque1 >>> 8) (st.opaque1 &&& 0xf) 0 (c :: p)
      else if c < 0x80 then { ret := .used (if c = 0 then 0 else 1), wc := some (UInt16.ofNat c.toNat), st }
      else if c < 0xc2 ∨ 0xf4 < c then ilseq
      else if c < 0xe0 then sequence 1 (c &&& 0x1f).toNat 1 1 p
      else if c < 0xf0 then sequence 2 (c &&& 0x0f).toNat 1 1 p
      else sequence 3 (c &&& 0x07).toNat 1 1 p

-- The second bytes that pass: after ED also those of a surrogate.
def Passes (lead b : UInt8) : Prop :=
  Tail b ∧ (lead.toNat = 0xE0 → 0xA0 ≤ b.toNat) ∧ (lead.toNat = 0xF0 → 0x90 ≤ b.toNat) ∧ (lead.toNat = 0xF4 → b.toNat < 0x90)

instance (lead b : UInt8) : Decidable (Passes lead b) := inferInstanceAs (Decidable (_ ∧ _ ∧ _ ∧ _))

def Kept (lead : UInt8) : List UInt8 → Prop
  | [] => True
  | second :: rest => Passes lead second ∧ ∀ b ∈ rest, Tail b

variable (lead : UInt8) (p : List UInt8)
theorem mbrtowc_lead : mbrtowc (lead :: p) .init = match announced lead with
      | none => ilseq
      | some 0 => { ret := .used (if lead = 0 then 0 else 1), wc := some (UInt16.ofNat lead.toNat), st := .init }
      | some (n + 1) => sequence (n + 1) (leadBits lead (n + 1)) 1 1 p := by
  have five : (lead &&& 0x1f).toNat = lead.toNat % 32 := by
    rw [UInt8.toNat_and]
    exact and_two_pow_sub_one_eq_mod lead.toNat 5
  have four : (lead &&& 0x0f).toNat = lead.toNat % 16 := by
    rw [UInt8.toNat_and]
    exact and_two_pow_sub_one_eq_mod lead.toNat 4
  have three : (lead &&& 0x07).toNat = lead.toNat % 8 := by
    rw [UInt8.toNat_and]
    exact and_two_pow_sub_one_eq_mod lead.toNat 3
  unfold mbrtowc announced
  simp only [Mbstate.init, ne_eq, not_true_eq_false, if_false, five, four, three, UInt8.lt_iff_toNat_lt]
  have c2 : (0xc2 : UInt8).toNat = 0xc2 := rfl
  have f4 : (0xf4 : UInt8).toNat = 0xf4 := rfl
  have e0 : (0xe0 : UInt8).toNat = 0xe0 := rfl
  have f0 : (0xf0 : UInt8).toNat = 0xf0 := rfl
  have ascii : (0x80 : UInt8).toNat = 0x80 := rfl
  rw [c2, f4, e0, f0, ascii]
  by_cases one : lead.toNat < 0x80
  · rw [if_pos one, if_pos one]
  · rw [if_neg one, if_neg one]
    by_cases outside : lead.toNat < 0xc2 ∨ 0xf4 < lead.toNat
    · rw [if_pos outside]
      rcases outside with low | high
      · rw [if_pos low]
      · rw [if_neg (by omega), if_neg (by omega), if_neg (by omega), if_neg (by omega)]
    · rw [if_neg outside, if_neg (by omega : ¬lead.toNat < 0xc2)]
      by_cases two : lead.toNat < 0xe0
      · rw [if_pos two, if_pos two]
        rfl
      · rw [if_neg two, if_neg two]
        by_cases middle : lead.toNat < 0xf0
        · rw [if_pos middle, if_pos middle]
          rfl
        · rw [if_neg middle, if_neg middle, if_pos (by omega)]
          rfl

theorem sequence_rest (need cp seen used : Nat) (s : List UInt8) (late : 2 ≤ seen) :
    ∃ run rest, s = run ++ rest ∧ (∀ b ∈ run, Tail b) ∧
      (run.length = need ∧ sequence need cp seen used s = finish (value cp run) (used + need) ∨
        run.length < need ∧ rest = [] ∧ sequence need cp seen used s = { ret := .incomplete, wc := none, st :=
          { opaque1 := value cp run <<< 8 ||| (need - run.length) <<< 4 ||| (seen + run.length), opaque2 := 0 } } ∨
        run.length < need ∧ (∃ b ∈ rest.head?, ¬Tail b) ∧ sequence need cp seen used s = ilseq) := by
  induction need generalizing cp seen used s with
  | zero => exact ⟨[], s, rfl, by simp, Or.inl ⟨rfl, rfl⟩⟩
  | succ need ih =>
    cases s with
    | nil => exact ⟨[], [], rfl, by simp, Or.inr (Or.inl ⟨succ_pos _, rfl, rfl⟩)⟩
    | cons c p =>
      by_cases tail : Tail c
      · have step : sequence (need + 1) cp seen used (c :: p) = sequence need (cp * 64 + c.toNat % 64) (seen + 1) (used + 1) p := by
          rw [sequence, if_neg (not_not.mpr ((tail_mark c).mpr tail))]
          simp only [push_bits]
          rw [if_neg (by omega)]
        obtain ⟨run, rest, split, all, shape⟩ := ih (cp * 64 + c.toNat % 64) (seen + 1) (used + 1) p (by omega)
        refine ⟨c :: run, rest, by rw [split, cons_append], ?_, ?_⟩
        · intro b mem
          rcases mem_cons.mp mem with rfl | later
          · exact tail
          · exact all b later
        · rw [step, length_cons, value_cons]
          rcases shape with ⟨full, done⟩ | ⟨short, ended, kept⟩ | ⟨short, bad, refused⟩
          · exact Or.inl ⟨by omega, by rw [done, add_assoc, add_comm 1]⟩
          · refine Or.inr (Or.inl ⟨by omega, ended, ?_⟩)
            rw [kept, Nat.add_sub_add_right, Nat.add_assoc, Nat.add_comm 1]
          · exact Or.inr (Or.inr ⟨by omega, bad, refused⟩)
      · refine ⟨[], c :: p, rfl, by simp, Or.inr (Or.inr ⟨succ_pos _, ⟨c, rfl, tail⟩, ?_⟩)⟩
        rw [sequence, if_pos (mt (tail_mark c).mp tail)]

variable (b : UInt8) (n : Nat)
theorem second_passes (starts : announced lead = some (n + 1)) (tail : Tail b) :
    ¬TooEarly (n + 2) (leadBits lead (n + 1) * 64 + b.toNat % 64) ↔ Passes lead b := by
  have low := tail.1
  have high := tail.2
  rcases (announced_iff _ _).mp starts with ⟨none, _⟩ | ⟨one, range⟩ | ⟨two, range⟩ | ⟨three, range⟩
  · cases none
  · obtain rfl : n = 0 := by omega
    simp only [TooEarly, Passes, leadBits, tail, true_and]
    omega
  · obtain rfl : n = 1 := by omega
    simp only [TooEarly, Passes, leadBits, tail, true_and]
    omega
  · obtain rfl : n = 2 := by omega
    simp only [TooEarly, Passes, leadBits, tail, true_and]
    omega

theorem sequence_first (p : List UInt8) (starts : announced lead = some (n + 1)) :
    ∃ run rest, p = run ++ rest ∧ Kept lead run ∧
      (run.length = n + 1 ∧ sequence (n + 1) (leadBits lead (n + 1)) 1 1 p = finish (value (leadBits lead (n + 1)) run) (n + 2) ∨
        run.length < n + 1 ∧ rest = [] ∧ sequence (n + 1) (leadBits lead (n + 1)) 1 1 p = { ret := .incomplete, wc := none, st :=
          { opaque1 := value (leadBits lead (n + 1)) run <<< 8 ||| (n + 1 - run.length) <<< 4 ||| (1 + run.length), opaque2 := 0 } } ∨
        run.length < n + 1 ∧ (∃ b ∈ rest.head?, ¬Kept lead (run ++ [b])) ∧
          sequence (n + 1) (leadBits lead (n + 1)) 1 1 p = ilseq) := by
  cases p with
  | nil => exact ⟨[], [], rfl, trivial, Or.inr (Or.inl ⟨succ_pos _, rfl, rfl⟩)⟩
  | cons b p =>
    by_cases tail : Tail b
    · have early := second_passes lead b n starts tail
      have step : sequence (n + 1) (leadBits lead (n + 1)) 1 1 (b :: p) =
          if TooEarly (n + 2) (leadBits lead (n + 1) * 64 + b.toNat % 64) then ilseq
          else sequence n (leadBits lead (n + 1) * 64 + b.toNat % 64) 2 2 p := by
        rw [sequence, if_neg (not_not.mpr ((tail_mark b).mpr tail))]
        simp only [push_bits, reduceAdd, true_and]
      by_cases passes : Passes lead b
      · rw [if_neg (early.mpr passes)] at step
        obtain ⟨run, rest, split, all, shape⟩ := sequence_rest n (leadBits lead (n + 1) * 64 + b.toNat % 64) 2 2 p (le_refl 2)
        refine ⟨b :: run, rest, by rw [split, cons_append], ⟨passes, all⟩, ?_⟩
        rw [step, length_cons, value_cons]
        rcases shape with ⟨full, done⟩ | ⟨short, ended, kept⟩ | ⟨short, ⟨x, first, bad⟩, refused⟩
        · exact Or.inl ⟨by omega, by rw [done, add_comm 2]⟩
        · refine Or.inr (Or.inl ⟨by omega, ended, ?_⟩)
          rw [kept, Nat.add_sub_add_right, Nat.add_comm run.length 1, ← Nat.add_assoc]
        · refine Or.inr (Or.inr ⟨by omega, ⟨x, first, ?_⟩, refused⟩)
          intro kept
          exact bad (kept.2 x (mem_append_right _ (mem_singleton_self x)))
      · rw [if_pos (not_not.mp (mt early.mp passes))] at step
        exact ⟨[], b :: p, rfl, trivial, Or.inr (Or.inr ⟨succ_pos _, ⟨b, rfl, fun kept => passes kept.1⟩, step⟩)⟩
    · refine ⟨[], b :: p, rfl, trivial, Or.inr (Or.inr ⟨succ_pos _, ⟨b, rfl, fun kept => tail kept.1.1⟩, ?_⟩)⟩
      rw [sequence, if_pos (mt (tail_mark b).mp tail)]

def delivered (c : Char) : Answer where
  ret := .used (if c.toNat = 0 then 0 else (utf8EncodeChar c).length)
  wc := (utf16EncodeChar c).head?
  st := { opaque1 := 0, opaque2 := ((utf16EncodeChar c).getD 1 0).toNat }

theorem finish_char (c : Char) (used : Nat) : finish c.toNat used =
      { ret := .used used, wc := (utf16EncodeChar c).head?, st := { opaque1 := 0, opaque2 := ((utf16EncodeChar c).getD 1 0).toNat } } := by
  have valid := char_valid c
  rw [finish, if_neg (by omega), units_of_char]
  by_cases pair : 0x10000 ≤ c.toNat
  · have low : (c.toNat - 0x10000) &&& 0x3ff = (c.toNat - 0x10000) % 0x400 := and_two_pow_sub_one_eq_mod _ 10
    rw [if_pos pair, if_pos pair, low]
    simp only [head?_cons, getD_cons_succ, getD_cons_zero, UInt16.toNat_ofNat', Answer.mk.injEq, Mbstate.mk.injEq,
      true_and]
    omega
  · rw [if_neg pair, if_neg pair]
    rfl

theorem kept_surrogate {run : List UInt8} (starts : announced lead = some run.length) (kept : Kept lead run)
    (bad : ¬Continues lead run) (used : Nat) : finish (value (leadBits lead run.length) run) used = ilseq := by
  cases run with
  | nil => exact absurd trivial bad
  | cons a run =>
    have range := (announced_iff _ _).mp starts
    have tail := kept.1.1
    have passes := kept.1
    have refused : ¬Second lead a := fun second => bad ⟨second, kept.2⟩
    have ed : lead.toNat = 0xED ∧ 0xA0 ≤ a.toNat := by
      simp only [Second, Passes] at refused passes
      grind
    have length : run.length = 1 := by
      simp only [length_cons] at range
      omega
    obtain ⟨b, rfl⟩ := length_eq_one_iff.mp length
    have high := tail.2
    rw [finish, if_pos]
    simp only [length_cons, length_nil, leadBits, value_cons, value_nil]
    omega

inductive Read : List UInt8 → Answer → Prop where
  | empty : Read [] { ret := .incomplete, wc := none, st := .init }
  | char (c : Char) (rest : List UInt8) : Read (utf8EncodeChar c ++ rest) (delivered c)
  | pending (lead : UInt8) (tails : List UInt8) (n : Nat) (starts : announced lead = some n) (short : tails.length < n)
      (kept : Kept lead tails) : Read (lead :: tails) { ret := .incomplete, wc := none, st :=
        { opaque1 := value (leadBits lead n) tails <<< 8 ||| (n - tails.length) <<< 4 ||| (1 + tails.length), opaque2 := 0 } }
  | refused (lead : UInt8) (p : List UInt8) (none : ∀ c, ¬utf8EncodeChar c <+: lead :: p) (dead : ¬Viable (lead :: p)) :
      Read (lead :: p) ilseq

variable (tails : List UInt8)
theorem kept_of_continues (follow : Continues lead tails) : Kept lead tails := by
  cases tails with
  | nil => trivial
  | cons second rest => exact ⟨⟨follow.1.1, follow.1.2.1, follow.1.2.2.2.1, follow.1.2.2.2.2⟩, follow.2⟩

theorem refused_dead {run rest : List UInt8} {n : Nat} (starts : announced lead = some n) (short : run.length < n)
    {b : UInt8} (first : b ∈ rest.head?) (bad : ¬Kept lead (run ++ [b])) :
    (∀ c, ¬utf8EncodeChar c <+: lead :: (run ++ rest)) ∧ ¬Viable (lead :: (run ++ rest)) := by
  obtain ⟨more, rfl⟩ : ∃ more, rest = b :: more := by
    cases rest with
    | nil => cases first
    | cons x more =>
      rw [head?_cons, mem_some_iff] at first
      exact ⟨more, by rw [first]⟩
  have start : run ++ [b] <+: run ++ b :: more := by
    rw [prefix_append_right_inj]
    exact cons_prefix_cons.mpr ⟨rfl, nil_prefix⟩
  constructor
  · intro c taken
    obtain ⟨lead', tails, spelled, starts', follow, _⟩ := encode_spells c
    rw [spelled, cons_prefix_cons] at taken
    obtain ⟨rfl, taken⟩ := taken
    rw [starts, some.injEq] at starts'
    have inside := prefix_of_prefix_length_le start taken (by rw [length_append, length_singleton]; omega)
    exact bad (kept_of_continues _ _ (continues_take _ tails follow inside))
  · intro viable
    obtain ⟨_, _, _, follow⟩ := (viable_iff lead _).mp viable
    exact bad (kept_of_continues _ _ (continues_take lead _ follow start))

theorem silent_dead (silent : announced lead = none) : ¬Viable (lead :: p) := by
  intro viable
  obtain ⟨n, starts, _⟩ := (viable_iff lead p).mp viable
  rw [silent] at starts
  cases starts

theorem read_full {run : List UInt8} (rest : List UInt8) (starts : announced lead = some run.length) (kept : Kept lead run)
    (long : run ≠ []) :
    Read (lead :: (run ++ rest)) (finish (value (leadBits lead run.length) run) (run.length + 1)) := by
  by_cases follow : Continues lead run
  · obtain ⟨c, number, spelled⟩ := spells_encode lead run starts follow
    have nonzero : c.toNat ≠ 0 := by
      intro zero
      obtain rfl : c = Char.ofNat 0 := Char.toNat_inj.mp zero
      have single : lead :: run = [0] := spelled.symm
      exact long (List.cons.inj single).2
    have same : delivered c = finish c.toNat (run.length + 1) := by
      rw [finish_char, delivered, if_neg nonzero, spelled, length_cons]
    rw [← number, ← same, ← cons_append, ← spelled]
    exact .char c rest
  · rw [kept_surrogate lead starts kept follow]
    refine .refused lead _ ?_ ?_
    · intro c taken
      obtain ⟨lead', tails, spelled, starts', follow', _⟩ := encode_spells c
      rw [spelled, cons_prefix_cons] at taken
      obtain ⟨rfl, taken⟩ := taken
      rw [starts, some.injEq] at starts'
      have inside := prefix_of_prefix_length_le (prefix_append run rest) taken (le_of_eq starts')
      exact follow (continues_take _ tails follow' inside)
    · intro viable
      obtain ⟨_, _, _, all⟩ := (viable_iff lead _).mp viable
      exact follow (continues_take lead _ all (prefix_append run rest))

theorem mbrtowc_read (s : List UInt8) : Read s (mbrtowc s .init) := by
  cases s with
  | nil => exact .empty
  | cons lead p =>
    rw [mbrtowc_lead]
    cases starts : announced lead with
    | none => exact .refused lead p (no_char_of_silent lead p starts) (silent_dead lead p starts)
    | some n =>
      cases n with
      | zero =>
        obtain ⟨c, number, spelled⟩ := spells_encode lead [] starts trivial
        have same : delivered c = { ret := .used (if lead = 0 then 0 else 1), wc := some (UInt16.ofNat lead.toNat), st := .init } := by
          have small : c.toNat < 0x10000 := by
            have range := UInt8.toNat_lt lead
            have value : c.toNat = lead.toNat := number
            omega
          have zero : c.toNat = 0 ↔ lead = 0 := by
            rw [show c.toNat = lead.toNat from number, ← UInt8.toNat_inj]
            rfl
          simp only [delivered, spelled, utf16EncodeChar, small, if_true, zero]
          rw [show c.toNat = lead.toNat from number]
          rfl
        simp only
        rw [← same, ← singleton_append, ← spelled]
        exact .char c p
      | succ n =>
        obtain ⟨run, rest, split, kept, shape⟩ := sequence_first lead n p starts
        simp only
        rcases shape with ⟨full, done⟩ | ⟨short, rfl, held⟩ | ⟨short, ⟨b, first, bad⟩, refused⟩
        · have read := read_full lead rest (by rw [starts, full]) kept (by rintro rfl; cases full)
          rw [full] at read
          rw [done, split]
          exact read
        · rw [held, split, append_nil]
          exact .pending lead run (n + 1) starts short kept
        · obtain ⟨none, dead⟩ := refused_dead lead starts short first bad
          rw [refused, split]
          exact .refused lead _ none dead

structure Completable (p : List UInt8) : Prop where
  incomplete : (mbrtowc p .init).ret = .incomplete → ∃ c, p <+: utf8EncodeChar c ∧ p ≠ utf8EncodeChar c
  ilseq : p ≠ [] → ((mbrtowc p .init).ret = .ilseq ↔ ¬Viable p ∧ ∀ c, ¬utf8EncodeChar c <+: p)

theorem proper_of_short (n : Nat) (starts : announced lead = some n) (short : tails.length < n)
    (follow : Continues lead tails) : ∃ c, lead :: tails <+: utf8EncodeChar c ∧ lead :: tails ≠ utf8EncodeChar c := by
  obtain ⟨c, start⟩ := (viable_iff lead tails).mpr ⟨n, starts, le_of_lt short, follow⟩
  refine ⟨c, start, ?_⟩
  intro whole
  obtain ⟨lead', tails', spelled, starts', _, _⟩ := encode_spells c
  rw [spelled, List.cons.injEq] at whole
  obtain ⟨rfl, rfl⟩ := whole
  rw [starts, some.injEq] at starts'
  omega

theorem completable_of_read (answer : Answer) (read : Read p answer) (same : mbrtowc p .init = answer)
    (sound : ∀ lead tails, p = lead :: tails → Kept lead tails → Continues lead tails) : Completable p := by
  cases read with
  | empty =>
    refine ⟨fun _ => ⟨Char.ofNat 0, nil_prefix, by decide⟩, fun some_byte => absurd rfl some_byte⟩
  | char c rest =>
    constructor
    · intro stopped
      rw [same] at stopped
      cases stopped
    · intro _
      rw [same]
      refine ⟨fun stopped => ?_, fun none => absurd (prefix_append _ rest) (none.2 c)⟩
      cases stopped
  | pending lead tails n starts short kept =>
    have follow := sound lead tails rfl kept
    constructor
    · intro _
      exact proper_of_short lead tails n starts short follow
    · intro _
      rw [same]
      refine ⟨fun stopped => ?_, fun none => absurd ?_ none.1⟩
      · cases stopped
      · exact (viable_iff lead tails).mpr ⟨n, starts, le_of_lt short, follow⟩
  | refused lead p none dead =>
    constructor
    · intro stopped
      rw [same] at stopped
      cases stopped
    · intro _
      rw [same]
      exact ⟨fun _ => ⟨dead, none⟩, fun _ => rfl⟩

-- ED and the second byte of a surrogate are held as if a character could follow.
theorem surrogate_held (tail : Tail b) : (mbrtowc [0xED, b] .init).ret = .incomplete := by
  have starts : announced 0xED = some 2 := rfl
  have passes : Passes 0xED b := by
    refine ⟨tail, ?_, ?_, ?_⟩
    all_goals
      intro other
      cases other
  rw [mbrtowc_lead, starts]
  simp only
  rw [sequence, if_neg (not_not.mpr ((tail_mark b).mpr tail))]
  simp only [push_bits]
  rw [if_neg fun early => (second_passes 0xED b 1 starts tail).mpr passes early.2]
  rfl

theorem surrogate_dead (high : 0xA0 ≤ b.toNat) : ¬Viable [0xED, b] := by
  intro viable
  obtain ⟨_, _, _, follow⟩ := (viable_iff 0xED [b]).mp viable
  have low := follow.1.2.2.1 rfl
  omega

-- Every start of a string is judged rightly except after ED by a surrogate's second byte.
theorem incomplete_iff_completable (s : List UInt8) :
    (∀ p, p <+: s → Completable p) ↔ ¬∃ b rest, s = 0xED :: b :: rest ∧ 0xA0 ≤ b.toNat ∧ b.toNat < 0xC0 := by
  constructor
  · rintro all ⟨b, rest, rfl, low, high⟩
    have start : [0xED, b] <+: 0xED :: b :: rest := ⟨rest, rfl⟩
    obtain ⟨c, taken, _⟩ := (all _ start).incomplete (surrogate_held b ⟨by omega, high⟩)
    exact surrogate_dead b low ⟨c, taken⟩
  · intro plain p start
    refine completable_of_read p _ (mbrtowc_read p) rfl ?_
    rintro lead tails rfl kept
    cases tails with
    | nil => trivial
    | cons b tails =>
      obtain ⟨rest, rfl⟩ := start
      refine ⟨⟨kept.1.1, kept.1.2.1, ?_, kept.1.2.2.1, kept.1.2.2.2⟩, kept.2⟩
      intro ed
      by_contra high
      have lead_is : lead = 0xED := UInt8.toNat_inj.mp ed
      exact plain ⟨b, tails ++ rest, by rw [lead_is]; rfl, not_lt.mp high, kept.1.1.2⟩

theorem surrogate_start_held : (mbrtowc [0xED, 0xA0] .init).ret = .incomplete ∧ ¬Viable [0xED, 0xA0] :=
  ⟨by decide +kernel, surrogate_dead 0xA0 (by decide)⟩

end Spicule.Utf
