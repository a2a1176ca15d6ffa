import Mathlib

namespace Spicule.Printf
open List Bool Nat

abbrev Bytes := List UInt8

def intMax : Nat := 2147483647

-- `limit` is how much the file takes; a `fixed` one is memory, where taking less is no
-- error. `overflow` is errno's EOVERFLOW.
structure Sink where
  stored : Bytes
  limit : Option Nat
  fixed : Bool
  count : Nat
  bad : Bool
  err : Bool
  overflow : Bool
deriving DecidableEq

namespace Sink

def overflowed (sk : Sink) : Sink := { sk with overflow := true, err := true, bad := true }

def failed (sk : Sink) : Sink := { sk with err := true, bad := true }

def taken (sk : Sink) (s : Bytes) : Bytes :=
  match sk.limit with
  | none => s
  | some size => s.take (size - sk.stored.length)

def out (sk : Sink) (s : Bytes) : Sink :=
  if sk.bad then sk
  else if ¬s.length ≤ intMax - sk.count then sk.overflowed
  else
    let kept := { sk with stored := sk.stored ++ sk.taken s }
    if (sk.taken s).length ≠ s.length ∧ sk.fixed = false then kept.failed
    else { kept with count := sk.count + s.length }

def padChunks (c : UInt8) : Nat → Nat → Sink → Sink
  | 0, _, sk => sk
  | chunks + 1, emit, sk =>
    if sk.bad then sk
    else
      let k := if emit < 16 then emit else 16
      padChunks c chunks (emit - k) (sk.out (List.replicate k c))

def avail (sk : Sink) (n : Nat) : Nat :=
  match sk.limit with
  | none => n
  | some size => if sk.fixed then min n (size - sk.stored.length) else n

def pad (sk : Sink) (c : UInt8) (n : Nat) : Sink :=
  if sk.bad then sk
  else if ¬n ≤ intMax - sk.count then sk.overflowed
  else
    let emit := sk.avail n
    let skipped := n - emit
    let written := padChunks c (emit / 16 + if emit % 16 ≠ 0 then 1 else 0) emit sk
    if written.bad then written else { written with count := written.count + skipped }

def give (sk : Sink) (s : Bytes) : Sink := { sk with stored := sk.stored ++ sk.taken s, count := sk.count + s.length }

structure Ready (sk : Sink) : Prop where
  good : sk.bad = false
  counted : sk.count ≤ intMax
  takes : sk.fixed = true ∨ sk.limit = none

structure Emits (sk : Sink) (s : Bytes) (sk' : Sink) : Prop where
  stays : sk.bad = true → sk'.bad = true ∧ (sk.overflow = true → sk'.overflow = true)
  gives : sk.Ready → sk.count + s.length ≤ intMax → sk' = sk.give s
  refuses : sk.Ready → intMax < sk.count + s.length → sk'.bad = true ∧ sk'.overflow = true

variable (sk : Sink)
theorem give_append (a b : Bytes) : sk.give (a ++ b) = (sk.give a).give b := by
  have stored : sk.taken (a ++ b) = sk.taken a ++ (sk.give a).taken b := by
    unfold taken give
    cases limit : sk.limit with
    | none => rfl
    | some size =>
      simp only [taken, limit, take_append, length_append, length_take]
      congr 2
      omega
  unfold give at stored ⊢
  simp only [stored, append_assoc, length_append, add_assoc]

theorem give_nil : sk.give [] = sk := by
  unfold give taken
  split <;> simp

theorem give_ready (s : Bytes) (ready : sk.Ready) (fits : sk.count + s.length ≤ intMax) : (sk.give s).Ready :=
  ⟨ready.good, fits, ready.takes⟩

theorem emits_trans (sk₁ sk₂ : Sink) (a b : Bytes) (first : sk.Emits a sk₁) (second : sk₁.Emits b sk₂) :
    sk.Emits (a ++ b) sk₂ := by
  constructor
  · intro bad
    obtain ⟨bad₁, kept₁⟩ := first.stays bad
    obtain ⟨bad₂, kept₂⟩ := second.stays bad₁
    exact ⟨bad₂, fun overflow => kept₂ (kept₁ overflow)⟩
  · intro ready fits
    rw [length_append] at fits
    have here := first.gives ready (by omega)
    have ready₁ := sk.give_ready a ready (by omega)
    rw [give_append, ← here]
    rw [← here] at ready₁
    apply second.gives ready₁
    rw [here]
    unfold give
    simp only
    omega
  · intro ready long
    rw [length_append] at long
    by_cases fits : sk.count + a.length ≤ intMax
    · have here := first.gives ready fits
      have ready₁ := sk.give_ready a ready fits
      rw [← here] at ready₁
      apply second.refuses ready₁
      rw [here]
      unfold give
      simp only
      omega
    · obtain ⟨bad, overflow⟩ := first.refuses ready (by omega)
      obtain ⟨bad', kept⟩ := second.stays bad
      exact ⟨bad', kept overflow⟩

theorem out_emits (s : Bytes) : sk.Emits s (sk.out s) := by
  constructor
  · intro bad
    unfold out
    rw [if_pos bad]
    exact ⟨bad, id⟩
  · intro ready fits
    have counted := ready.counted
    have plain : ¬((sk.taken s).length ≠ s.length ∧ sk.fixed = false) := by
      rintro ⟨short, stream⟩
      rcases ready.takes with memory | all
      · rw [memory] at stream
        cases stream
      · unfold taken at short
        rw [all] at short
        exact short rfl
    unfold out
    rw [if_neg (by rw [ready.good]; exact false_ne_true), if_neg (by omega)]
    simp only [if_neg plain]
    rfl
  · intro ready long
    have counted := ready.counted
    unfold out
    rw [if_neg (by rw [ready.good]; exact false_ne_true), if_pos (by omega)]
    exact ⟨rfl, rfl⟩

theorem pad_chunks_gives (c : UInt8) (chunks emit : Nat) (sk : Sink) (ready : sk.Ready)
    (enough : emit ≤ 16 * chunks) (fits : sk.count + emit ≤ intMax) :
    padChunks c chunks emit sk = sk.give (List.replicate emit c) := by
  induction chunks generalizing emit sk with
  | zero =>
    have none : emit = 0 := by omega
    rw [padChunks, none, replicate_zero, give_nil]
  | succ chunks ih =>
    obtain ⟨k, step⟩ : ∃ k, k = if emit < 16 then emit else 16 := ⟨_, rfl⟩
    have part : k ≤ emit ∧ emit - k ≤ 16 * chunks := by
      split at step <;> omega
    have given := (sk.out_emits (List.replicate k c)).gives ready (by rw [length_replicate]; omega)
    have ready₁ := sk.give_ready (List.replicate k c) ready (by rw [length_replicate]; omega)
    have whole : List.replicate emit c = List.replicate k c ++ List.replicate (emit - k) c := by
      rw [replicate_append_replicate, Nat.add_sub_cancel' part.1]
    rw [padChunks, if_neg (by rw [ready.good]; exact false_ne_true), ← step]
    simp only
    rw [given, ih (emit - k) _ ready₁ part.2 (by simp only [give, length_replicate]; omega), ← give_append, ← whole]

theorem pad_emits (c : UInt8) (n : Nat) : sk.Emits (List.replicate n c) (sk.pad c n) := by
  constructor
  · intro bad
    unfold pad
    rw [if_pos bad]
    exact ⟨bad, id⟩
  · intro ready fits
    rw [length_replicate] at fits
    have counted := ready.counted
    have less : sk.avail n ≤ n := by
      unfold avail
      split
      · exact le_refl n
      · split
        · exact min_le_left _ _
        · exact le_refl n
    have written := pad_chunks_gives c (sk.avail n / 16 + if sk.avail n % 16 ≠ 0 then 1 else 0) (sk.avail n) sk ready
      (by split <;> omega) (by omega)
    have same : sk.taken (List.replicate (sk.avail n) c) = sk.taken (List.replicate n c) := by
      unfold taken avail
      cases limit : sk.limit with
      | none => rfl
      | some size =>
        have memory : sk.fixed = true := ready.takes.resolve_right (by rw [limit]; exact Option.some_ne_none _)
        simp only [memory, if_true, take_replicate]
        congr 1
        omega
    unfold pad
    rw [if_neg (by rw [ready.good]; exact false_ne_true), if_neg (by omega)]
    simp only [written]
    rw [if_neg (by rw [show (sk.give _).bad = sk.bad from rfl, ready.good]; exact false_ne_true)]
    unfold give
    simp only [same, length_replicate]
    congr 1
    omega
  · intro ready long
    rw [length_replicate] at long
    have counted := ready.counted
    unfold pad
    rw [if_neg (by rw [ready.good]; exact false_ne_true), if_pos (by omega)]
    exact ⟨rfl, rfl⟩

end Sink
end Spicule.Printf
