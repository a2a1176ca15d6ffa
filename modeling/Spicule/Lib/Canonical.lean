import Spicule.Lib.Bits

-- Canonical prefix codes, given by each symbol's length (0: no code): those of one length are
-- consecutive in symbol order and follow those of the shorter ones.
namespace Spicule.Canonical
open List Nat

variable (lengths : List Nat)
def used (len : Nat) : Nat := if len = 0 then 0 else lengths.count len

def firstCode : Nat → Nat
  | 0 => 0
  | len + 1 => (firstCode len + used lengths len) * 2

def offset : Nat → Nat
  | 0 => 0
  | len + 1 => offset len + used lengths len

def rank (sym : Nat) : Nat := (lengths.take sym).count (lengths.getD sym 0)

def code (sym : Nat) : Nat := firstCode lengths (lengths.getD sym 0) + rank lengths sym

def kraft (max : Nat) : Nat := (lengths.map fun len => if len = 0 ∨ max < len then 0 else 2 ^ (max - len)).sum

def Coded (sym : Nat) : Prop := sym < lengths.length ∧ lengths.getD sym 0 ≠ 0

instance (sym : Nat) : Decidable (Coded lengths sym) := inferInstanceAs (Decidable (_ ∧ _))

def codeBits (sym : Nat) : List Bool := Bits.msb (lengths.getD sym 0) (code lengths sym)

structure PrefixCode (max : Nat) : Prop where
  short : ∀ len ∈ lengths, len ≤ max
  room : kraft lengths max ≤ 2 ^ max

theorem first_code_grows (len more : Nat) :
    (firstCode lengths len + used lengths len) * 2 ^ (more + 1) ≤ firstCode lengths (len + more + 1) := by
  induction more with
  | zero => simp [firstCode]
  | succ more ih =>
    rw [show len + (more + 1) + 1 = (len + more + 1) + 1 by omega, firstCode, pow_succ, ← mul_assoc]
    exact mul_le_mul_right 2 (le_trans ih (le_add_right _ _))

theorem offset_grows (len more : Nat) : offset lengths len + used lengths len ≤ offset lengths (len + more + 1) := by
  induction more with
  | zero => exact le_refl _
  | succ more ih => exact le_trans ih (le_add_right _ _)

theorem take_succ_count (sym len : Nat) (inside : sym < lengths.length) :
    (lengths.take (sym + 1)).count len = (lengths.take sym).count len + if lengths.getD sym 0 = len then 1 else 0 := by
  have here : lengths.getD sym 0 = lengths[sym] := by simp [List.getD, inside]
  rw [take_succ_eq_append_getElem inside, count_append, here, count_singleton]
  simp only [beq_iff_eq]

theorem rank_lt_used {sym : Nat} (coded : Coded lengths sym) : rank lengths sym < used lengths (lengths.getD sym 0) := by
  have step := take_succ_count lengths sym (lengths.getD sym 0) coded.1
  have whole : (lengths.take (sym + 1)).count (lengths.getD sym 0) ≤ lengths.count (lengths.getD sym 0) :=
    (take_sublist (sym + 1) lengths).count_le _
  rw [if_pos rfl] at step
  rw [used, if_neg coded.2, rank]
  omega

theorem rank_lt_rank {sym other : Nat} (before : sym < other) (inside : other ≤ lengths.length)
    (same : lengths.getD sym 0 = lengths.getD other 0) : rank lengths sym < rank lengths other := by
  have step := take_succ_count lengths sym (lengths.getD sym 0) (by omega)
  have reach : (lengths.take (sym + 1)).count (lengths.getD sym 0) ≤ (lengths.take other).count (lengths.getD sym 0) :=
    (take_sublist_take_left (by omega)).count_le _
  rw [if_pos rfl] at step
  rw [rank, rank, ← same]
  omega

theorem slot_inj {sym other : Nat} (coded : Coded lengths sym) (codedOther : Coded lengths other)
    (same : offset lengths (lengths.getD sym 0) + rank lengths sym =
      offset lengths (lengths.getD other 0) + rank lengths other) : sym = other := by
  have slot := rank_lt_used lengths coded
  have slotOther := rank_lt_used lengths codedOther
  rcases lt_trichotomy (lengths.getD sym 0) (lengths.getD other 0) with shorter | equal | longer
  · have apart := offset_grows lengths (lengths.getD sym 0) (lengths.getD other 0 - lengths.getD sym 0 - 1)
    rw [show lengths.getD sym 0 + (lengths.getD other 0 - lengths.getD sym 0 - 1) + 1 = lengths.getD other 0 by omega]
      at apart
    omega
  · rcases lt_trichotomy sym other with before | here | behind
    · have := rank_lt_rank lengths before (le_of_lt codedOther.1) equal
      rw [equal] at same
      omega
    · exact here
    · have := rank_lt_rank lengths behind (le_of_lt coded.1) equal.symm
      rw [equal] at same
      omega
  · have apart := offset_grows lengths (lengths.getD other 0) (lengths.getD sym 0 - lengths.getD other 0 - 1)
    rw [show lengths.getD other 0 + (lengths.getD sym 0 - lengths.getD other 0 - 1) + 1 = lengths.getD sym 0 by omega]
      at apart
    omega

theorem offset_le_length (len : Nat) : offset lengths len ≤ lengths.length := by
  induction lengths with
  | nil => induction len with
    | zero => exact le_refl 0
    | succ len ih => simpa [offset, used] using ih
  | cons first rest ih =>
    have grows : offset (first :: rest) len = offset rest len + if first ≠ 0 ∧ first < len then 1 else 0 := by
      clear ih
      induction len with
      | zero => simp [offset]
      | succ len ih =>
        simp only [offset, ih, used, count_cons, beq_iff_eq]
        split_ifs <;> omega
    rw [grows, length_cons]
    split <;> omega

theorem slot_taken (len place : Nat) (inside : place < used lengths len) :
    ∃ sym, Coded lengths sym ∧ lengths.getD sym 0 = len ∧ rank lengths sym = place := by
  unfold used at inside
  split at inside
  · omega
  · rename_i nonzero
    suffices found : ∃ sym, sym < lengths.length ∧ lengths.getD sym 0 = len ∧ (lengths.take sym).count len = place by
      obtain ⟨sym, bound, here, before⟩ := found
      exact ⟨sym, ⟨bound, here ▸ nonzero⟩, here, by rw [rank, here, before]⟩
    induction lengths generalizing place with
    | nil => cases inside
    | cons first rest ih =>
      rw [count_cons] at inside
      by_cases same : first = len
      · cases place with
        | zero => exact ⟨0, succ_pos _, same, rfl⟩
        | succ place =>
          obtain ⟨sym, bound, here, before⟩ := ih place (by simpa [same] using inside)
          exact ⟨sym + 1, succ_lt_succ bound, here, by simp [same, before]⟩
      · obtain ⟨sym, bound, here, before⟩ := ih place (by simpa [same] using inside)
        exact ⟨sym + 1, succ_lt_succ bound, here, by simp [same, before]⟩

theorem kraft_succ (max : Nat) : kraft lengths (max + 1) = 2 * kraft lengths max + used lengths (max + 1) := by
  rw [used, if_neg (by omega), kraft, kraft]
  induction lengths with
  | nil => rfl
  | cons len rest ih =>
    simp only [map_cons, sum_cons, count_cons, beq_iff_eq, ih]
    rcases lt_trichotomy len (max + 1) with below | equal | above
    · by_cases zero : len = 0
      · simp only [zero, true_or, if_true]
        rw [if_neg (by omega)]
        omega
      · rw [if_neg (by omega), if_neg (by omega), if_neg (by omega),
          show max + 1 - len = max - len + 1 by omega, pow_succ]
        omega
    · rw [if_neg (by omega), if_pos (by omega), if_pos equal, equal, Nat.sub_self]
      omega
    · rw [if_pos (by omega), if_pos (by omega), if_neg (by omega)]
      omega

theorem kraft_first (max : Nat) : kraft lengths max = firstCode lengths max + used lengths max := by
  induction max with
  | zero =>
    have none_here : ∀ rest : List Nat, (rest.map fun len => if len = 0 ∨ 0 < len then 0 else 2 ^ (0 - len)).sum = 0 := by
      intro rest
      induction rest with
      | nil => rfl
      | cons len rest ih =>
        rw [map_cons, sum_cons, ih, if_pos (by omega)]
    rw [kraft, none_here, firstCode, used, if_pos rfl]
  | succ max ih =>
    rw [kraft_succ, ih, firstCode]
    omega

theorem code_fits {max sym : Nat} (coded : Coded lengths sym) (short : lengths.getD sym 0 ≤ max)
    (room : kraft lengths max ≤ 2 ^ max) : code lengths sym < 2 ^ lengths.getD sym 0 := by
  have slot := rank_lt_used lengths coded
  rw [kraft_first] at room
  unfold code
  by_cases longest : lengths.getD sym 0 = max
  · rw [longest] at slot ⊢
    omega
  · have grows := first_code_grows lengths (lengths.getD sym 0) (max - lengths.getD sym 0 - 1)
    rw [show lengths.getD sym 0 + (max - lengths.getD sym 0 - 1) + 1 = max by omega] at grows
    have scaled : (firstCode lengths (lengths.getD sym 0) + used lengths (lengths.getD sym 0)) *
        2 ^ (max - lengths.getD sym 0 - 1 + 1) ≤ 2 ^ lengths.getD sym 0 * 2 ^ (max - lengths.getD sym 0 - 1 + 1) := by
      rw [← pow_add, show lengths.getD sym 0 + (max - lengths.getD sym 0 - 1 + 1) = max by omega]
      omega
    have fits := Nat.le_of_mul_le_mul_right scaled (Nat.two_pow_pos _)
    omega

theorem code_cut (sym len : Nat) (shorter : len < lengths.getD sym 0) :
    firstCode lengths len + used lengths len ≤ code lengths sym / 2 ^ (lengths.getD sym 0 - len) := by
  have grows := first_code_grows lengths len (lengths.getD sym 0 - len - 1)
  rw [show len + (lengths.getD sym 0 - len - 1) + 1 = lengths.getD sym 0 by omega,
    show lengths.getD sym 0 - len - 1 + 1 = lengths.getD sym 0 - len by omega] at grows
  rw [Nat.le_div_iff_mul_le (Nat.two_pow_pos _)]
  exact Nat.le_trans grows (Nat.le_add_right _ _)

end Spicule.Canonical
