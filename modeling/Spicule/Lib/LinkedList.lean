import Mathlib

namespace Spicule.LinkedList
open List

def Chain (next : Nat → Nat) : Nat → List Nat → Prop
  | head, [] => head = 0
  | head, x :: xs => head = x ∧ x ≠ 0 ∧ Chain next (next x) xs

variable {next other : Nat → Nat}
theorem chain_congr (xs : List Nat) (head : Nat) (same : ∀ x ∈ xs, other x = next x)
    (chain : Chain next head xs) : Chain other head xs := by
  induction xs generalizing head with
  | nil => exact chain
  | cons x xs ih =>
    obtain ⟨here, present, later⟩ := chain
    refine ⟨here, present, ?_⟩
    rw [same x mem_cons_self]
    exact ih (next x) (forall_mem_cons.mp same).2 later

theorem chain_push {xs : List Nat} {head x : Nat} (present : x ≠ 0) (link : other x = head)
    (same : ∀ y ∈ xs, other y = next y) (chain : Chain next head xs) : Chain other x (x :: xs) :=
  ⟨rfl, present, link ▸ chain_congr xs head same chain⟩

variable (before : List Nat)
theorem chain_unlink (prev x : Nat) (after : List Nat) (head : Nat)
    (link : other prev = next x) (same : ∀ y ∈ before ++ after, other y = next y)
    (chain : Chain next head (before ++ prev :: x :: after)) : Chain other head (before ++ prev :: after) := by
  induction before generalizing head with
  | nil =>
    obtain ⟨here, present, -, -, later⟩ := chain
    refine ⟨here, present, ?_⟩
    rw [link]
    exact chain_congr after _ (fun y mem => same y mem) later
  | cons y before ih =>
    obtain ⟨here, present, later⟩ := chain
    refine ⟨here, present, ?_⟩
    rw [same y mem_cons_self]
    exact ih (next y) (forall_mem_cons.mp same).2 later

-- A doubly linked list: the same addresses from `head` on and from `tail` back.
def Dll (next prev : Nat → Nat) (head tail : Nat) (xs : List Nat) : Prop :=
  Chain next head xs ∧ Chain prev tail xs.reverse

def firstOr (xs : List Nat) : Nat := xs.head?.getD 0

variable {head : Nat} {xs : List Nat}
theorem chain_first (chain : Chain next head xs) : head = firstOr xs := by
  cases xs with
  | nil => exact chain
  | cons x xs => exact chain.1

theorem chain_present (chain : Chain next head xs) : ∀ x ∈ xs, x ≠ 0 := by
  induction xs generalizing head with
  | nil => exact fun x mem => absurd mem not_mem_nil
  | cons y ys ih =>
    obtain ⟨-, present, later⟩ := chain
    intro x mem
    rcases mem_cons.mp mem with rfl | mem
    · exact present
    · exact ih later x mem

theorem first_mem (real : firstOr xs ≠ 0) : firstOr xs ∈ xs := by
  cases xs with
  | nil => exact absurd rfl real
  | cons x xs => exact mem_cons_self

theorem chain_tail {after : List Nat}
    (chain : Chain next head (before ++ after)) : ∃ middle, Chain next middle after := by
  induction before generalizing head with
  | nil => exact ⟨head, chain⟩
  | cons x before ih => exact ih chain.2.2

theorem chain_next {x : Nat} {before after : List Nat}
    (chain : Chain next head (before ++ x :: after)) : next x = firstOr after := by
  obtain ⟨middle, later⟩ := chain_tail before chain
  exact chain_first later.2.2

theorem dll_next {prev : Nat → Nat} {head tail x : Nat} {before after : List Nat}
    (dll : Dll next prev head tail (before ++ x :: after)) :
    next x = firstOr after ∧ prev x = firstOr before.reverse := by
  obtain ⟨forward, backward⟩ := dll
  rw [reverse_append, reverse_cons, append_assoc] at backward
  exact ⟨chain_next forward, chain_next backward⟩

variable {after : List Nat}
theorem chain_remove {other : Nat → Nat} {head head' x p : Nat}
    (nodup : (before ++ x :: after).Nodup) (chain : Chain next head (before ++ x :: after)) (previous : p = firstOr before.reverse)
    (links : ∀ y ∈ before ++ after, other y = if y = p then next x else next y)
    (heads : head' = if p = 0 then next x else head) : Chain other head' (before ++ after) := by
  have present := chain_present chain
  rcases eq_nil_or_concat before with rfl | ⟨init, last, rfl⟩
  · have zero : p = 0 := previous
    rw [heads, if_pos zero]
    refine chain_congr after _ (fun y mem => ?_) chain.2.2
    have other : y ≠ p := by
      rw [zero]
      exact present y (mem_cons_of_mem x mem)
    rw [links y mem, if_neg other]
  · rw [concat_eq_append] at *
    have equal : p = last := by
      rw [previous, reverse_append]
      rfl
    subst equal
    have real : p ≠ 0 := present p (by simp)
    rw [append_assoc, singleton_append] at *
    rw [heads, if_neg real]
    refine chain_unlink init p x after head ?_ (fun y mem => ?_) chain
    · rw [links p (by simp), if_pos rfl]
    · have different : y ≠ p := by
        rintro rfl
        simp only [nodup_append, nodup_cons, mem_cons, mem_append] at nodup mem
        rcases mem with inInit | inAfter
        · exact nodup.2.2 y inInit y (.inl rfl) rfl
        · exact nodup.2.1.1 (.inr inAfter)
      rw [links y (by rcases mem_append.mp mem with m | m <;> simp [m]), if_neg different]

theorem dll_remove {prev next' prev' : Nat → Nat} {head tail head' tail' x : Nat}
    (nodup : (before ++ x :: after).Nodup) (dll : Dll next prev head tail (before ++ x :: after))
    (forward : ∀ y ∈ before ++ after, next' y = if y = prev x then next x else next y)
    (backward : ∀ y ∈ before ++ after, prev' y = if y = next x then prev x else prev y)
    (heads : head' = if prev x = 0 then next x else head) (tails : tail' = if next x = 0 then prev x else tail) :
    Dll next' prev' head' tail' (before ++ after) := by
  obtain ⟨nextFirst, prevFirst⟩ := dll_next dll
  constructor
  · exact chain_remove before nodup dll.1 prevFirst forward heads
  · have chain := dll.2
    rw [reverse_append, reverse_cons, append_assoc, singleton_append] at chain
    rw [reverse_append]
    have flipped : (after.reverse ++ x :: before.reverse).Nodup := by
      have turned := nodup_reverse.mpr nodup
      rwa [reverse_append, reverse_cons, append_assoc, singleton_append] at turned
    refine chain_remove after.reverse flipped chain (by rw [nextFirst, reverse_reverse])
      (fun y mem => backward y ?_) tails
    simp only [mem_append, mem_reverse] at mem ⊢
    exact mem.symm

theorem chain_append {other : Nat → Nat} {head x : Nat} {init : List Nat} {last : Nat} (fresh : x ≠ 0)
    (chain : Chain next head (init ++ [last])) (link : other last = x) (ends : other x = 0)
    (same : ∀ y ∈ init, other y = next y) : Chain other head (init ++ [last] ++ [x]) := by
  induction init generalizing head with
  | nil =>
    obtain ⟨here, present, -⟩ := chain
    exact ⟨here, present, link, fresh, ends⟩
  | cons y init ih =>
    obtain ⟨here, present, later⟩ := chain
    refine ⟨here, present, ?_⟩
    rw [same y mem_cons_self]
    exact ih later (forall_mem_cons.mp same).2

theorem dll_append {prev next' prev' : Nat → Nat} {head tail head' x : Nat} {xs : List Nat}
    (nodup : xs.Nodup) (dll : Dll next prev head tail xs) (fresh : x ≠ 0)
    (forward : ∀ y ∈ xs, next' y = if y = tail then x else next y) (ends : next' x = 0)
    (backward : ∀ y ∈ xs, prev' y = prev y) (back : prev' x = tail) (heads : head' = if tail = 0 then x else head) :
    Dll next' prev' head' x (xs ++ [x]) := by
  have last : tail = firstOr xs.reverse := chain_first dll.2
  have present := chain_present dll.1
  constructor
  · rcases eq_nil_or_concat xs with rfl | ⟨init, z, rfl⟩
    · have zero : tail = 0 := last
      rw [heads, if_pos zero]
      exact ⟨rfl, fresh, ends⟩
    · rw [concat_eq_append] at *
      have equal : tail = z := by
        rw [last, reverse_append]
        rfl
      subst equal
      have real : tail ≠ 0 := present tail (by simp)
      rw [heads, if_neg real]
      refine chain_append fresh dll.1 ?_ ends fun y mem => ?_
      · rw [forward tail (by simp), if_pos rfl]
      · have different : y ≠ tail := by
          rintro rfl
          simp only [nodup_append, mem_singleton] at nodup
          exact nodup.2.2 y mem y rfl rfl
        rw [forward y (by simp [mem]), if_neg different]
  · rw [reverse_append]
    refine ⟨rfl, fresh, ?_⟩
    rw [back]
    exact chain_congr xs.reverse _ (fun y mem => backward y (mem_reverse.mp mem)) dll.2

def walk (next : Nat → Nat) : Nat → Nat → List Nat
  | 0, _ => []
  | fuel + 1, head => if head = 0 then [] else head :: walk next fuel (next head)

theorem walk_chain (chain : Chain next head xs) (fuel : Nat)
    (enough : xs.length ≤ fuel) : walk next fuel head = xs := by
  induction xs generalizing head fuel with
  | nil =>
    cases fuel with
    | zero => rfl
    | succ fuel => exact if_pos chain
  | cons x xs ih =>
    obtain ⟨rfl, present, later⟩ := chain
    cases fuel with
    | zero => exact absurd enough (Nat.not_succ_le_zero _)
    | succ fuel =>
      rw [walk, if_neg present, ih later fuel (Nat.le_of_succ_le_succ enough)]

end Spicule.LinkedList
