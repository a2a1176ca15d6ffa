import Mathlib

namespace Spicule.Clock

-- A computation under a clock: its loops ran out of rounds, or it answered.
inductive Outcome (α : Type) where
  | running
  | refused
  | returned (value : α)
deriving DecidableEq, Repr

namespace Outcome

variable {α β : Type}
def bind : Outcome α → (α → Outcome β) → Outcome β
  | .running, _ => .running
  | .refused, _ => .refused
  | .returned value, next => next value

def answer : Option α → Outcome α
  | none => .refused
  | some value => .returned value

variable (next : α → Outcome β)

@[simp] theorem running_bind : Outcome.running.bind next = .running := rfl

@[simp] theorem refused_bind : Outcome.refused.bind next = .refused := rfl

@[simp] theorem returned_bind (value : α) (next : α → Outcome β) : (Outcome.returned value).bind next = next value := rfl

@[simp] theorem answer_none : answer (none : Option α) = .refused := rfl

@[simp] theorem answer_some (value : α) : answer (some value) = .returned value := rfl

theorem answer_bind (value : Option α) (next : α → Option β) :
    (answer value).bind (fun a => answer (next a)) = answer (value.bind next) := by
  cases value <;> rfl

end Outcome

section
variable {α β : Type}
def items (starts : β → Bool) (parse : List β → Option (α × List β)) : Nat → List β → Option (List α × List β)
  | 0, xs => some ([], xs)
  | _ + 1, [] => some ([], [])
  | fuel + 1, x :: xs =>
    if starts x then
      (parse (x :: xs)).bind fun item => (items starts parse fuel item.2).bind fun later =>
        some (item.1 :: later.1, later.2)
    else some ([], x :: xs)

variable {parse : List β → Option (α × List β)} {starts : β → Bool}
theorem items_unique {loop : Nat → List β → Option (List α × List β)} (zero : ∀ xs, loop 0 xs = some ([], xs))
    (stop : ∀ fuel, loop (fuel + 1) [] = some ([], []))
    (round : ∀ fuel x xs, loop (fuel + 1) (x :: xs) =
      if starts x then
        (parse (x :: xs)).bind fun item => (loop fuel item.2).bind fun later => some (item.1 :: later.1, later.2)
      else some ([], x :: xs)) (fuel : Nat) (xs : List β) : loop fuel xs = items starts parse fuel xs := by
  induction fuel generalizing xs with
  | zero => exact zero xs
  | succ fuel ih =>
    cases xs with
    | nil => exact stop fuel
    | cons x xs =>
      simp only [round, ih]
      rfl

def itemsIn (starts : β → Bool) (parse : List β → Outcome (α × List β)) : Nat → List β → Outcome (List α × List β)
  | 0, _ => .running
  | _ + 1, [] => .returned ([], [])
  | clock + 1, x :: xs =>
    if starts x then
      (parse (x :: xs)).bind fun item => (itemsIn starts parse clock item.2).bind fun later =>
        .returned (item.1 :: later.1, later.2)
    else .returned ([], x :: xs)

def Consumes (parse : List β → Option (α × List β)) : Prop :=
  ∀ xs item left, parse xs = some (item, left) → left.length < xs.length

theorem items_in_answer (starts : β → Bool) (consumes : Consumes parse)
    (clock fuel : Nat) (xs : List β) (rounds : xs.length < clock) (enough : xs.length ≤ fuel) :
    itemsIn starts (fun xs => Outcome.answer (parse xs)) clock xs = Outcome.answer (items starts parse fuel xs) := by
  induction clock generalizing fuel xs with
  | zero => exact absurd rounds (Nat.not_lt_zero _)
  | succ clock ih =>
    cases xs with
    | nil => cases fuel <;> rfl
    | cons x xs =>
      obtain ⟨fuel, rfl⟩ : ∃ k, fuel = k + 1 := Nat.exists_eq_succ_of_ne_zero (by simp at enough; omega)
      by_cases start : starts x = true
      · cases parsed : parse (x :: xs) with
        | none => simp [itemsIn, items, start, parsed]
        | some item =>
          obtain ⟨item, left⟩ := item
          have less := consumes _ _ _ parsed
          simp only [itemsIn, items, if_pos start, parsed, Outcome.answer_some, Outcome.returned_bind, Option.bind_some,
            ih fuel left (by omega) (by omega)]
          exact Outcome.answer_bind _ fun later : List α × List β => some (item :: later.1, later.2)
      · simp [itemsIn, items, start]

theorem items_left (consumes : Consumes parse)
    (fuel : Nat) (xs : List β) (found : List α) (left : List β) (read : items starts parse fuel xs = some (found, left)) :
    left.length ≤ xs.length := by
  induction fuel generalizing xs found left with
  | zero =>
    cases read
    exact Nat.le_refl _
  | succ fuel ih =>
    cases xs with
    | nil =>
      cases read
      exact Nat.le_refl _
    | cons x xs =>
      by_cases start : starts x = true
      · simp only [items, if_pos start, Option.bind_eq_some_iff, Option.some.injEq] at read
        obtain ⟨item, parsed, later, rest, equal⟩ := read
        have less := consumes _ _ _ parsed
        have more := ih _ _ _ rest
        cases equal
        omega
      · simp only [items, if_neg start, Option.some.injEq] at read
        cases read
        exact Nat.le_refl _

end
end Spicule.Clock
