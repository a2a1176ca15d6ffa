import Spicule.Lib.BinaryHeap
import Spicule.Lib.Comparator

namespace Spicule.Qsort
open BinaryHeap Comparator

abbrev Memory := Nat → UInt8

def exchange (w a b : Nat) (mem : Memory) : Memory := fun p =>
  if b ≤ p ∧ p < b + w then mem (a + (p - b)) else if a ≤ p ∧ p < a + w then mem (b + (p - a)) else mem p

def swapWords (w : Nat) : Nat → Nat → Nat → Memory → Memory
  | 0, _, _, mem => mem
  | n + 1, a, b, mem => swapWords w n (a + w) (b + w) (exchange w a b mem)

-- swap() on the addresses of two elements; a size_t has 8 bytes.
def swapBytes (a b n : Nat) (mem : Memory) : Memory :=
  if n % 8 = 0 ∧ (a ||| b) % 8 = 0 then swapWords 8 (n / 8) a b mem else swapWords 1 n a b mem

section
variable {α σ : Type}

-- swap() on a list of elements; none is an access outside.
def swap (base : List α) (i j : Nat) : Option (List α) := do
  let x ← base[i]?
  let y ← base[j]?
  return (base.set i y).set j x

-- A comparison may answer by a state of its own, and so differently each time.
def compare (cmp : α → α → σ → Int × σ) (base : List α) (i j : Nat) (s : σ) : Option (Int × σ) := do
  let x ← base[i]?
  let y ← base[j]?
  return cmp x y s

variable (cmp : α → α → σ → Int × σ)
def child (base : List α) (n c : Nat) (s : σ) : Option (Nat × σ) :=
  if c + 1 < n then do
    let (r, s) ← compare cmp base c (c + 1) s
    return (if r < 0 then c + 1 else c, s)
  else some (c, s)

-- None also where the steps run out.
def sift (n : Nat) : Nat → Nat → List α → σ → Option (List α × σ)
  | 0, _, _, _ => none
  | steps + 1, i, base, s =>
    if i < n / 2 then do
      let (c, s) ← child cmp base n (2 * i + 1) s
      let (r, s) ← compare cmp base i c s
      if 0 ≤ r then return (base, s)
      let base ← swap base i c
      sift n steps c base s
    else some (base, s)

def build (n : Nat) : Nat → List α → σ → Option (List α × σ)
  | 0, base, s => some (base, s)
  | i + 1, base, s => do
    let (base, s) ← sift cmp n n i base s
    build n i base s

def extract : Nat → List α → σ → Option (List α × σ)
  | 0, base, s => some (base, s)
  | i + 1, base, s => do
    let base ← swap base 0 (i + 1)
    let (base, s) ← sift cmp (i + 1) (i + 1) 0 base s
    extract i base s

end

def qsortR {σ : Type} {sz : Nat} (cmp : Vector UInt8 sz → Vector UInt8 sz → σ → Int × σ) (base : List (Vector UInt8 sz))
    (s : σ) : Option (List (Vector UInt8 sz) × σ) :=
  if base.length < 2 ∨ sz = 0 then some (base, s) else do
    let (base, s) ← build cmp base.length (base.length / 2) base s
    extract cmp (base.length - 1) base s

theorem swap_words_exchange (w n : Nat) {a b : Nat} (mem : Memory) (apart : a + n * w ≤ b ∨ b + n * w ≤ a) :
    swapWords w n a b mem = exchange (n * w) a b mem := by
  induction n generalizing a b mem with
  | zero =>
    funext p
    rw [swapWords, exchange, if_neg (by omega), if_neg (by omega)]
  | succ n ih =>
    rw [Nat.succ_mul] at apart ⊢
    rw [swapWords, ih _ (by omega)]
    funext p
    generalize n * w = m at *
    simp only [exchange]
    split_ifs <;> first | omega | rfl | exact congrArg mem (by omega)

theorem swap_bytes_exchange {a b n : Nat} (mem : Memory) (apart : a + n ≤ b ∨ b + n ≤ a) :
    swapBytes a b n mem = exchange n a b mem := by
  unfold swapBytes
  split
  · rename_i words
    have size : n / 8 * 8 = n := Nat.div_mul_cancel (Nat.dvd_of_mod_eq_zero words.1)
    rw [swap_words_exchange, size]
    rwa [size]
  · rw [swap_words_exchange, Nat.mul_one]
    rwa [Nat.mul_one]

section
open List (getElem?_set)

variable {sz addr i j : Nat} {base after : List (Vector UInt8 sz)} {mem : Memory}
def Holds (addr : Nat) (base : List (Vector UInt8 sz)) (mem : Memory) : Prop :=
  ∀ (i : Nat) x, base[i]? = some x → ∀ k (inside : k < sz), mem (addr + i * sz + k) = x[k]

-- In memory the two loops do to elements what `swap` does to the list.
theorem swap_holds (holds : Holds addr base mem) (other : i ≠ j) (ran : swap base i j = some after) :
    Holds addr after (swapBytes (addr + i * sz) (addr + j * sz) sz mem) := by
  have apart (p q : Nat) (ne : p ≠ q) : p * sz + sz ≤ q * sz ∨ q * sz + sz ≤ p * sz := by
    rw [← Nat.succ_mul, ← Nat.succ_mul]
    exact (Nat.lt_or_gt_of_ne ne).imp (Nat.mul_le_mul_right sz) (Nat.mul_le_mul_right sz)
  simp only [swap, Option.bind_eq_bind, Option.bind_eq_some_iff, Option.pure_def, Option.some.injEq] at ran
  obtain ⟨x, first, y, second, rfl⟩ := ran
  have off := apart i j other
  rw [swap_bytes_exchange mem (by omega)]
  intro p z found k inside
  rw [getElem?_set] at found
  unfold exchange
  by_cases last : p = j
  · subst last
    rw [if_pos (by omega), ← (by simpa using found : _ ∧ x = z).2, ← holds i x first k inside]
    exact congrArg mem (by omega)
  · have off := apart p j last
    rw [if_neg (Ne.symm last), getElem?_set] at found
    rw [if_neg (by omega)]
    by_cases front : p = i
    · subst front
      rw [if_pos (by omega), ← (by simpa using found : _ ∧ y = z).2, ← holds j y second k inside]
      exact congrArg mem (by omega)
    · have off := apart p i front
      rw [if_neg (Ne.symm front)] at found
      rw [if_neg (by omega)]
      exact holds p z found k inside

end

section
open List

variable {α σ : Type} {base : List α} {i j n : Nat} (d : α)
theorem getD_of_lt (inside : i < base.length) : base[i]? = some (base.getD i d) := by
  rw [getD_eq_getElem _ _ inside, getElem?_eq_getElem inside]

theorem swap_spec (first : i < base.length) (second : j < base.length) :
    ∃ after, swap base i j = some after ∧ after.Perm base ∧ (after.getD · d) = (base.getD · d) ∘ Equiv.swap i j := by
  have ran : swap base i j = some ((base.set i base[j]).set j base[i]) := by
    rw [swap, getElem?_eq_getElem first, getElem?_eq_getElem second]
    rfl
  refine ⟨_, ran, set_set_perm first second, funext fun k => ?_⟩
  simp only [Function.comp, Equiv.swap_apply_def, getD_eq_getElem?_getD, getElem?_set, length_set]
  by_cases atJ : j = k
  · subst atJ
    by_cases same : j = i
    · subst same
      simp [first]
    · simp [same, first, second]
  · by_cases atI : i = k
    · subst atI
      simp [atJ, first, second]
    · simp [atJ, atI, Ne.symm atJ, Ne.symm atI]

variable (cmp : α → α → σ → Int × σ) (s : σ)
theorem compare_spec (first : i < base.length) (second : j < base.length) :
    compare cmp base i j s = some (cmp (base.getD i d) (base.getD j d) s) := by
  rw [compare, getD_of_lt d first, getD_of_lt d second]
  rfl

structure Consistent (cmp : α → α → σ → Int × σ) (c : α → α → Int) : Prop where
  answers : ∀ x y s, (cmp x y s).1 = c x y
  order : TotalPreorder c

def Ge (c : α → α → Int) (x y : α) : Prop := 0 ≤ c x y

theorem child_spec (half : i < n / 2) (room : n ≤ base.length) :
    ∃ k s', child cmp base n (2 * i + 1) s = some (k, s') ∧ Child i k ∧ k < n ∧
      ∀ c, Consistent cmp c → ∀ j, Child i j → j < n → Ge c (base.getD k d) (base.getD j d) := by
  unfold child Child
  by_cases both : 2 * i + 1 + 1 < n
  · have asked := compare_spec d cmp s
      (show 2 * i + 1 < base.length by omega) (show 2 * i + 1 + 1 < base.length by omega)
    rw [if_pos both, asked]
    by_cases less : (cmp (base.getD (2 * i + 1) d) (base.getD (2 * i + 1 + 1) d) s).1 < 0
    · refine ⟨2 * i + 1 + 1, _, congrArg (fun k => some (k, _)) (if_pos less), .inr rfl, both, ?_⟩
      rintro c ⟨answers, order⟩ j (rfl | rfl) inside
      · rw [answers] at less
        exact Int.le_of_lt ((order.flip _ _).mpr less)
      · exact order.refl _
    · refine ⟨2 * i + 1, _, congrArg (fun k => some (k, _)) (if_neg less), .inl rfl, by omega, ?_⟩
      rintro c ⟨answers, order⟩ j (rfl | rfl) inside
      · exact order.refl _
      · rw [answers] at less
        exact Int.not_lt.mp less
  · rw [if_neg both]
    refine ⟨2 * i + 1, s, rfl, .inl rfl, by omega, ?_⟩
    rintro c ⟨-, order⟩ j (rfl | rfl) inside
    · exact order.refl _
    · exact absurd inside both

structure Shuffled (n : Nat) (f g : Nat → α) : Prop where
  inside : ∀ p < n, ∃ p' < n, g p = f p'
  outside : ∀ q, n ≤ q → g q = f q

theorem shuffled_refl (n : Nat) (f : Nat → α) : Shuffled n f f := ⟨fun p less => ⟨p, less, rfl⟩, fun _ _ => rfl⟩

theorem sift_spec (steps : Nat) (inside : i < n) (enough : n ≤ i + steps) (room : n ≤ base.length) :
    ∃ after s', sift cmp n steps i base s = some (after, s') ∧ after.Perm base ∧
      Shuffled n (base.getD · d) (after.getD · d) ∧ ∀ c low, Consistent cmp c → low ≤ i →
        Sifting (Ge c) low n i (base.getD · d) → Heap (Ge c) low n (after.getD · d) := by
  induction steps generalizing i base s with
  | zero => omega
  | succ steps ih =>
    by_cases half : i < n / 2
    · obtain ⟨k, s₁, chosen, isChild, below, most⟩ := child_spec d cmp s half room
      have asked := compare_spec d cmp s₁ (Nat.lt_of_lt_of_le inside room) (Nat.lt_of_lt_of_le below room)
      by_cases stop : 0 ≤ (cmp (base.getD i d) (base.getD k d) s₁).1
      · refine ⟨base, (cmp (base.getD i d) (base.getD k d) s₁).2, ?_, .refl _, shuffled_refl n _, ?_⟩
        · simp only [sift, if_pos half, chosen, asked, Option.bind_eq_bind, Option.bind_some, if_pos stop]
          rfl
        · intro c low consistent from_ sifting
          rw [consistent.answers] at stop
          exact sifting.done fun j next less => consistent.order.ge_trans stop (most c consistent j next less)
      · obtain ⟨mid, swapped, perm, values⟩ := swap_spec d (Nat.lt_of_lt_of_le inside room) (Nat.lt_of_lt_of_le below room)
        have deeper : i < k := by
          unfold Child at isChild
          omega
        have wide : n ≤ mid.length := perm.length_eq ▸ room
        obtain ⟨after, s', ran, perm', shuffled, heap⟩ :=
          ih (cmp (base.getD i d) (base.getD k d) s₁).2 below (by omega) wide
        refine ⟨after, s', ?_, perm'.trans perm, ⟨fun p less => ?_, fun q beyond => ?_⟩, ?_⟩
        · simp only [sift, if_pos half, chosen, asked, Option.bind_eq_bind, Option.bind_some, if_neg stop, swapped, ran]
        · obtain ⟨p', less', same⟩ := shuffled.inside p less
          refine ⟨Equiv.swap i k p', ?_, same.trans (congrFun values p')⟩
          rw [Equiv.swap_apply_def]
          split
          · exact below
          · split
            · exact inside
            · exact less'
        · refine (shuffled.outside q beyond).trans ((congrFun values q).trans ?_)
          exact congrArg (base.getD · d) (Equiv.swap_apply_of_ne_of_ne (by omega) (by omega))
        · intro c low consistent from_ sifting
          rw [consistent.answers, Int.not_le] at stop
          refine heap c low consistent (by omega) ?_
          rw [values]
          exact sifting.move isChild below (Int.le_of_lt ((consistent.order.flip _ _).mpr stop)) (most c consistent) from_
    · refine ⟨base, s, by rw [sift, if_neg half], .refl _, shuffled_refl n _, ?_⟩
      intro c low consistent from_ sifting
      exact sifting.done fun j next less => by
        unfold Child at next
        omega

theorem build_spec (small : i ≤ n) (room : n ≤ base.length) :
    ∃ after s', build cmp n i base s = some (after, s') ∧ after.Perm base ∧
      ∀ c, Consistent cmp c → Heap (Ge c) i n (base.getD · d) → Heap (Ge c) 0 n (after.getD · d) := by
  induction i generalizing base s with
  | zero => exact ⟨base, s, rfl, .refl _, fun c _ heap => heap⟩
  | succ i ih =>
    obtain ⟨mid, s₁, sifted, perm, -, heap⟩ := sift_spec d cmp s n small (Nat.le_add_left n i) room
    obtain ⟨after, s', built, perm', whole⟩ := ih s₁ (by omega) (by rw [perm.length_eq]; exact room)
    refine ⟨after, s', ?_, perm'.trans perm, fun c consistent above => ?_⟩
    · rw [build, sifted]
      exact built
    · exact whole c consistent (heap c i consistent (Nat.le_refl i) above.sifting)

def Tail (c : α → α → Int) (k : Nat) (base : List α) : Prop :=
  ∀ p q, p < q → k ≤ q → q < base.length → c (base.getD p d) (base.getD q d) ≤ 0

theorem extract_spec (inside : i < base.length) :
    ∃ after s', extract cmp i base s = some (after, s') ∧ after.Perm base ∧
      ∀ c, Consistent cmp c → Heap (Ge c) 0 (i + 1) (base.getD · d) → Tail d c (i + 1) base → Tail d c 1 after := by
  induction i generalizing base s with
  | zero => exact ⟨base, s, rfl, .refl _, fun c _ _ tail => tail⟩
  | succ i ih =>
    obtain ⟨mid, swapped, perm, values⟩ := swap_spec d (i := 0) (by omega) inside
    have same := perm.length_eq
    have wide : i + 1 ≤ mid.length := by omega
    obtain ⟨low, s₁, sifted, perm', shuffled, heap⟩ := sift_spec d cmp s (i + 1) (Nat.succ_pos i) (Nat.le_add_left _ 0) wide
    have same' := perm'.length_eq
    have next : i < low.length := by omega
    obtain ⟨after, s', ran, perm'', sorted⟩ := ih s₁ next
    refine ⟨after, s', ?_, perm''.trans (perm'.trans perm), fun c consistent whole tail => ?_⟩
    · rw [extract, swapped]
      simp only [Option.bind_eq_bind, Option.bind_some, sifted, ran]
    · have value : ∀ k, mid.getD k d = base.getD (Equiv.swap 0 (i + 1) k) d := fun k => congrFun values k
      have kept : ∀ k, k ≠ 0 → k ≠ i + 1 → mid.getD k d = base.getD k d := fun k first second => by
        rw [value, Equiv.swap_apply_of_ne_of_ne first second]
      have front : ∀ p < i + 1, ∀ q, i + 1 ≤ q → q < base.length → c (mid.getD p d) (mid.getD q d) ≤ 0 := by
        intro p less q beyond bound
        have moved : Equiv.swap 0 (i + 1) p ≤ i + 1 := by
          rw [Equiv.swap_apply_def]
          split
          · exact Nat.le_refl _
          · split <;> omega
        by_cases last : q = i + 1
        · rw [value p, value q, last, Equiv.swap_apply_right]
          exact consistent.order.flip_le (whole.top consistent.order.refl
            (fun x y z => consistent.order.ge_trans) _ (Nat.lt_succ_of_le moved))
        · rw [value p, kept q (by omega) last]
          exact tail _ q (by omega) (by omega) bound
      refine sorted c consistent (heap c 0 consistent (Nat.zero_le 0) ?_) ?_
      · constructor
        · intro k j _ differs next less
          unfold Child at next
          rw [kept k differs (by omega), kept j (by omega) (by omega)]
          exact whole k j (Nat.zero_le k) next (by omega)
        · intro k j _ above
          unfold Child at above
          omega
      · intro p q less beyond bound
        have last : low.getD q d = mid.getD q d := shuffled.outside q beyond
        rw [last]
        by_cases inner : p < i + 1
        · obtain ⟨p', less', from_⟩ := shuffled.inside p inner
          have from_ : low.getD p d = mid.getD p' d := from_
          rw [from_]
          exact front p' less' q beyond (by omega)
        · have first : low.getD p d = mid.getD p d := shuffled.outside p (Nat.le_of_not_lt inner)
          rw [first, kept q (by omega) (by omega)]
          by_cases here : p = i + 1
          · rw [value p, here, Equiv.swap_apply_right]
            exact tail 0 q (by omega) (by omega) (by omega)
          · rw [kept p (by omega) here]
            exact tail p q less (by omega) (by omega)

end

theorem qsort_r_sorts {σ : Type} {sz : Nat} (cmp : Vector UInt8 sz → Vector UInt8 sz → σ → Int × σ)
    (base : List (Vector UInt8 sz)) (s : σ) :
    ∃ after s', qsortR cmp base s = some (after, s') ∧ after.Perm base ∧
      ∀ c, Consistent cmp c → after.Pairwise fun x y => c x y ≤ 0 := by
  by_cases trivially : base.length < 2 ∨ sz = 0
  · refine ⟨base, s, if_pos trivially, .refl _, fun c consistent => ?_⟩
    rcases trivially with short | rfl
    · match base, short with
      | [], _ => exact .nil
      | [x], _ => exact List.pairwise_singleton _ x
    · refine List.pairwise_of_forall fun x y => ?_
      obtain rfl : x = y := by
        ext k inside
        omega
      exact consistent.order.flip_le (consistent.order.refl x)
  · rw [not_or, Nat.not_lt] at trivially
    obtain ⟨d, rest, rfl⟩ : ∃ d rest, base = d :: rest := List.exists_cons_of_ne_nil (by rintro rfl; simp at trivially)
    generalize d :: rest = base at trivially
    obtain ⟨mid, s₁, built, perm, heap⟩ := build_spec d cmp s (Nat.div_le_self base.length 2) (Nat.le_refl _)
    have same := perm.length_eq
    obtain ⟨after, s', ran, perm', sorted⟩ := extract_spec d cmp s₁ (show base.length - 1 < mid.length by omega)
    refine ⟨after, s', ?_, perm'.trans perm, fun c consistent => ?_⟩
    · rw [qsortR, if_neg (by omega), built]
      simp only [Option.bind_eq_bind, Option.bind_some, same, ran]
    · have leaves : Heap (Ge c) (base.length / 2) base.length (base.getD · d) := fun i j from_ next inside => by
        unfold Child at next
        omega
      have whole := heap c consistent leaves
      rw [show base.length = base.length - 1 + 1 by omega] at whole
      have tail := sorted c consistent whole fun p q less beyond bound => by omega
      refine List.pairwise_iff_getElem.mpr fun p q first second less => ?_
      have ordered := tail p q less (by omega) second
      rwa [List.getD_eq_getElem _ _ first, List.getD_eq_getElem _ _ second] at ordered

theorem qsort_r_sorts_three : ∃ after, qsortR (fun (x y : Vector UInt8 1) () => ((x[0].toNat : Int) - y[0].toNat, ()))
      [#v[3], #v[1], #v[2]] () = some (after, ()) ∧ after.Pairwise fun x y => (x[0].toNat : Int) - y[0].toNat ≤ 0 := by
  obtain ⟨after, ⟨⟩, ran, -, sorted⟩ := qsort_r_sorts (fun (x y : Vector UInt8 1) () => ((x[0].toNat : Int) - y[0].toNat, ()))
    [#v[3], #v[1], #v[2]] ()
  exact ⟨after, ran, sorted _ ⟨fun _ _ _ => rfl, fun a b => by omega, fun a b c => by omega⟩⟩

end Spicule.Qsort
