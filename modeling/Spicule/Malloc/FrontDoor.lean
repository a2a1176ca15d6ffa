import Mathlib

namespace Spicule.Malloc
open List Nat

def word : Nat := 2 ^ 64

structure Block where
  ptr : Nat
  size : Nat
deriving DecidableEq, Repr

def Block.Apart (b c : Block) : Prop := b.ptr + b.size ≤ c.ptr ∨ c.ptr + c.size ≤ b.ptr

instance (b c : Block) : Decidable (b.Apart c) := inferInstanceAs (Decidable (_ ∨ _))

def Block.Holds (b : Block) (addr : Nat) : Prop := b.ptr ≤ addr ∧ addr < b.ptr + b.size

instance (b : Block) (addr : Nat) : Decidable (b.Holds addr) := inferInstanceAs (Decidable (_ ∧ _))

def Fresh (live : List Block) (b : Block) : Prop :=
  b.ptr ≠ 0 ∧ b.ptr % 16 = 0 ∧ b.ptr + b.size ≤ word ∧ ∀ c ∈ live, b.Apart c

instance (live : List Block) (b : Block) : Decidable (Fresh live b) := inferInstanceAs (Decidable (_ ∧ _ ∧ _ ∧ _))

inductive Event where
  | alloc (n : Nat) (zero : Bool) (result : Nat)
  | realloc (p n result : Nat) (released : Bool)
  | allocSize (p : Nat)
  | dealloc (p : Nat)
deriving DecidableEq, Repr

structure AlignedRec where
  user : Nat
  base : Nat
  next : Nat
deriving DecidableEq, Repr

inductive Errno where
  | enomem
  | einval
deriving DecidableEq, Repr

-- `answers` is what the platform will answer; an address that is not fresh is a failed allocation.
-- `freesOnZero`: plat_malloc_generic.h, which releases on a resize to nothing.
structure World where
  freesOnZero : Bool
  answers : List Nat
  live : List Block
  log : List Event
  cells : Nat → AlignedRec
  alignedList : Nat
  errno : Option Errno

def withoutBlock (p : Nat) (live : List Block) : List Block := live.eraseP fun b => p == b.ptr

def platAlloc (w : World) (n : Nat) (zero : Bool) : Nat × World :=
  let answer := w.answers.headD 0
  let block : Block := ⟨answer, max n 1⟩
  if Fresh w.live block then
    (answer, { w with answers := w.answers.tail, live := block :: w.live, log := .alloc n zero answer :: w.log })
  else (0, { w with answers := w.answers.tail, log := .alloc n zero 0 :: w.log })

def platRealloc (w : World) (p n : Nat) : Nat × World :=
  if w.freesOnZero = true ∧ n = 0 then
    (0, { w with live := withoutBlock p w.live, log := .realloc p n 0 true :: w.log })
  else
    let answer := w.answers.headD 0
    let block : Block := ⟨answer, max n 1⟩
    if Fresh (withoutBlock p w.live) block then
      (answer, { w with answers := w.answers.tail, live := block :: withoutBlock p w.live,
                        log := .realloc p n answer true :: w.log })
    else (0, { w with answers := w.answers.tail, log := .realloc p n 0 false :: w.log })

def platAllocSize (w : World) (p : Nat) : Nat × World :=
  (((w.live.find? fun b => b.ptr == p).map Block.size).getD 0, { w with log := .allocSize p :: w.log })

def platDealloc (w : World) (p : Nat) : World :=
  { w with live := withoutBlock p w.live, log := .dealloc p :: w.log }

def gain (result : Nat) (live : List Nat) : List Nat := if result = 0 then live else result :: live

def liveOf : List Event → List Nat
  | [] => []
  | .alloc _ _ result :: rest => gain result (liveOf rest)
  | .realloc p _ result released :: rest => gain result (if released then (liveOf rest).erase p else liveOf rest)
  | .allocSize _ :: rest => liveOf rest
  | .dealloc p :: rest => (liveOf rest).erase p

def handed : Event → Option Nat
  | .alloc _ _ _ => none
  | .realloc p _ _ _ => some p
  | .allocSize p => some p
  | .dealloc p => some p

def Legal : List Event → Prop
  | [] => True
  | event :: rest => (∀ p, handed event = some p → p ∈ liveOf rest) ∧ Legal rest

instance legalDecidable : (log : List Event) → Decidable (Legal log)
  | [] => inferInstanceAs (Decidable True)
  | event :: rest =>
    have := legalDecidable rest
    inferInstanceAs (Decidable ((∀ p ∈ handed event, p ∈ liveOf rest) ∧ Legal rest))

def returns (p : Nat) : Event → Bool
  | .alloc _ _ result => decide (result = p)
  | .realloc _ _ result _ => decide (result = p)
  | _ => false

def releases (p : Nat) : Event → Bool
  | .realloc q _ _ released => released && decide (q = p)
  | .dealloc q => decide (q = p)
  | _ => false

theorem gain_count {result : Nat} {live : List Nat} {p : Nat} (present : p ≠ 0) :
    (gain result live).count p = live.count p + if result = p then 1 else 0 := by
  by_cases failed : result = 0
  · simp [gain, failed, Ne.symm present]
  · by_cases same : result = p
    · simp [gain, same, present]
    · simp [gain, failed, same]

theorem erase_count_member {live : List Nat} {q : Nat} (mem : q ∈ live) (p : Nat) :
    (live.erase q).count p + (if q = p then 1 else 0) = live.count p := by
  by_cases same : q = p
  · subst same
    have pos := count_pos_iff.mpr mem
    rw [count_erase_self, if_pos rfl]
    omega
  · rw [count_erase_of_ne (Ne.symm same), if_neg same, add_zero]

theorem legal_balance (log : List Event) (legal : Legal log) (p : Nat) (present : p ≠ 0) :
    log.countP (returns p) = log.countP (releases p) + (liveOf log).count p := by
  induction log with
  | nil => rfl
  | cons event rest ih =>
    obtain ⟨live, legal⟩ := legal
    have balance := ih legal
    rw [countP_cons, countP_cons]
    cases event with
    | alloc n zero result =>
      simp only [liveOf, returns, releases, gain_count present, Bool.false_eq_true, if_false, decide_eq_true_eq]
      omega
    | allocSize q =>
      simp only [liveOf, returns, releases, Bool.false_eq_true, if_false]
      omega
    | dealloc q =>
      have count := erase_count_member (live q rfl) p
      simp only [liveOf, returns, releases, Bool.false_eq_true, if_false, decide_eq_true_eq]
      omega
    | realloc q n result released =>
      have count := erase_count_member (live q rfl) p
      simp only [liveOf, returns, releases, gain_count present, Bool.and_eq_true, decide_eq_true_eq]
      cases released with
      | false =>
        simp only [Bool.false_eq_true, if_false, false_and]
        omega
      | true =>
        simp only [if_true, true_and]
        omega

structure Sound (w : World) : Prop where
  recorded : liveOf w.log = w.live.map Block.ptr
  apart : w.live.Pairwise Block.Apart
  present : ∀ b ∈ w.live, b.ptr ≠ 0 ∧ 0 < b.size

theorem without_block_ptrs (p : Nat) (live : List Block) :
    (withoutBlock p live).map Block.ptr = (live.map Block.ptr).erase p := by
  rw [withoutBlock, erase_eq_eraseP, eraseP_map]
  rfl

theorem without_block_sublist (p : Nat) (live : List Block) : (withoutBlock p live).Sublist live := eraseP_sublist

theorem sound_fresh {live : List Block} {b : Block} (apart : live.Pairwise Block.Apart)
    (present : ∀ c ∈ live, c.ptr ≠ 0 ∧ 0 < c.size) (fresh : Fresh live b) (filled : 0 < b.size) :
    (b :: live).Pairwise Block.Apart ∧ ∀ c ∈ b :: live, c.ptr ≠ 0 ∧ 0 < c.size := by
  refine ⟨pairwise_cons.mpr ⟨fresh.2.2.2, apart⟩, ?_⟩
  intro c mem
  rcases mem_cons.mp mem with rfl | mem
  · exact ⟨fresh.1, filled⟩
  · exact present c mem

theorem Sound.without {w : World} (sound : Sound w) (p : Nat) :
    (withoutBlock p w.live).Pairwise Block.Apart ∧ ∀ b ∈ withoutBlock p w.live, b.ptr ≠ 0 ∧ 0 < b.size :=
  ⟨sound.apart.sublist (without_block_sublist p w.live),
    fun b mem => sound.present b ((without_block_sublist p w.live).subset mem)⟩

-- A call takes an answer and logs itself, or hands out one fresh block.
theorem plat_alloc_cases (w : World) (n : Nat) (zero : Bool) :
    (platAlloc w n zero = (0, { w with answers := w.answers.tail, log := .alloc n zero 0 :: w.log })) ∨
      ∃ answer, Fresh w.live ⟨answer, max n 1⟩ ∧
        platAlloc w n zero = (answer, { w with answers := w.answers.tail, live := ⟨answer, max n 1⟩ :: w.live,
                                               log := .alloc n zero answer :: w.log }) := by
  by_cases fresh : Fresh w.live ⟨w.answers.headD 0, max n 1⟩
  · exact .inr ⟨w.answers.headD 0, fresh, by simp only [platAlloc, if_pos fresh]⟩
  · exact .inl (by simp only [platAlloc, if_neg fresh])

theorem plat_realloc_cases (w : World) (p n : Nat) (kept : ¬ (w.freesOnZero = true ∧ n = 0)) :
    (platRealloc w p n = (0, { w with answers := w.answers.tail, log := .realloc p n 0 false :: w.log })) ∨
      ∃ answer, Fresh (withoutBlock p w.live) ⟨answer, max n 1⟩ ∧
        platRealloc w p n = (answer, { w with answers := w.answers.tail, live := ⟨answer, max n 1⟩ :: withoutBlock p w.live,
                                              log := .realloc p n answer true :: w.log }) := by
  by_cases fresh : Fresh (withoutBlock p w.live) ⟨w.answers.headD 0, max n 1⟩
  · exact .inr ⟨w.answers.headD 0, fresh, by simp only [platRealloc, if_neg kept, if_pos fresh]⟩
  · exact .inl (by simp only [platRealloc, if_neg kept, if_neg fresh])

def withErrno (result : Nat × World) : Nat × World :=
  if result.1 = 0 then (0, { result.2 with errno := some .enomem }) else result

def malloc (w : World) (size : Nat) : Nat × World := withErrno (platAlloc w size false)

-- The guard `size && count > SIZE_MAX / size`.
def multiplyWraps (count size : Nat) : Prop := size ≠ 0 ∧ count > (word - 1) / size

instance (count size : Nat) : Decidable (multiplyWraps count size) := inferInstanceAs (Decidable (_ ∧ _))

def calloc (w : World) (count size : Nat) : Nat × World :=
  if multiplyWraps count size then (0, { w with errno := some .enomem })
  else withErrno (platAlloc w (count * size) true)

def realloc (w : World) (p size : Nat) : Nat × World :=
  if p = 0 then malloc w size else withErrno (platRealloc w p size)

def mallocUsableSize (w : World) (p : Nat) : Nat × World := if p = 0 then (0, w) else platAllocSize w p

def reallocarray (w : World) (p count size : Nat) : Nat × World :=
  if multiplyWraps count size then (0, { w with errno := some .enomem }) else realloc w p (count * size)

def loadLink (w : World) (pp : Option Nat) : Nat :=
  match pp with
  | none => w.alignedList
  | some r => (w.cells r).next

def storeLink (w : World) (pp : Option Nat) (value : Nat) : World :=
  match pp with
  | none => { w with alignedList := value }
  | some r => { w with cells := Function.update w.cells r { w.cells r with next := value } }

def findRecord (w : World) (p : Nat) : Nat → Option Nat → Option (Option Nat × Nat)
  | 0, _ => none
  | fuel + 1, pp =>
    let r := loadLink w pp
    if r = 0 then none
    else if (w.cells r).user = p then some (pp, r)
    else findRecord w p fuel (some r)

def free (w : World) (p : Nat) : World :=
  if p = 0 then w
  else
    match findRecord w p (w.live.length + 1) none with
    | some (pp, r) =>
      let w := storeLink w pp (w.cells r).next
      platDealloc (platDealloc w (w.cells r).base) r
    | none => platDealloc w p

-- `(base + align - 1) & ~(align - 1)` on uintptr_t.
def alignUp (base align : Nat) : Nat := ((base + align - 1) % word) &&& (word - 1 - (align - 1))

def overAligned (align : Nat) : Bool := decide (align > 16)

abbrev Memalign := Option Errno × Nat × World

def memalignPlain (w : World) (len : Nat) : Memalign :=
  let p := malloc w len
  if p.1 = 0 then (some .enomem, 0, p.2) else (none, p.1, p.2)

-- The sizes are those of a 64-bit target: pointers of 8 bytes, records of 24.
def memalignCarved (w : World) (align len : Nat) : Memalign :=
  let r := malloc w 24
  if r.1 = 0 then (some .enomem, 0, r.2)
  else
    let base := malloc r.2 (len + align)
    if base.1 = 0 then (some .enomem, 0, free base.2 r.1)
    else
      (none, alignUp base.1 align,
        { base.2 with cells := Function.update base.2.cells r.1 ⟨alignUp base.1 align, base.1, base.2.alignedList⟩,
                      alignedList := r.1 })

def posixMemalign (w : World) (align len : Nat) : Memalign :=
  if align < 8 ∨ align &&& (align - 1) ≠ 0 then (some .einval, 0, w)
  else if align ≤ 16 then memalignPlain w len
  else if len > word - 1 - align then (some .enomem, 0, w)
  else memalignCarved w align len

def alignedAlloc (w : World) (alignment size : Nat) : Nat × World :=
  let result := posixMemalign w (if alignment < 8 then 8 else alignment) size
  match result.1 with
  | some error => (0, { result.2.2 with errno := some error })
  | none => result.2

def memalign (w : World) (align len : Nat) : Nat × World := alignedAlloc w align len

def valloc (w : World) (len : Nat) : Nat × World := alignedAlloc w 4096 len

theorem mask_high_bits (x k : Nat) (bound : x < 2 ^ 64) (small : k ≤ 64) :
    x &&& (2 ^ 64 - 1 - (2 ^ k - 1)) = x - x % 2 ^ k := by
  have high : 2 ^ 64 - 1 - (2 ^ k - 1) = 2 ^ k * (2 ^ (64 - k) - 1) := by
    have pos := Nat.one_le_two_pow (n := k)
    rw [Nat.mul_sub, ← Nat.pow_add, Nat.add_sub_cancel' small]
    omega
  have whole : x - x % 2 ^ k = 2 ^ k * (x / 2 ^ k) := by
    have split := div_add_mod x (2 ^ k)
    omega
  rw [high, whole]
  apply eq_of_testBit_eq
  intro i
  rw [testBit_and, testBit_two_pow_mul, testBit_two_pow_mul, testBit_two_pow_sub_one, testBit_div_two_pow]
  by_cases low : k ≤ i
  · by_cases high : i < 64
    · simp [low, show i - k < 64 - k by omega, show i - k + k = i by omega]
    · have zero : x.testBit i = false :=
        testBit_lt_two_pow (Nat.lt_of_lt_of_le bound (Nat.pow_le_pow_right (by decide) (by omega)))
      simp [low, zero, show i - k + k = i by omega]
  · simp [low]

theorem align_up_bounds {base align : Nat} (power : align &&& (align - 1) = 0) (pos : 0 < align)
    (fits : base + align ≤ word) : base ≤ alignUp base align ∧ alignUp base align < base + align := by
  obtain ⟨k, rfl⟩ := (and_sub_one_eq_zero_iff_isPowerOfTwo (by omega)).mp power
  unfold word at fits
  have small : k ≤ 64 := by
    by_contra large
    have bigger : 2 ^ 65 ≤ 2 ^ k := Nat.pow_le_pow_right (by decide) (by omega)
    omega
  have remainder := mod_lt (base + 2 ^ k - 1) pos
  rw [alignUp, word, mod_eq_of_lt (by omega), mask_high_bits _ k (by omega) small]
  omega

end Spicule.Malloc
