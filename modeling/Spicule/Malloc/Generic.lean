import Spicule.Malloc.FrontDoor

namespace Spicule.Malloc.Generic

def hdrSize : Nat := 16

def pageSize : Nat := 4096

def slabBytes : Nat := 64 * 1024

def numClasses : Nat := 12

-- `pages` is what __plat_pages_alloc answers, 0 where it fails. Not in the code: `live`, the
-- pointers handed out, and `released`, those given to __plat_dealloc.
structure Heap where
  mem : Nat → UInt8
  freeList : Nat → Nat
  pages : List Nat
  unmapped : List Block
  live : List Nat
  released : List Nat
  errno : Option Errno

def memset (mem : Nat → UInt8) (s : Nat) (c : UInt8) (n : Nat) : Nat → UInt8 := fun a =>
  if s ≤ a ∧ a < s + n then c else mem a

def memcpy (mem : Nat → UInt8) (dst src n : Nat) : Nat → UInt8 := fun a =>
  if dst ≤ a ∧ a < dst + n then mem (src + (a - dst)) else mem a

def loadWord (mem : Nat → UInt8) (addr : Nat) : Nat :=
  (List.range 8).foldr (fun i high => (mem (addr + i)).toNat + 256 * high) 0

def storeWord (mem : Nat → UInt8) (addr value : Nat) : Nat → UInt8 := fun a =>
  if addr ≤ a ∧ a < addr + 8 then UInt8.ofNat (value / 256 ^ (a - addr)) else mem a

def largeClass : Nat := word - 1

def writeHdr (mem : Nat → UInt8) (hdr size cls : Nat) : Nat → UInt8 := storeWord (storeWord mem hdr size) (hdr + 8) cls

def hdrSizeOf (h : Heap) (p : Nat) : Nat := loadWord h.mem (p - hdrSize)

def hdrClassOf (h : Heap) (p : Nat) : Nat := loadWord h.mem (p - hdrSize + 8)

def classSize (cls : Nat) : Nat := hdrSize * 2 ^ cls

-- none is -1.
def classFrom (n : Nat) : Nat → Nat → Nat → Option Nat
  | 0, _, _ => none
  | left + 1, cls, sz => if n ≤ sz then some cls else classFrom n left (cls + 1) (sz * 2)

def classFor (n : Nat) : Option Nat := classFrom n numClasses 0 hdrSize

def roundupPage (n : Nat) : Nat := (n + (pageSize - 1)) % word &&& (word - 1 - (pageSize - 1))

def platPagesAlloc (h : Heap) (total : Nat) : Nat × Heap :=
  let base := h.pages.headD 0
  if base = 0 then (0, { h with pages := h.pages.tail })
  else (base, { h with pages := h.pages.tail, mem := memset h.mem base 0 total })

def platPagesFree (h : Heap) (base total : Nat) : Heap := { h with unmapped := ⟨base, total⟩ :: h.unmapped }

def carve (cls slab : Nat) (h : Heap) (i : Nat) : Heap :=
  let hdr := slab + i * (hdrSize + classSize cls)
  let user := hdr + hdrSize
  { h with mem := storeWord (writeHdr h.mem hdr (classSize cls) cls) user (h.freeList cls),
           freeList := Function.update h.freeList cls user }

def refillLocked (h : Heap) (cls : Nat) : Heap :=
  let slab := platPagesAlloc h slabBytes
  if slab.1 = 0 then slab.2
  else (List.range (slabBytes / (hdrSize + classSize cls))).foldl (carve cls slab.1) slab.2

def handOut (h : Heap) (user : Nat) (zero : Bool) (n : Nat) : Nat × Heap :=
  (user, { h with mem := if zero then memset h.mem user 0 n else h.mem, live := user :: h.live })

def allocLarge (h : Heap) (n : Nat) (zero : Bool) : Nat × Heap :=
  if n > word - 1 - hdrSize - (pageSize - 1) then (0, h)
  else
    let base := platPagesAlloc h (roundupPage (hdrSize + n))
    if base.1 = 0 then (0, base.2)
    else handOut { base.2 with mem := writeHdr base.2.mem base.1 n largeClass } (base.1 + hdrSize) zero n

def allocClass (h : Heap) (cls : Nat) (zero : Bool) : Nat × Heap :=
  let h := if h.freeList cls = 0 then refillLocked h cls else h
  if h.freeList cls = 0 then (0, h)
  else
    let user := h.freeList cls
    handOut { h with freeList := Function.update h.freeList cls (loadWord h.mem user) } user zero (hdrSizeOf h user)

def platAlloc (h : Heap) (n : Nat) (zero : Bool) : Nat × Heap :=
  let n := if n = 0 then 1 else n
  if n > classSize (numClasses - 1) then allocLarge h n zero
  else
    match classFor n with
    | some cls => allocClass h cls zero
    | none => (0, h)

def platDealloc (h : Heap) (p : Nat) : Heap :=
  if p = 0 then h
  else
    let h := { h with live := h.live.erase p, released := p :: h.released }
    let cls := hdrClassOf h p
    if word / 2 ≤ cls then platPagesFree h (p - hdrSize) (roundupPage (hdrSize + hdrSizeOf h p))
    else { h with mem := storeWord h.mem p (h.freeList cls), freeList := Function.update h.freeList cls p }

def platRealloc (h : Heap) (p n : Nat) : Nat × Heap :=
  if p = 0 then platAlloc h n false
  else
    let old := hdrSizeOf h p
    if n = 0 then (0, platDealloc h p)
    else
      let q := platAlloc h n false
      if q.1 = 0 then (0, q.2)
      else (q.1, platDealloc { q.2 with mem := memcpy q.2.mem q.1 p (if old < n then old else n) } p)

def withErrno (result : Nat × Heap) : Nat × Heap :=
  if result.1 = 0 then (0, { result.2 with errno := some .enomem }) else result

def malloc (h : Heap) (size : Nat) : Nat × Heap := withErrno (platAlloc h size false)

def realloc (h : Heap) (p size : Nat) : Nat × Heap :=
  if p = 0 then malloc h size else withErrno (platRealloc h p size)

def reallocarray (h : Heap) (p count size : Nat) : Nat × Heap :=
  if multiplyWraps count size then (0, { h with errno := some .enomem }) else realloc h p (count * size)

structure Kept (h after : Heap) : Prop where
  live : after.live = h.live
  contents : after.mem = h.mem
  unreleased : after.released = h.released

theorem pages_failed {h : Heap} {total : Nat} (failed : (platPagesAlloc h total).1 = 0) :
    Kept h (platPagesAlloc h total).2 := by
  unfold platPagesAlloc at failed ⊢
  by_cases none_left : h.pages.headD 0 = 0
  · simp only [if_pos none_left]
    exact ⟨rfl, rfl, rfl⟩
  · simp only [if_neg none_left] at failed
    exact absurd failed none_left

variable {n cls : Nat}
theorem slab_holds_chunk (found : classFor n = some cls) : 0 < slabBytes / (hdrSize + classSize cls) := by
  have bounded : ∀ left cls' sz, classFrom n left cls' sz = some cls → cls < cls' + left := by
    intro left
    induction left with
    | zero => exact fun _ _ none_of => nomatch none_of
    | succ left ih =>
      intro cls' sz found
      unfold classFrom at found
      split at found
      · cases found
        omega
      · have := ih _ _ found
        omega
  have small : classSize cls ≤ classSize 11 :=
    Nat.mul_le_mul_left _ (Nat.pow_le_pow_right (by decide) (Nat.le_of_lt_succ (bounded 12 0 _ found)))
  exact Nat.div_pos (Nat.le_trans (Nat.add_le_add_left small _) (by decide)) (Nat.add_pos_left (by decide) _)

section
variable {h : Heap}
include h

theorem refill_failed (found : classFor n = some cls)
    (failed : (refillLocked h cls).freeList cls = 0) : Kept h (refillLocked h cls) := by
  unfold refillLocked at failed ⊢
  by_cases refused : (platPagesAlloc h slabBytes).1 = 0
  · simp only [if_pos refused]
    exact pages_failed refused
  · obtain ⟨chunks, more⟩ := Nat.exists_eq_add_one_of_ne_zero (Nat.pos_iff_ne_zero.mp (slab_holds_chunk found))
    simp only [if_neg refused] at failed
    rw [more, List.range_succ, List.foldl_append] at failed
    simp only [List.foldl_cons, List.foldl_nil, carve, Function.update_self, hdrSize] at failed
    omega

variable {zero : Bool}
theorem large_failed (failed : (allocLarge h n zero).1 = 0) : Kept h (allocLarge h n zero).2 := by
  unfold allocLarge at failed ⊢
  split at failed
  · rename_i wraps
    rw [if_pos wraps]
    exact ⟨rfl, rfl, rfl⟩
  · rename_i fits
    rw [if_neg fits]
    by_cases refused : (platPagesAlloc h (roundupPage (hdrSize + n))).1 = 0
    · simp only [if_pos refused]
      exact pages_failed refused
    · simp only [if_neg refused, handOut] at failed
      exact absurd failed (Nat.ne_of_gt (Nat.add_pos_right _ (by decide)))

theorem class_failed (found : classFor n = some cls)
    (failed : (allocClass h cls zero).1 = 0) : Kept h (allocClass h cls zero).2 := by
  unfold allocClass at failed ⊢
  by_cases empty : h.freeList cls = 0
  · simp only [if_pos empty] at failed ⊢
    by_cases still : (refillLocked h cls).freeList cls = 0
    · simp only [if_pos still]
      exact refill_failed found still
    · simp only [if_neg still, handOut] at failed
      exact absurd failed still
  · simp only [if_neg empty, handOut] at failed
    exact absurd failed empty

theorem alloc_failed (failed : (platAlloc h n zero).1 = 0) : Kept h (platAlloc h n zero).2 := by
  unfold platAlloc at failed ⊢
  dsimp only at failed ⊢
  generalize (if n = 0 then 1 else n) = n at failed ⊢
  split at failed
  · rename_i large
    rw [if_pos large]
    exact large_failed failed
  · rename_i small
    rw [if_neg small]
    split at failed
    · rename_i cls found
      exact class_failed found failed
    · exact ⟨rfl, rfl, rfl⟩

theorem dealloc_released {p : Nat} (present : p ≠ 0) : (platDealloc h p).released = p :: h.released := by
  unfold platDealloc
  rw [if_neg present]
  dsimp only
  split <;> rfl

theorem realloc_failed {p : Nat} (present : p ≠ 0) (sized : n ≠ 0) (failed : (platRealloc h p n).1 = 0) :
    Kept h (platRealloc h p n).2 := by
  unfold platRealloc at failed ⊢
  simp only [if_neg present, if_neg sized] at failed ⊢
  by_cases refused : (platAlloc h n false).1 = 0
  · simp only [if_pos refused]
    exact alloc_failed refused
  · simp only [if_neg refused] at failed
    exact absurd failed refused

theorem errno_kept {result : Nat × Heap} (kept : result.1 = 0 → Kept h result.2)
    (failed : (withErrno result).1 = 0) : Kept h (withErrno result).2 := by
  unfold withErrno at failed ⊢
  split at failed
  · rename_i null
    rw [if_pos null]
    obtain ⟨live, contents, unreleased⟩ := kept null
    exact ⟨live, contents, unreleased⟩
  · rename_i valid
    exact absurd failed valid

theorem realloc_keeps_iff {p size : Nat} (present : p ≠ 0) :
    ((realloc h p size).1 = 0 → Kept h (realloc h p size).2) ↔ size ≠ 0 := by
  rw [realloc, if_neg present]
  constructor
  · rintro kept rfl
    have gone : platRealloc h p 0 = (0, platDealloc h p) := by rw [platRealloc, if_neg present]; rfl
    rw [gone] at kept
    exact List.cons_ne_self p h.released ((dealloc_released present).symm.trans (kept rfl).unreleased)
  · intro sized failed
    exact errno_kept (realloc_failed present sized) failed

end

-- A resize to no bytes gives the block back and answers NULL; no other one that answers
-- NULL touches anything.
theorem failed_resize_keeps (h : Heap) (p : Nat) (present : p ≠ 0) :
    (∀ size, ((realloc h p size).1 = 0 → Kept h (realloc h p size).2) ↔ size ≠ 0) ∧
      ∀ count size, ((reallocarray h p count size).1 = 0 → Kept h (reallocarray h p count size).2) ↔
        count ≠ 0 ∧ size ≠ 0 := by
  refine ⟨fun size => realloc_keeps_iff present, fun count size => ?_⟩
  rw [reallocarray]
  by_cases wraps : multiplyWraps count size
  · rw [if_pos wraps]
    exact iff_of_true (fun _ => ⟨rfl, rfl, rfl⟩) ⟨Nat.pos_iff_ne_zero.mp (Nat.lt_of_le_of_lt (Nat.zero_le _) wraps.2), wraps.1⟩
  · rw [if_neg wraps, realloc_keeps_iff present, Nat.mul_ne_zero_iff]

def start (pages : List Nat) : Heap := ⟨fun _ => 0, fun _ => 0, pages, [], [], [], none⟩

theorem failed_resize_keeps_chunk :
    let got := malloc (start [8192]) 20000
    got.1 = 8208 ∧ (realloc got.2 8208 40000).1 = 0 ∧ Kept got.2 (realloc got.2 8208 40000).2 := by
  intro got
  have answer : (realloc got.2 8208 40000).1 = 0 := by decide
  exact ⟨by decide, answer, ((failed_resize_keeps got.2 8208 (by decide)).1 40000).mpr (by decide) answer⟩

theorem resize_to_nothing_releases :
    let got := malloc (start [8192]) 20000
    let resized := realloc got.2 8208 0
    got.2.live = [8208] ∧ resized.1 = 0 ∧ resized.2.errno = some .enomem ∧ resized.2.live = [] ∧
      resized.2.released = [8208] ∧ (malloc resized.2 20000).1 = 8208 ∧ (reallocarray got.2 8208 0 8).2.released = [8208] := by
  decide

end Spicule.Malloc.Generic
