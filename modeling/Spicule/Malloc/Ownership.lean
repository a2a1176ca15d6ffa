import Spicule.Malloc.Accounts

namespace Spicule.Malloc
open List LinkedList

-- A `scribble`: the client writes its own memory, the platform what is not handed out.
inductive Call where
  | malloc (size : Nat)
  | calloc (count size : Nat)
  | realloc (p size : Nat)
  | reallocarray (p count size : Nat)
  | posixMemalign (align len : Nat)
  | alignedAlloc (alignment size : Nat)
  | memalign (align len : Nat)
  | valloc (len : Nat)
  | mallocUsableSize (p : Nat)
  | free (p : Nat)
  | scribble (addr : Nat) (value : AlignedRec)
deriving DecidableEq, Repr

structure Sys where
  world : World
  plain : List Nat
  spaced : List Nat

def Sys.receive (s : Sys) (result : Nat × World) : Sys :=
  { s with world := result.2, plain := gain result.1 s.plain }

def Sys.receiveAligned (s : Sys) (align : Nat) (result : Nat × World) : Sys :=
  if overAligned align then { s with world := result.2, spaced := gain result.1 s.spaced }
  else s.receive result

def Sys.exchange (s : Sys) (p : Nat) (result : Nat × World) : Sys :=
  if result.1 = 0 then { s with world := result.2 }
  else { world := result.2, plain := result.1 :: s.plain.erase p, spaced := s.spaced.erase p }

def step (s : Sys) : Call → Sys
  | .malloc size => s.receive (malloc s.world size)
  | .calloc count size => s.receive (calloc s.world count size)
  | .realloc p size => s.exchange p (realloc s.world p size)
  | .reallocarray p count size => s.exchange p (reallocarray s.world p count size)
  | .posixMemalign align len => s.receiveAligned align (posixMemalign s.world align len).2
  | .alignedAlloc alignment size => s.receiveAligned alignment (alignedAlloc s.world alignment size)
  | .memalign align len => s.receiveAligned align (memalign s.world align len)
  | .valloc len => s.receiveAligned 4096 (valloc s.world len)
  | .mallocUsableSize p => { s with world := (mallocUsableSize s.world p).2 }
  | .free p => { world := free s.world p, plain := s.plain.erase p, spaced := s.spaced.erase p }
  | .scribble addr value => { s with world := { s.world with cells := Function.update s.world.cells addr value } }

def Sys.Owns (s : Sys) (p : Nat) : Prop := p = 0 ∨ p ∈ s.plain ∨ p ∈ s.spaced

instance (s : Sys) (p : Nat) : Decidable (s.Owns p) := inferInstanceAs (Decidable (_ ∨ _ ∨ _))

-- The client passes only pointers it owns, and nobody writes into a live block it owns
-- nothing in.
def Allowed (s : Sys) : Call → Prop
  | .realloc p _ => s.Owns p
  | .reallocarray p _ _ => s.Owns p
  | .mallocUsableSize p => s.Owns p
  | .free p => s.Owns p
  | .scribble addr _ => ∀ b ∈ s.world.live, b.Holds addr → ∃ p ∈ s.plain ++ s.spaced, b.Holds p
  | _ => True

instance (s : Sys) : (call : Call) → Decidable (Allowed s call)
  | .malloc _ => inferInstanceAs (Decidable True)
  | .calloc _ _ => inferInstanceAs (Decidable True)
  | .realloc p _ => inferInstanceAs (Decidable (s.Owns p))
  | .reallocarray p _ _ => inferInstanceAs (Decidable (s.Owns p))
  | .posixMemalign _ _ => inferInstanceAs (Decidable True)
  | .alignedAlloc _ _ => inferInstanceAs (Decidable True)
  | .memalign _ _ => inferInstanceAs (Decidable True)
  | .valloc _ => inferInstanceAs (Decidable True)
  | .mallocUsableSize p => inferInstanceAs (Decidable (s.Owns p))
  | .free p => inferInstanceAs (Decidable (s.Owns p))
  | .scribble addr _ =>
    inferInstanceAs (Decidable (∀ b ∈ s.world.live, b.Holds addr → ∃ p ∈ s.plain ++ s.spaced, b.Holds p))

-- No resize of an over-aligned block, nor to nothing where that releases it.
def Resizable (s : Sys) (p size : Nat) : Prop :=
  p ≠ 0 → p ∉ s.spaced ∧ ¬ (s.world.freesOnZero = true ∧ size = 0)

instance (s : Sys) (p size : Nat) : Decidable (Resizable s p size) :=
  inferInstanceAs (Decidable (p ≠ 0 → p ∉ s.spaced ∧ ¬ (s.world.freesOnZero = true ∧ size = 0)))

def Sparing (s : Sys) : Call → Prop
  | .realloc p size => Resizable s p size
  | .reallocarray p count size => ¬ multiplyWraps count size → Resizable s p (count * size)
  | .mallocUsableSize p => p ∈ s.spaced → p ∈ s.world.live.map Block.ptr
  | _ => True

instance (s : Sys) : (call : Call) → Decidable (Sparing s call)
  | .malloc _ => inferInstanceAs (Decidable True)
  | .calloc _ _ => inferInstanceAs (Decidable True)
  | .realloc p size => inferInstanceAs (Decidable (Resizable s p size))
  | .reallocarray p count size =>
    inferInstanceAs (Decidable (¬ multiplyWraps count size → Resizable s p (count * size)))
  | .posixMemalign _ _ => inferInstanceAs (Decidable True)
  | .alignedAlloc _ _ => inferInstanceAs (Decidable True)
  | .memalign _ _ => inferInstanceAs (Decidable True)
  | .valloc _ => inferInstanceAs (Decidable True)
  | .mallocUsableSize p => inferInstanceAs (Decidable (p ∈ s.spaced → p ∈ s.world.live.map Block.ptr))
  | .free _ => inferInstanceAs (Decidable True)
  | .scribble _ _ => inferInstanceAs (Decidable True)

def run (s : Sys) (calls : List Call) : Sys := calls.foldl step s

def Throughout (condition : Sys → Call → Prop) : Sys → List Call → Prop
  | _, [] => True
  | s, call :: rest => condition s call ∧ Throughout condition (step s call) rest

def start (freesOnZero : Bool) (answers : List Nat) (cells : Nat → AlignedRec) : Sys :=
  ⟨⟨freesOnZero, answers, [], [], cells, 0, none⟩, [], []⟩

def Balanced (s : Sys) : Prop := ∃ recs, Accounts s.world s.plain s.spaced [] recs

section
variable {w : World} {plain spaced held recs : List Nat}
def Granted (plain spaced held recs : List Nat) (result : Nat × World) : Prop :=
  result.1 = 0 ∧ Accounts result.2 plain spaced held recs ∨
    result.1 ≠ 0 ∧ Accounts result.2 plain spaced (result.1 :: held) recs

theorem with_errno_granted {result : Nat × World} (granted : Granted plain spaced held recs result) :
    Granted plain spaced held recs (withErrno result) := by
  rcases granted with ⟨failed, accounts⟩ | ⟨made, accounts⟩
  · rw [withErrno, if_pos failed]
    exact .inl ⟨rfl, accounts_errno accounts⟩
  · rw [withErrno, if_neg made]
    exact .inr ⟨made, accounts⟩

section
variable (accounts : Accounts w plain spaced held recs)
include accounts

theorem plat_alloc_granted {n : Nat} {zero : Bool} : Granted plain spaced held recs (platAlloc w n zero) := by
  obtain ⟨p, w', call, ⟨failed, kept⟩ | ⟨made, taken, -⟩⟩ := accounts_alloc accounts n zero
  · rw [call]
    exact .inl ⟨failed, kept⟩
  · rw [call]
    exact .inr ⟨made, taken⟩

theorem malloc_granted (size : Nat) : Granted plain spaced held recs (malloc w size) :=
  with_errno_granted (plat_alloc_granted accounts)

theorem malloc_block (size : Nat) (made : (malloc w size).1 ≠ 0) :
    (⟨(malloc w size).1, max size 1⟩ : Block) ∈ (malloc w size).2.live ∧ (malloc w size).1 + max size 1 ≤ word := by
  obtain ⟨p, w', call, ⟨failed, -⟩ | ⟨made, -, block, bound⟩⟩ := accounts_alloc accounts size false
  · simp [malloc, withErrno, call, failed] at made
  · simp only [malloc, withErrno, call, if_neg made]
    exact ⟨block, bound⟩

theorem calloc_granted {count size : Nat} : Granted plain spaced held recs (calloc w count size) := by
  unfold calloc
  split
  · exact .inl ⟨rfl, accounts_errno accounts⟩
  · exact with_errno_granted (plat_alloc_granted accounts)

end

def GrantedOver (plain spaced recs : List Nat) (result : Nat × World) : Prop :=
  result.1 = 0 ∧ Accounts result.2 plain spaced [] recs ∨
    result.1 ≠ 0 ∧ ∃ recs', Accounts result.2 plain (result.1 :: spaced) [] recs'

section
variable (accounts : Accounts w plain spaced [] recs)
include accounts

theorem memalign_plain_granted (len : Nat) : Granted plain spaced [] recs (memalignPlain w len).2 := by
  simp only [memalignPlain]
  rcases malloc_granted accounts len with ⟨failed, kept⟩ | ⟨made, taken⟩
  · rw [if_pos failed]
    exact .inl ⟨rfl, kept⟩
  · rw [if_neg made]
    exact .inr ⟨made, taken⟩

theorem memalign_carved_granted {align len : Nat} (power : align &&& (align - 1) = 0) (pos : 0 < align) :
    GrantedOver plain spaced recs (memalignCarved w align len).2 := by
  simp only [memalignCarved]
  rcases malloc_granted accounts 24 with ⟨failed, kept⟩ | ⟨made, taken⟩
  · rw [if_pos failed]
    exact .inl ⟨rfl, kept⟩
  · rw [if_neg made]
    rcases malloc_granted taken (len + align) with ⟨failed, kept⟩ | ⟨madeBase, takenBase⟩
    · rw [if_pos failed]
      exact .inl ⟨rfl, accounts_free_held kept⟩
    · rw [if_neg madeBase]
      obtain ⟨block, bound⟩ := malloc_block taken _ madeBase
      rw [Nat.max_eq_left (by omega : 1 ≤ len + align)] at block bound
      have fits : (malloc (malloc w 24).2 (len + align)).1 + align ≤ word := by omega
      obtain ⟨low, high⟩ := align_up_bounds power pos fits
      exact .inr ⟨by simp only; omega, _, accounts_link takenBase block ⟨low, by omega⟩⟩

theorem posix_memalign_granted (align len : Nat) :
    if overAligned align then GrantedOver plain spaced recs (posixMemalign w align len).2
    else Granted plain spaced [] recs (posixMemalign w align len).2 := by
  by_cases invalid : align < 8 ∨ align &&& (align - 1) ≠ 0
  · rw [posixMemalign, if_pos invalid]
    split <;> exact .inl ⟨rfl, accounts⟩
  · rw [posixMemalign, if_neg invalid]
    by_cases small : align ≤ 16
    · rw [if_pos small, if_neg (by simpa [overAligned] using small)]
      exact memalign_plain_granted accounts len
    · rw [if_neg small, if_pos (by simpa [overAligned] using small)]
      split
      · exact .inl ⟨rfl, accounts⟩
      · refine memalign_carved_granted accounts ?_ (by omega)
        by_contra other
        exact invalid (.inr other)

end

theorem posix_memalign_error {w : World} {align len : Nat} {error : Errno}
    (failed : (posixMemalign w align len).1 = some error) : (posixMemalign w align len).2.1 = 0 := by
  revert failed
  simp only [posixMemalign, memalignPlain, memalignCarved]
  repeat' split
  all_goals simp

theorem aligned_alloc_granted (accounts : Accounts w plain spaced [] recs) {alignment size : Nat} :
    if overAligned alignment then GrantedOver plain spaced recs (alignedAlloc w alignment size)
    else Granted plain spaced [] recs (alignedAlloc w alignment size) := by
  have granted := posix_memalign_granted accounts (if alignment < 8 then 8 else alignment) size
  have same : overAligned (if alignment < 8 then 8 else alignment) = overAligned alignment := by
    simp only [overAligned, decide_eq_decide]
    split <;> omega
  rw [same] at granted
  unfold alignedAlloc
  dsimp only
  cases outcome : (posixMemalign w (if alignment < 8 then 8 else alignment) size).1 with
  | none => exact granted
  | some error =>
    have null := posix_memalign_error outcome
    have kept : Accounts (posixMemalign w (if alignment < 8 then 8 else alignment) size).2.2 plain spaced [] recs := by
      split at granted
      all_goals
        rcases granted with ⟨-, kept⟩ | ⟨made, -⟩
        · exact kept
        · exact absurd null made
    split <;> exact .inl ⟨rfl, accounts_errno kept⟩

variable {p : Nat}
theorem realloc_granted (accounts : Accounts w plain spaced [] recs) (size : Nat)
    (owned : p = 0 ∨ p ∈ plain) (kept : p ≠ 0 → ¬ (w.freesOnZero = true ∧ size = 0)) :
    (realloc w p size).1 = 0 ∧ Accounts (realloc w p size).2 plain spaced [] recs ∨
      (realloc w p size).1 ≠ 0 ∧ Accounts (realloc w p size).2 ((realloc w p size).1 :: plain.erase p) spaced [] recs := by
  by_cases null : p = 0
  · have absent : p ∉ plain := by
      intro mem
      exact accounts.null_not (by simp [mem]) null
    rw [erase_of_not_mem absent, realloc, if_pos null]
    rcases malloc_granted accounts size with failed | ⟨made, taken⟩
    · exact .inl failed
    · exact .inr ⟨made, accounts_move taken fun q => by simp only [count_cons, count_nil]; omega⟩
  · have mem : p ∈ plain := owned.resolve_left null
    have count : ∀ q, [p].count q + (plain.erase p).count q = ([] : List Nat).count q + plain.count q := by
      intro q
      have whole := (perm_cons_erase mem).count_eq q
      rw [count_cons] at whole
      simp only [count_cons, count_nil]
      omega
    have moved := accounts_move accounts count
    rw [realloc, if_neg null]
    obtain ⟨q, w', call, ⟨failed, same⟩ | ⟨made, taken⟩⟩ := accounts_realloc moved size (kept null)
    · rw [call, withErrno, if_pos failed]
      exact .inl ⟨rfl, accounts_errno (accounts_move same fun a => (count a).symm)⟩
    · rw [call, withErrno, if_neg made]
      exact .inr ⟨made, accounts_move taken fun a => by simp only [count_cons, count_nil]; omega⟩

theorem Accounts.over_not_plain (accounts : Accounts w plain spaced held recs) (mem : p ∈ spaced) : p ∉ plain := by
  obtain ⟨r, inRecs, rfl⟩ := mem_map.mp (accounts.overs.mem_iff.mpr mem)
  intro inPlain
  exact accounts.user_not inRecs (.inr (.inl inPlain)) rfl

theorem Accounts.over_not_null (accounts : Accounts w plain spaced held recs) (mem : p ∈ spaced) : p ≠ 0 := by
  obtain ⟨r, inRecs, rfl⟩ := mem_map.mp (accounts.overs.mem_iff.mpr mem)
  obtain ⟨b, inLive, -, holds⟩ := accounts.inside r inRecs
  have present := (accounts.sound.present b inLive).1
  unfold Block.Holds at holds
  omega

theorem scribble_outside (s : Sys) (accounts : Accounts s.world s.plain s.spaced [] recs) {addr : Nat} {value : AlignedRec}
    (allowed : Allowed s (.scribble addr value)) : addr ∉ recs := by
  intro mem
  obtain ⟨b, inLive, same, holds⟩ := accounts.live_of_place (p := addr) (by simp [mem])
  obtain ⟨p, owned, holdsP⟩ := allowed b inLive holds
  rcases mem_append.mp owned with inPlain | inOver
  · obtain ⟨c, inLiveC, sameC, holdsC⟩ := accounts.live_of_place (p := p) (by simp [inPlain])
    have equal := accounts.sound.holds_unique inLive inLiveC holdsP holdsC
    have nodup := accounts.places_nodup
    simp only [nil_append, nodup_append, mem_append] at nodup
    exact nodup.2.2 addr mem addr (.inr (by rwa [← same, equal, sameC])) rfl
  · obtain ⟨r, inRecs, rfl⟩ := mem_map.mp (accounts.overs.mem_iff.mpr inOver)
    obtain ⟨c, inLiveC, base, holdsC⟩ := accounts.inside r inRecs
    have equal := accounts.sound.holds_unique inLive inLiveC holdsP holdsC
    exact accounts.base_not inRecs (.inr (.inr mem)) (by rw [← base, ← equal, same])

end

section
variable {s : Sys} {recs : List Nat}
include s recs

variable {result : Nat × World}
theorem balanced_receive (granted : Granted s.plain s.spaced [] recs result) : Balanced (s.receive result) := by
  rcases granted with ⟨failed, kept⟩ | ⟨made, taken⟩
  · refine ⟨recs, ?_⟩
    simp only [Sys.receive, gain, if_pos failed]
    exact kept
  · refine ⟨recs, ?_⟩
    simp only [Sys.receive, gain, if_neg made]
    exact accounts_move taken fun q => by simp only [count_cons, count_nil]; omega

theorem balanced_receive_aligned {align : Nat}
    (granted : if overAligned align then GrantedOver s.plain s.spaced recs result else Granted s.plain s.spaced [] recs result) :
    Balanced (s.receiveAligned align result) := by
  unfold Sys.receiveAligned
  split
  · rename_i wide
    rw [if_pos wide] at granted
    rcases granted with ⟨failed, kept⟩ | ⟨made, recs', taken⟩
    · refine ⟨recs, ?_⟩
      simp only [gain, if_pos failed]
      exact kept
    · refine ⟨recs', ?_⟩
      simp only [gain, if_neg made]
      exact taken
  · rename_i narrow
    rw [if_neg narrow] at granted
    exact balanced_receive granted

theorem balanced_exchange {p size : Nat} (accounts : Accounts s.world s.plain s.spaced [] recs)
    (owned : s.Owns p) (resizable : Resizable s p size) : Balanced (s.exchange p (realloc s.world p size)) := by
  have plain : p = 0 ∨ p ∈ s.plain := by
    by_cases null : p = 0
    · exact .inl null
    · rcases owned with null | inPlain | inOver
      · exact .inl null
      · exact .inr inPlain
      · exact absurd inOver (resizable null).1
  have absent : p ∉ s.spaced := by
    intro mem
    rcases plain with null | inPlain
    · exact accounts.over_not_null mem null
    · exact accounts.over_not_plain mem inPlain
  unfold Sys.exchange
  rcases realloc_granted accounts size plain (fun present => (resizable present).2) with ⟨failed, kept⟩ | ⟨made, taken⟩
  · rw [if_pos failed]
    exact ⟨recs, kept⟩
  · rw [if_neg made, erase_of_not_mem absent]
    exact ⟨recs, taken⟩

theorem balanced_free {p : Nat} (accounts : Accounts s.world s.plain s.spaced [] recs)
    (owned : s.Owns p) : Balanced (step s (.free p)) := by
  rcases owned with rfl | inPlain | inOver
  · have notPlain : 0 ∉ s.plain := fun mem => accounts.null_not (by simp [mem]) rfl
    have notOver : 0 ∉ s.spaced := fun mem => accounts.over_not_null mem rfl
    refine ⟨recs, ?_⟩
    simp only [step, free, if_true, erase_of_not_mem notPlain, erase_of_not_mem notOver]
    exact accounts
  · have notOver : p ∉ s.spaced := fun mem => accounts.over_not_plain mem inPlain
    have count : ∀ q, [p].count q + (s.plain.erase p).count q = ([] : List Nat).count q + s.plain.count q := by
      intro q
      have whole := (perm_cons_erase inPlain).count_eq q
      rw [count_cons] at whole
      simp only [count_cons, count_nil]
      omega
    refine ⟨recs, ?_⟩
    simp only [step, erase_of_not_mem notOver]
    exact accounts_free_held (accounts_move accounts count)
  · obtain ⟨recs', taken⟩ := accounts_free_over accounts inOver
    refine ⟨recs', ?_⟩
    simp only [step, erase_of_not_mem (accounts.over_not_plain inOver)]
    exact taken

end

theorem balanced_step (s : Sys) (call : Call) (balanced : Balanced s) (allowed : Allowed s call) (sparing : Sparing s call) :
    Balanced (step s call) := by
  obtain ⟨recs, accounts⟩ := balanced
  cases call with
  | malloc size => exact balanced_receive (malloc_granted accounts size)
  | calloc count size => exact balanced_receive (calloc_granted accounts)
  | realloc p size => exact balanced_exchange accounts allowed sparing
  | reallocarray p count size =>
    by_cases wraps : multiplyWraps count size
    · simp only [step, reallocarray, if_pos wraps, Sys.exchange, if_true]
      exact ⟨recs, accounts_errno accounts⟩
    · simp only [step, reallocarray, if_neg wraps]
      exact balanced_exchange accounts allowed (sparing wraps)
  | posixMemalign align len => exact balanced_receive_aligned (posix_memalign_granted accounts align len)
  | alignedAlloc alignment size => exact balanced_receive_aligned (aligned_alloc_granted accounts)
  | memalign align len => exact balanced_receive_aligned (aligned_alloc_granted accounts)
  | valloc len => exact balanced_receive_aligned (aligned_alloc_granted accounts)
  | mallocUsableSize p =>
    by_cases null : p = 0
    · exact ⟨recs, by simpa only [step, mallocUsableSize, if_pos null] using accounts⟩
    · have live : p ∈ s.world.live.map Block.ptr := by
        rcases allowed with zero | inPlain | inOver
        · exact absurd zero null
        · exact accounts.accounted.mem_iff.mpr (by simp [inPlain])
        · exact sparing inOver
      simp only [step, mallocUsableSize, if_neg null]
      exact ⟨recs, accounts_size accounts (accounts.accounted.mem_iff.mp live)⟩
  | free p => exact balanced_free accounts allowed
  | scribble addr value => exact ⟨recs, accounts_scribble accounts value (scribble_outside s accounts allowed)⟩

theorem balanced_run (s : Sys) (calls : List Call) (balanced : Balanced s) (allowed : Throughout Allowed s calls)
    (sparing : Throughout Sparing s calls) : Balanced (run s calls) := by
  induction calls generalizing s with
  | nil => exact balanced
  | cons call rest ih =>
    exact ih (step s call) (balanced_step s call balanced allowed.1 sparing.1) allowed.2 sparing.2

def OneRecordEach (s : Sys) : Prop :=
  ∃ recs, Chain (fun r => (s.world.cells r).next) s.world.alignedList recs ∧ recs.Nodup ∧ s.spaced.Nodup ∧
    (recs.map fun r => (s.world.cells r).user).Perm s.spaced ∧
    ∀ r ∈ recs, r ∈ liveOf s.world.log ∧ (s.world.cells r).base ∈ liveOf s.world.log

theorem Accounts.overs_nodup {w : World} {plain spaced held recs : List Nat} (accounts : Accounts w plain spaced held recs) :
    recs.Nodup ∧ spaced.Nodup := by
  have nodup := accounts.places_nodup
  simp only [nodup_append] at nodup
  refine ⟨nodup.2.1.1, accounts.overs.nodup_iff.mp ?_⟩
  have bases := nodup.2.1.2.1.1
  refine List.Nodup.map_on ?_ nodup.2.1.1
  intro r memberR s memberS same
  obtain ⟨b, inLive, base, holds⟩ := accounts.inside r memberR
  obtain ⟨c, inLiveC, baseC, holdsC⟩ := accounts.inside s memberS
  rw [← same] at holdsC
  have equal := accounts.sound.holds_unique inLive inLiveC holds holdsC
  exact inj_on_of_nodup_map bases memberR memberS (by rw [← base, ← baseC, equal])

theorem allocator_ownership (freesOnZero : Bool) (answers : List Nat) (cells : Nat → AlignedRec) (calls : List Call)
    (allowed : Throughout Allowed (start freesOnZero answers cells) calls)
    (sparing : Throughout Sparing (start freesOnZero answers cells) calls) :
    Legal (run (start freesOnZero answers cells) calls).world.log ∧
      (∀ p ≠ 0, (run (start freesOnZero answers cells) calls).world.log.countP (releases p) ≤
        (run (start freesOnZero answers cells) calls).world.log.countP (returns p)) ∧
      OneRecordEach (run (start freesOnZero answers cells) calls) := by
  obtain ⟨recs, accounts⟩ := balanced_run _ calls ⟨[], accounts_start⟩ allowed sparing
  refine ⟨accounts.legal, fun p present => ?_, recs, accounts.chain, accounts.overs_nodup.1, accounts.overs_nodup.2,
    accounts.overs, fun r mem => ⟨?_, ?_⟩⟩
  · have balance := legal_balance _ accounts.legal p present
    omega
  · exact accounts.logged (by simp [mem])
  · exact accounts.logged (by simp only [mem_append, mem_map]; exact .inr (.inr (.inl ⟨r, mem, rfl⟩)))

def blank : Nat → AlignedRec := fun _ => ⟨0, 0, 0⟩

instance throughoutDecidable (condition : Sys → Call → Prop) [∀ s call, Decidable (condition s call)] :
    (s : Sys) → (calls : List Call) → Decidable (Throughout condition s calls)
  | _, [] => inferInstanceAs (Decidable True)
  | s, call :: rest =>
    have := throughoutDecidable condition (step s call) rest
    inferInstanceAs (Decidable (_ ∧ _))

theorem allocator_ownership_aligned_pair :
    Throughout Allowed (start false [4096, 4128, 8192, 8224, 16384, 20480] blank)
        [.posixMemalign 64 10, .alignedAlloc 32 8, .malloc 12, .realloc 16384 40, .free 4160, .mallocUsableSize 20480] ∧
      OneRecordEach (run (start false [4096, 4128, 8192, 8224, 16384, 20480] blank)
        [.posixMemalign 64 10, .alignedAlloc 32 8, .malloc 12, .realloc 16384 40, .free 4160, .mallocUsableSize 20480]) :=
  ⟨by decide +kernel, (allocator_ownership false [4096, 4128, 8192, 8224, 16384, 20480] blank
    [.posixMemalign 64 10, .alignedAlloc 32 8, .malloc 12, .realloc 16384 40, .free 4160, .mallocUsableSize 20480]
    (by decide +kernel) (by decide +kernel)).2.2⟩

-- The over-aligned pointer 4160 lies inside the block at 4128, and `realloc` hands it on.
theorem realloc_over_aligned :
    Throughout Allowed (start false [4096, 4128] blank) [.posixMemalign 64 10, .realloc 4160 20] ∧
      ¬ Legal (run (start false [4096, 4128] blank) [.posixMemalign 64 10, .realloc 4160 20]).world.log := by
  decide +kernel

end Spicule.Malloc
