import Spicule.Patch.Apply

namespace Spicule.Patch
open List
open Diff

def stripComponents (name : Bytes) : Nat → Bytes
  | 0 => name
  | strip + 1 =>
    match name.dropWhile (· != 47) with
    | [] => name
    | _ :: rest => stripComponents rest strip

def climbs : Nat → Bytes → Bool
  | 0, _ => false
  | fuel + 1, p =>
    if p.takeWhile (· != 47) = ascii ".." then true
    else
      match p.dropWhile (· != 47) with
      | [] => false
      | _ :: rest => climbs fuel rest

def nameIsUnsafe (name : Bytes) : Bool :=
  if name = [] then true else if name.head? = some 47 then true else climbs (name.length + 1) name

-- `copies` says which of the two copies found memory, `access` which files exist.
def pickTargetName (copies : Bool × Bool) (access : Bytes → Bool) (oldName newName : Option Bytes) (strip : Int) :
    Option Bytes :=
  let stripped := fun (copied : Bool) (name : Option Bytes) =>
    if copied then name.map fun name => stripComponents (cString name) strip.toNat else none
  let o := (stripped copies.1 oldName).filter fun name => !nameIsUnsafe name
  let n := (stripped copies.2 newName).filter fun name => !nameIsUnsafe name
  if o.any access then o else if n.isSome then n else o

def isSeparator (c : UInt8) : Bool := c == 47 || c == 92

def hasDrive (name : Bytes) : Bool :=
  97 ≤ (name.getD 0 0 ||| 32) && (name.getD 0 0 ||| 32) ≤ 122 && name.getD 1 0 == 58

-- On the NT targets either slash separates, and a drive letter is absolute.
structure Confined (name : Bytes) : Prop where
  relative : name.head?.any isSeparator = false
  undriven : hasDrive name = false
  inside : ascii ".." ∉ name.splitOnP isSeparator

theorem split_either (p q : UInt8 → Bool) (l : Bytes) :
    l.splitOnP (fun c => p c || q c) = (l.splitOnP p).flatMap (splitOnP q) := by
  induction l with
  | nil => rfl
  | cons c l ih =>
    obtain ⟨first, others, parts⟩ := exists_cons_of_ne_nil (splitOnP_ne_nil p l)
    obtain ⟨head, tail, pieces⟩ := exists_cons_of_ne_nil (splitOnP_ne_nil q first)
    rw [parts, flatMap_cons, pieces] at ih
    by_cases outer : p c = true
    · simp [splitOnP_cons_eq_if_modifyHead, outer, ih, parts, pieces]
    · by_cases inner : q c = true
      · simp [splitOnP_cons_eq_if_modifyHead, outer, inner, ih, parts, pieces]
      · simp [splitOnP_cons_eq_if_modifyHead, outer, inner, ih, parts, pieces]

theorem climbs_false (fuel : Nat) (p : Bytes) (enough : p.length < fuel) (none_up : climbs fuel p = false) :
    ascii ".." ∉ p.splitOn 47 := by
  induction fuel generalizing p with
  | zero => omega
  | succ fuel ih =>
    have plain : ∀ byte ∈ p.takeWhile (· != 47), (byte == 47) = false := fun byte mem => by
      simpa using mem_takeWhile_imp mem
    have whole := takeWhile_append_dropWhile (p := (· != 47)) (l := p)
    unfold climbs at none_up
    split at none_up
    · cases none_up
    · rename_i other
      cases left : p.dropWhile (· != 47) with
      | nil =>
        rw [left, append_nil] at whole
        rw [whole] at plain other
        rw [splitOn, splitOnP_eq_singleton plain, mem_singleton]
        exact Ne.symm other
      | cons slash rest =>
        have mark : slash = 47 := by simpa [left] using head?_dropWhile_not (· != 47) p
        rw [left] at whole none_up
        have shorter := congrArg length whole
        rw [length_append, length_cons] at shorter
        rw [← whole, splitOn, splitOnP_append_cons_of_forall_mem plain slash (by simp [mark]), mem_cons, not_or]
        exact ⟨Ne.symm other, ih rest (by omega) none_up⟩

theorem split_unmarked (part : Bytes) (unmarked : 92 ∉ part) : part.splitOn 92 = [part] :=
  splitOnP_eq_singleton fun _ mem => beq_eq_false_iff_ne.mpr fun same => unmarked (same ▸ mem)

end Spicule.Patch
