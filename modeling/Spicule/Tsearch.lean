import Spicule.Lib.Comparator

namespace Spicule.Tsearch
open List Comparator

inductive Node (κ : Type) where
  | null
  | node (addr : Nat) (key : κ) (left right : Node κ)

inductive Visit where
  | preorder | postorder | endorder | leaf
deriving DecidableEq

-- NULL, the root pointer, or the node above the deleted one.
inductive Deleted where
  | missing
  | root
  | below (parent : Nat)

section
variable {κ : Type} (compar : κ → κ → Int)

-- `p` is the answer of malloc.
def tsearch (key : κ) (p : Option Nat) : Node κ → Option Nat × Node κ
  | .null =>
    match p with
    | none => (none, .null)
    | some addr => (some addr, .node addr key .null .null)
  | .node addr k left right =>
    if compar key k = 0 then (some addr, .node addr k left right)
    else if compar key k < 0 then
      let (found, left) := tsearch key p left
      (found, .node addr k left right)
    else
      let (found, right) := tsearch key p right
      (found, .node addr k left right)

def tfind (key : κ) : Node κ → Option Nat
  | .null => none
  | .node addr k left right =>
    if compar key k = 0 then some addr else if compar key k < 0 then tfind key left else tfind key right

def unlinkPred (addr : Nat) (key : κ) (left : Node κ) : Node κ → (Nat × κ) × Node κ
  | .null => ((addr, key), left)
  | .node a k l r =>
    let (pred, rest) := unlinkPred a k l r
    (pred, .node addr key left rest)

def splice : Node κ → Node κ → Node κ
  | .node a k l r, .node a' k' l' r' =>
    let (pred, rest) := unlinkPred a k l r
    .node pred.1 pred.2 rest (.node a' k' l' r')
  | .null, right => right
  | left, .null => left

def tdelete (key : κ) (parent : Deleted) : Node κ → Deleted × Node κ
  | .null => (.missing, .null)
  | .node addr k left right =>
    if compar key k = 0 then (parent, splice left right)
    else if compar key k < 0 then
      let (above, left) := tdelete key (.below addr) left
      (above, .node addr k left right)
    else
      let (above, right) := tdelete key (.below addr) right
      (above, .node addr k left right)

def trecurse (depth : Nat) : Node κ → List ((Nat × κ) × Visit × Nat)
  | .null => []
  | .node a k .null .null => [((a, k), .leaf, depth)]
  | .node a k left right =>
    ((a, k), .preorder, depth) :: (trecurse (depth + 1) left ++ ((a, k), .postorder, depth) ::
      (trecurse (depth + 1) right ++ [((a, k), .endorder, depth)]))

def twalk (root : Node κ) : List ((Nat × κ) × Visit × Nat) := trecurse 0 root

inductive Call (κ : Type) where
  | tsearch (key : κ) (p : Option Nat)
  | tfind (key : κ)
  | tdelete (key : κ)
  | twalk

def call : Node κ → Call κ → Node κ
  | root, .tsearch key p => (tsearch compar key p root).2
  | root, .tdelete key => (tdelete compar key .root root).2
  | root, _ => root

def calls (ops : List (Call κ)) : Node κ := ops.foldl (call compar) .null

end

section
variable {κ : Type} {compar : κ → κ → Int}
def inorder : Node κ → List (Nat × κ)
  | .null => []
  | .node addr k left right => inorder left ++ (addr, k) :: inorder right

def Ordered (compar : κ → κ → Int) (root : Node κ) : Prop :=
  (inorder root).Pairwise fun a b => compar a.2 b.2 < 0

theorem ordered_node {addr : Nat} {k : κ} {left right : Node κ} (ordered : Ordered compar (.node addr k left right)) :
    Ordered compar left ∧ Ordered compar right ∧ (∀ e ∈ inorder left, compar e.2 k < 0) ∧
      ∀ e ∈ inorder right, compar k e.2 < 0 := by
  obtain ⟨low, high, across⟩ := pairwise_append.mp ordered
  obtain ⟨above, high⟩ := pairwise_cons.mp high
  exact ⟨low, high, fun e mem => across e mem _ mem_cons_self, above⟩

structure Serves (compar : κ → κ → Int) (key : κ) (root : Node κ) (a m b : List (Nat × κ)) : Prop where
  whole : inorder root = a ++ m ++ b
  before : ∀ e ∈ a, 0 < compar key e.2
  equal : ∀ e ∈ m, compar key e.2 = 0
  after : ∀ e ∈ b, compar key e.2 < 0
  find : (tfind compar key root).toList = m.map Prod.fst
  present : ∀ p, m ≠ [] → tsearch compar key p root = (tfind compar key root, root)
  insert : ∀ p, m = [] → (tsearch compar key p root).1 = p ∧
    inorder (tsearch compar key p root).2 = a ++ p.toList.map (·, key) ++ b
  delete : ∀ parent, inorder (tdelete compar key parent root).2 = a ++ b
  missing : ∀ parent, parent ≠ .missing → ((tdelete compar key parent root).1 = .missing ↔ m = [])

theorem unlink_pred_inorder (addr : Nat) (k : κ) (left right : Node κ) :
    inorder (unlinkPred addr k left right).2 ++ [(unlinkPred addr k left right).1] =
      inorder left ++ (addr, k) :: inorder right := by
  induction right generalizing addr k left with
  | null => rfl
  | node a k' l r _ ih =>
    rw [unlinkPred]
    simp only [inorder, append_assoc, cons_append, ih]

theorem splice_inorder {left right : Node κ} : inorder (splice left right) = inorder left ++ inorder right := by
  cases left with
  | null => cases right <;> rfl
  | node a k l r =>
    cases right with
    | null => exact (append_nil _).symm
    | node a' k' l' r' =>
      have moved := unlink_pred_inorder a k l r
      rw [splice, inorder, inorder.eq_2 a k l r, ← moved, append_assoc]
      rfl

section
variable {key k : κ} {addr : Nat} {left right : Node κ} {a m b : List (Nat × κ)} (order : TotalPreorder compar)
  (ordered : Ordered compar (.node addr k left right))
include order ordered

theorem serves_here (same : compar key k = 0) :
    Serves compar key (.node addr k left right) (inorder left) [(addr, k)] (inorder right) := by
  obtain ⟨-, -, low, high⟩ := ordered_node ordered
  constructor
  case whole => simp [inorder]
  case before =>
    intro e mem
    exact (order.flip key e.2).mpr (order.lt_of_lt_of_le (low e mem) (order.flip_le (Int.le_of_eq same.symm)))
  case equal => simpa using same
  case after => exact fun e mem => order.lt_of_le_of_lt (Int.le_of_eq same) (high e mem)
  case find => rw [tfind, if_pos same]; rfl
  case present => exact fun p _ => by rw [tsearch, tfind, if_pos same, if_pos same]
  case insert => exact fun p none => absurd none (cons_ne_nil _ _)
  case delete =>
    intro parent
    rw [tdelete, if_pos same]
    exact splice_inorder
  case missing =>
    intro parent above
    rw [tdelete, if_pos same]
    exact iff_of_false above (cons_ne_nil _ _)

theorem serves_left (less : compar key k < 0) (below : Serves compar key left a m b) :
    Serves compar key (.node addr k left right) a m (b ++ (addr, k) :: inorder right) := by
  obtain ⟨-, -, -, high⟩ := ordered_node ordered
  have differs : compar key k ≠ 0 := Int.ne_of_lt less
  constructor
  case whole => simp [inorder, below.whole]
  case before => exact below.before
  case equal => exact below.equal
  case after =>
    refine forall_mem_append.mpr ⟨below.after, forall_mem_cons.mpr ⟨less, fun e mem => ?_⟩⟩
    exact order.lt_of_le_of_lt (Int.le_of_lt less) (high e mem)
  case find => rw [tfind, if_neg differs, if_pos less, below.find]
  case present =>
    intro p some
    rw [tsearch, tfind, if_neg differs, if_neg differs, if_pos less, if_pos less, below.present p some]
  case insert =>
    intro p none
    obtain ⟨answer, added⟩ := below.insert p none
    rw [tsearch, if_neg differs, if_pos less]
    exact ⟨answer, by simp [inorder, added]⟩
  case delete =>
    intro parent
    rw [tdelete, if_neg differs, if_pos less]
    simp [inorder, below.delete]
  case missing =>
    intro parent above
    rw [tdelete, if_neg differs, if_pos less]
    exact below.missing _ nofun

theorem serves_right (more : 0 < compar key k) (below : Serves compar key right a m b) :
    Serves compar key (.node addr k left right) (inorder left ++ (addr, k) :: a) m b := by
  obtain ⟨-, -, low, -⟩ := ordered_node ordered
  have differs : compar key k ≠ 0 := Int.ne_of_gt more
  have notLess : ¬ compar key k < 0 := Int.not_lt.mpr (Int.le_of_lt more)
  constructor
  case whole => simp [inorder, below.whole]
  case before =>
    refine forall_mem_append.mpr ⟨fun e mem => ?_, forall_mem_cons.mpr ⟨more, below.before⟩⟩
    exact (order.flip key e.2).mpr (order.lt_of_lt_of_le (low e mem) (Int.le_of_lt ((order.flip key k).mp more)))
  case equal => exact below.equal
  case after => exact below.after
  case find => rw [tfind, if_neg differs, if_neg notLess, below.find]
  case present =>
    intro p some
    rw [tsearch, tfind, if_neg differs, if_neg differs, if_neg notLess, if_neg notLess, below.present p some]
  case insert =>
    intro p none
    obtain ⟨answer, added⟩ := below.insert p none
    rw [tsearch, if_neg differs, if_neg notLess]
    exact ⟨answer, by simp [inorder, added]⟩
  case delete =>
    intro parent
    rw [tdelete, if_neg differs, if_neg notLess]
    simp [inorder, below.delete]
  case missing =>
    intro parent above
    rw [tdelete, if_neg differs, if_neg notLess]
    exact below.missing _ nofun

end

variable (order : TotalPreorder compar)
include order

theorem serves (key : κ) {root : Node κ} (ordered : Ordered compar root) : ∃ a m b, Serves compar key root a m b := by
  induction root with
  | null =>
    refine ⟨[], [], [], rfl, nofun, nofun, nofun, rfl, fun _ some => absurd rfl some, fun p _ => ?_, fun _ => rfl, ?_⟩
    · cases p <;> exact ⟨rfl, rfl⟩
    · exact fun parent above => iff_of_true rfl rfl
  | node addr k left right ihLeft ihRight =>
    obtain ⟨low, high, -, -⟩ := ordered_node ordered
    rcases Int.lt_trichotomy (compar key k) 0 with less | same | more
    · obtain ⟨a, m, b, below⟩ := ihLeft low
      exact ⟨_, _, _, serves_left order ordered less below⟩
    · exact ⟨_, _, _, serves_here order ordered same⟩
    · obtain ⟨a, m, b, below⟩ := ihRight high
      exact ⟨_, _, _, serves_right order ordered more below⟩

variable (root : Node κ)
theorem call_ordered (ordered : Ordered compar root) (op : Call κ) : Ordered compar (call compar root op) := by
  cases op with
  | tsearch key p =>
    obtain ⟨a, m, b, served⟩ := serves order key ordered
    by_cases none : m = []
    · obtain ⟨-, added⟩ := served.insert p none
      rw [Ordered, served.whole, none, append_nil] at ordered
      obtain ⟨low, high, across⟩ := pairwise_append.mp ordered
      rw [call, Ordered, added]
      cases p with
      | none => simpa using ordered
      | some addr =>
        have above : ∀ e ∈ a, compar e.2 key < 0 := fun e mem => (order.flip key e.2).mp (served.before e mem)
        simp only [Option.toList_some, map_cons, map_nil, append_assoc, singleton_append]
        refine pairwise_append.mpr ⟨low, pairwise_cons.mpr ⟨served.after, high⟩, fun e mem => ?_⟩
        exact forall_mem_cons.mpr ⟨above e mem, across e mem⟩
    · rw [call, served.present p none]
      exact ordered
  | tdelete key =>
    obtain ⟨a, m, b, served⟩ := serves order key ordered
    rw [call, Ordered, served.delete]
    rw [Ordered, served.whole] at ordered
    exact ordered.sublist (Sublist.append_right (sublist_append_left a m) b)
  | _ => exact ordered

theorem calls_ordered (ops : List (Call κ)) (ordered : Ordered compar root) :
    Ordered compar (ops.foldl (call compar) root) := by
  induction ops generalizing root with
  | nil => exact ordered
  | cons op ops ih => exact ih _ (call_ordered order root ordered op)

omit order

-- The second visit of a node with children, and the only one of a leaf.
def sorting : (Nat × κ) × Visit × Nat → Option (Nat × κ)
  | (entry, .postorder, _) => some entry
  | (entry, .leaf, _) => some entry
  | _ => none

theorem trecurse_inorder (depth : Nat) : (trecurse depth root).filterMap sorting = inorder root := by
  induction depth, root using trecurse.induct with
  | case1 => rfl
  | case2 => rfl
  | case3 depth addr k left right inner ihLeft ihRight =>
    rw [trecurse, filterMap_cons, filterMap_append, filterMap_cons, filterMap_append, ihLeft, ihRight]
    · simp [sorting, inorder]
    · exact inner

theorem search_tree_set (order : TotalPreorder compar) (ops : List (Call κ)) :
    Ordered compar (calls compar ops) ∧ (twalk (calls compar ops)).filterMap sorting = inorder (calls compar ops) ∧
      ∀ key, ∃ a m b, Serves compar key (calls compar ops) a m b := by
  have ordered : Ordered compar (calls compar ops) := calls_ordered order .null ops .nil
  exact ⟨ordered, trecurse_inorder _ 0, fun key => serves order key ordered⟩

theorem search_tree_set_three : ∃ root, root = calls (fun a b : Int => a - b)
      [.tsearch 2 (some 8), .tsearch 1 (some 4), .tsearch 3 (some 6), .tdelete 2] ∧
    Ordered (fun a b => a - b) root ∧ (twalk root).filterMap sorting = [(4, 1), (6, 3)] ∧
    tfind (fun a b => a - b) 2 root = none ∧ tfind (fun a b => a - b) 3 root = some 6 := by
  have set := @search_tree_set Int (fun a b => a - b) ⟨fun a b => by omega, fun a b c => by omega⟩
    [.tsearch 2 (some 8), .tsearch 1 (some 4), .tsearch 3 (some 6), .tdelete 2]
  exact ⟨_, rfl, set.1, set.2.1, by decide, by decide⟩

end
end Spicule.Tsearch
