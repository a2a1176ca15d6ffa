import Spicule.Ctype
import Spicule.Lib.Decimal
import Spicule.Diff.Lines
import Spicule.Lib.MergeSort

namespace Spicule.Sort
open List Bool Nat
open Diff (Bytes)
open Ctype MergeSort Std

structure Field where
  start : Nat
  stop : Nat
deriving DecidableEq, Repr

structure SortKey where
  f1 : Int
  c1 : Int
  f2 : Int
  c2 : Int
  hasEnd : Bool
  hasMod : Bool
  mb : Bool
  md : Bool
  mf : Bool
  mi : Bool
  mn : Bool
  mr : Bool
deriving DecidableEq, Repr

-- `delim` is there when `have_delim` is set.
structure SortOpts where
  b : Bool
  d : Bool
  f : Bool
  i : Bool
  n : Bool
  r : Bool
  u : Bool
  delim : Option UInt8
  keys : List SortKey
deriving DecidableEq, Repr

-- `block` is the text's heap block. The fields stay empty without a key or without memory.
structure Line where
  block : Nat
  text : Bytes
  fields : List Field
  inside : ∀ field ∈ fields, field.start ≤ field.stop ∧ field.stop ≤ text.length
deriving DecidableEq

def splitDelim (delim : UInt8) : Bytes → Nat → Nat → List Field
  | [], i, start => [⟨start, i⟩]
  | c :: rest, i, start =>
    if c = delim then ⟨start, i⟩ :: splitDelim delim rest (i + 1) (i + 1) else splitDelim delim rest (i + 1) start

-- The scan for blank-separated fields: `seen_nb` is false, it is true, or the inner loop
-- runs over the separator that began at `sepStart`.
inductive Scan where
  | leading
  | seen
  | separator (sepStart : Nat)
deriving DecidableEq, Repr

def splitBlanks : Bytes → Nat → Nat → Scan → List Field
  | [], i, fieldStart, .separator sepStart => [⟨fieldStart, sepStart⟩, ⟨i, i⟩]
  | [], i, fieldStart, _ => [⟨fieldStart, i⟩]
  | c :: rest, i, fieldStart, .leading => splitBlanks rest (i + 1) fieldStart (if isblank c then .leading else .seen)
  | c :: rest, i, fieldStart, .seen => splitBlanks rest (i + 1) fieldStart (if isblank c then .separator i else .seen)
  | c :: rest, i, fieldStart, .separator sepStart =>
    if isblank c then splitBlanks rest (i + 1) fieldStart (.separator sepStart)
    else ⟨fieldStart, sepStart⟩ :: splitBlanks rest (i + 1) i .seen

def splitFields (text : Bytes) (o : SortOpts) : List Field :=
  match o.delim with
  | some delim => splitDelim delim text 0 0
  | none => splitBlanks text 0 0 .leading

theorem split_delim_inside (delim : UInt8) (text : Bytes) (i start : Nat) (order : start ≤ i) :
    ∀ field ∈ splitDelim delim text i start, field.start ≤ field.stop ∧ field.stop ≤ i + text.length := by
  induction text generalizing i start with
  | nil =>
    intro field mem
    rw [mem_singleton.mp mem]
    exact ⟨order, Nat.le_refl i⟩
  | cons c rest ih =>
    intro field mem
    rw [length_cons, add_comm rest.length, ← add_assoc]
    rw [splitDelim] at mem
    split at mem
    · rcases mem_cons.mp mem with rfl | later
      · exact ⟨order, Nat.le_trans (Nat.le_succ i) (Nat.le_add_right _ _)⟩
      · exact ih (i + 1) (i + 1) (Nat.le_refl _) field later
    · exact ih (i + 1) start (by omega) field mem

def Scan.sepStart : Scan → Nat → Nat
  | .separator sepStart, _ => sepStart
  | _, i => i

theorem split_blanks_inside (text : Bytes) (i fieldStart : Nat) (scan : Scan)
    (order : fieldStart ≤ scan.sepStart i ∧ scan.sepStart i ≤ i) :
    ∀ field ∈ splitBlanks text i fieldStart scan, field.start ≤ field.stop ∧ field.stop ≤ i + text.length := by
  induction text generalizing i fieldStart scan with
  | nil =>
    intro field mem
    cases scan with
    | leading | seen =>
      rw [mem_singleton.mp mem]
      exact order
    | separator sepStart =>
      rcases mem_cons.mp mem with rfl | last
      · exact order
      · rw [mem_singleton.mp last]
        exact ⟨Nat.le_refl i, Nat.le_refl i⟩
  | cons c rest ih =>
    intro field mem
    rw [length_cons, add_comm rest.length, ← add_assoc]
    have start : fieldStart ≤ i := Nat.le_trans order.1 order.2
    cases scan with
    | leading =>
      refine ih (i + 1) fieldStart _ ?_ field mem
      split <;> exact ⟨Nat.le_succ_of_le start, Nat.le_refl _⟩
    | seen =>
      refine ih (i + 1) fieldStart _ ?_ field mem
      split
      · exact ⟨start, le_succ i⟩
      · exact ⟨Nat.le_succ_of_le start, Nat.le_refl _⟩
    | separator sepStart =>
      rw [splitBlanks] at mem
      split at mem
      · exact ih (i + 1) fieldStart _ ⟨order.1, le_succ_of_le order.2⟩ field mem
      · rcases mem_cons.mp mem with rfl | later
        · exact ⟨order.1, Nat.le_trans (Nat.le_succ_of_le order.2) (Nat.le_add_right _ _)⟩
        · exact ih (i + 1) i .seen ⟨Nat.le_succ i, Nat.le_refl _⟩ field later

theorem split_fields_inside (text : Bytes) (o : SortOpts) :
    ∀ field ∈ splitFields text o, field.start ≤ field.stop ∧ field.stop ≤ text.length := by
  unfold splitFields
  split
  · rename_i delim _
    simpa only [Nat.zero_add] using split_delim_inside delim text 0 0 (Nat.le_refl 0)
  · simpa only [Nat.zero_add] using split_blanks_inside text 0 0 .leading ⟨Nat.le_refl 0, Nat.le_refl 0⟩

def makeLine (block : Nat) (text : Bytes) (o : SortOpts) : Line where
  block := block
  text := text
  fields := if o.keys = [] then [] else splitFields text o
  inside := by
    split
    · exact nofun
    · exact split_fields_inside text o

def skipBlanks (text : Bytes) (start stop : Nat) : Nat :=
  start + (((text.drop start).take (stop - start)).takeWhile isblank).length

def keyStartOff (line : Line) (f c : Int) (bflag : Bool) : Nat :=
  match line.fields[(max f 1 - 1).toNat]? with
  | none => line.text.length
  | some field =>
    let start := if bflag then skipBlanks line.text field.start field.stop else field.start
    min (start + (max c 1 - 1).toNat) line.text.length

def keyEndOff (line : Line) (f c : Int) (bflag : Bool) : Nat :=
  match line.fields[(max f 1 - 1).toNat]? with
  | none => line.text.length
  | some field =>
    let start := if bflag then skipBlanks line.text field.start field.stop else field.start
    if c ≤ 0 then field.stop else min (start + c.toNat) field.stop

def llongMax : Nat := 2 ^ 63 - 1

def numericDigits (v : Nat) : Bytes → Nat × Bool
  | [] => (v, false)
  | c :: rest =>
    if Decimal.isDigit c then
      let digit := c.toNat - 48
      if v > (llongMax - digit) / 10 then (v, true) else numericDigits (v * 10 + digit) rest
    else (v, false)

def parseNumeric (s : Bytes) : Int :=
  let s := s.dropWhile isblank
  let neg := s.head? = some 45
  let (v, overflowed) := numericDigits 0 (if neg then s.tail else s)
  if neg then (if overflowed then -2 ^ 63 else -v) else (if overflowed then llongMax else v)

def charPasses (c : UInt8) (d i : Bool) : Bool := !(i && !isprint c) && !(d && !(isblank c || isalnum c))

def compareInt (a b : Int) : Ordering := if a < b then .lt else if b < a then .gt else .eq

def compareChars (d f i : Bool) : Nat → Bytes → Bytes → Ordering
  | 0, _, _ => .eq
  | fuel + 1, a, b =>
    match a.dropWhile (fun c => !charPasses c d i), b.dropWhile (fun c => !charPasses c d i) with
    | [], [] => .eq
    | [], _ :: _ => .lt
    | _ :: _, [] => .gt
    | x :: a, y :: b =>
      let ca := if f then tolower x else x
      let cb := if f then tolower y else y
      if ca ≠ cb then (if ca < cb then .lt else .gt) else compareChars d f i fuel a b

def compareRange (a b : Bytes) (d f i n : Bool) : Ordering :=
  if n then compareInt (parseNumeric a) (parseNumeric b) else compareChars d f i (a.length + 1) a b

def compareRaw : Bytes → Bytes → Ordering
  | [], [] => .eq
  | [], _ :: _ => .lt
  | _ :: _, [] => .gt
  | x :: a, y :: b => if x ≠ y then (if x < y then .lt else .gt) else compareRaw a b

def reverseComparison (r : Bool) (comparison : Ordering) : Ordering := if r then comparison.swap else comparison

structure Flags where
  b : Bool
  d : Bool
  f : Bool
  i : Bool
  n : Bool
  r : Bool

def SortOpts.flags (o : SortOpts) : Flags := ⟨o.b, o.d, o.f, o.i, o.n, o.r⟩

def SortKey.flags (k : SortKey) (o : SortOpts) : Flags :=
  if k.hasMod then ⟨k.mb, k.md, k.mf, k.mi, k.mn, k.mr⟩ else o.flags

def keyText (line : Line) (k : SortKey) (bflag : Bool) : Bytes :=
  let start := keyStartOff line k.f1 k.c1 bflag
  let stop := if k.hasEnd then keyEndOff line k.f2 k.c2 bflag else line.text.length
  (line.text.drop start).take (max stop start - start)

def compareByKey (o : SortOpts) (k : SortKey) (a b : Line) : Ordering :=
  let flags := k.flags o
  reverseComparison flags.r
    (compareRange (keyText a k flags.b) (keyText b k flags.b) flags.d flags.f flags.i flags.n)

def compareKeys (o : SortOpts) (a b : Line) : List SortKey → Ordering
  | [] => .eq
  | k :: rest => match compareByKey o k a b with
      | .eq => compareKeys o a b rest
      | c => c

def wholeKey (o : SortOpts) (line : Line) : Bytes := if o.b then line.text.dropWhile isblank else line.text

def lineCompare (o : SortOpts) (a b : Line) : Ordering :=
  let c :=
    if o.keys ≠ [] then compareKeys o a b o.keys
    else reverseComparison o.r (compareRange (wholeKey o a) (wholeKey o b) o.d o.f o.i o.n)
  if c = .eq ∧ o.u = false then reverseComparison o.r (compareRaw a.text b.text) else c

theorem compare_byte_then (x y : UInt8) (later : Ordering) :
    (if x ≠ y then (if x < y then .lt else .gt) else later) = (compare x y).then later := by
  change _ = (compareOfLessAndEq x y).then later
  unfold compareOfLessAndEq
  by_cases less : x < y
  · have other : x ≠ y := by
      rintro rfl
      exact UInt8.lt_irrefl x less
    rw [if_pos other, if_pos less, if_pos less]
    rfl
  · by_cases same : x = y
    · rw [if_neg (not_not_intro same), if_neg less, if_pos same]
      rfl
    · rw [if_pos same, if_neg less, if_neg less, if_neg same]
      rfl

theorem compare_int_eq (a b : Int) : compareInt a b = compare a b := by
  change _ = compareOfLessAndEq a b
  unfold compareInt compareOfLessAndEq
  by_cases less : a < b
  · rw [if_pos less, if_pos less]
  · rw [if_neg less, if_neg less]
    by_cases same : a = b
    · rw [if_pos same, if_neg (by omega)]
    · rw [if_neg same, if_pos (by omega)]

theorem compare_raw_eq (a b : Bytes) : compareRaw a b = List.compareLex compare a b := by
  induction a generalizing b with
  | nil =>
    cases b with
    | nil => rfl
    | cons y b => rfl
  | cons x a ih =>
    cases b with
    | nil => rfl
    | cons y b =>
      rw [List.compareLex_cons_cons, ← ih b, compareRaw, compare_byte_then]

def visible (d f i : Bool) (s : Bytes) : Bytes :=
  (s.filter fun c => charPasses c d i).map fun c => if f then tolower c else c

theorem visible_skip (d f i : Bool) (s : Bytes) : visible d f i s = match s.dropWhile fun c => !charPasses c d i with
    | [] => []
    | x :: rest => (if f then tolower x else x) :: visible d f i rest := by
  induction s with
  | nil => rfl
  | cons x s ih =>
    cases passes : charPasses x d i with
    | true => simp [visible, passes]
    | false =>
      have skip : visible d f i (x :: s) = visible d f i s := by simp [visible, passes]
      rw [skip, ih]
      simp [passes]

theorem drop_while_shorter (p : UInt8 → Bool) (s : Bytes) : (s.dropWhile p).length ≤ s.length :=
  (dropWhile_sublist p).length_le

theorem compare_chars_eq (d f i : Bool) (fuel : Nat) (a b : Bytes) (enough : a.length < fuel) :
    compareChars d f i fuel a b = List.compareLex compare (visible d f i a) (visible d f i b) := by
  induction fuel generalizing a b with
  | zero => exact absurd enough (not_lt_zero _)
  | succ fuel ih =>
    have shorter := drop_while_shorter (fun c => !charPasses c d i) a
    rw [compareChars, visible_skip d f i a, visible_skip d f i b]
    cases left : a.dropWhile fun c => !charPasses c d i with
    | nil =>
      cases b.dropWhile fun c => !charPasses c d i with
      | nil => rfl
      | cons y b => rfl
    | cons x rest =>
      cases b.dropWhile fun c => !charPasses c d i with
      | nil => rfl
      | cons y b =>
        rw [left, length_cons] at shorter
        dsimp only
        rw [List.compareLex_cons_cons, ih rest b (by omega), compare_byte_then]

theorem compare_range_eq (d f i n : Bool) (a b : Bytes) : compareRange a b d f i n =
    if n then compareOn parseNumeric a b else compareOn (visible d f i) a b := by
  unfold compareRange
  split
  · exact compare_int_eq _ _
  · exact compare_chars_eq d f i _ a b (lt_succ_self _)

instance transByte : TransCmp (compare : UInt8 → UInt8 → Ordering) := inferInstance

theorem trans_compare_range {d f i n : Bool} : TransCmp fun a b => compareRange a b d f i n := by
  have same : (fun a b => compareRange a b d f i n) = if n then compareOn parseNumeric else compareOn (visible d f i) := by
    funext a b
    rw [compare_range_eq]
    split <;> rfl
  rw [same]
  split
  · infer_instance
  · infer_instance

theorem trans_reverse {α : Type} {cmp : α → α → Ordering} (trans : TransCmp cmp) (r : Bool) :
    TransCmp fun a b => reverseComparison r (cmp a b) := by
  cases r with
  | false => exact trans
  | true =>
    have swapped : (fun a b => reverseComparison true (cmp a b)) = fun a b => cmp b a := by
      funext a b
      exact OrientedCmp.eq_swap.symm
    rw [swapped]
    exact TransCmp.opposite

theorem trans_on {α β : Type} {cmp : β → β → Ordering} (trans : TransCmp cmp) (key : α → β) :
    TransCmp fun a b => cmp (key a) (key b) where
  eq_swap := trans.eq_swap
  isLE_trans := trans.isLE_trans

variable (o : SortOpts)
theorem trans_compare_by_key (k : SortKey) : TransCmp (compareByKey o k) :=
  trans_reverse (trans_on (trans_compare_range)
    fun line => keyText line k (k.flags o).b) (k.flags o).r

theorem trans_compare_keys (keys : List SortKey) : TransCmp fun a b => compareKeys o a b keys := by
  induction keys with
  | nil => exact { eq_swap := rfl, isLE_trans := fun _ _ => rfl }
  | cons k rest ih =>
    have first := trans_compare_by_key o k
    have lexical : (fun a b => compareKeys o a b (k :: rest)) =
        compareLex (compareByKey o k) fun a b => compareKeys o a b rest := by
      funext a b
      rw [compareKeys, compareLex]
      cases compareByKey o k a b <;> rfl
    rw [lexical]
    infer_instance

theorem trans_compare_raw : TransCmp compareRaw := by
  have same : compareRaw = List.compareLex compare := by
    funext a b
    exact compare_raw_eq a b
  rw [same]
  infer_instance

def compareByKeys (o : SortOpts) (a b : Line) : Ordering :=
  if o.keys ≠ [] then compareKeys o a b o.keys
  else reverseComparison o.r (compareRange (wholeKey o a) (wholeKey o b) o.d o.f o.i o.n)

theorem trans_compare_by_keys : TransCmp (compareByKeys o) := by
  unfold compareByKeys
  split
  · exact trans_compare_keys o o.keys
  · exact trans_reverse (trans_on (trans_compare_range) (wholeKey o)) o.r

theorem line_compare_eq : lineCompare o =
    if o.u then compareByKeys o
    else compareLex (compareByKeys o) fun a b => reverseComparison o.r (compareRaw a.text b.text) := by
  funext a b
  change (if compareByKeys o a b = .eq ∧ o.u = false then reverseComparison o.r (compareRaw a.text b.text)
    else compareByKeys o a b) = _
  cases o.u with
  | true => rw [if_neg (fun both => Bool.noConfusion both.2), if_pos rfl]
  | false =>
    rw [if_neg Bool.false_ne_true, compareLex]
    cases compareByKeys o a b <;> rfl

theorem trans_line_compare : TransCmp (lineCompare o) := by
  have keys := trans_compare_by_keys o
  have raw := trans_reverse (trans_on trans_compare_raw Line.text) o.r
  rw [line_compare_eq]
  split
  · exact keys
  · infer_instance

def lineLe (o : SortOpts) (a b : Line) : Bool := (lineCompare o a b).isLE

theorem line_le_refl (a : Line) : lineLe o a a = true := by
  have trans := trans_line_compare o
  exact ReflCmp.isLE_rfl

theorem line_le_trans (a b c : Line) (first : lineLe o a b = true) (second : lineLe o b c = true) :
    lineLe o a c = true :=
  (trans_line_compare o).isLE_trans first second

theorem line_le_total (a b : Line) : (lineLe o a b || lineLe o b a) = true := by
  have swap : lineCompare o a b = (lineCompare o b a).swap := (trans_line_compare o).eq_swap
  unfold lineLe
  rw [swap]
  cases lineCompare o b a <;> rfl

theorem alike_line (a b : Line) : alike (lineLe o) a b = (lineCompare o a b == .eq) := by
  have swap : lineCompare o b a = (lineCompare o a b).swap := (trans_line_compare o).eq_swap
  unfold alike lineLe
  rw [swap]
  cases lineCompare o a b <;> rfl

-- Nothing is sorted when the scratch array cannot be allocated.
def mergeSort (lines : List Line) (o : SortOpts) (tmp : Bool) : List Line :=
  if lines.length < 2 then lines else if tmp then bottomUp (lineLe o) lines else lines

inductive Check where
  | sorted
  | disorder (line : Line)
  | duplicateKey (line : Line)

def checkFrom (o : SortOpts) (previous : Line) : List Line → Check
  | [] => .sorted
  | line :: rest =>
    match lineCompare o previous line with
    | .gt => .disorder line
    | .eq => if o.u then .duplicateKey line else checkFrom o line rest
    | .lt => checkFrom o line rest

def check (o : SortOpts) : List Line → Check
  | [] => .sorted
  | line :: rest => checkFrom o line rest

theorem check_from_sorted (plain : o.u = false) (previous : Line) (rest : List Line)
    (sorted : (previous :: rest).Pairwise fun a b => lineLe o a b = true) : checkFrom o previous rest = .sorted := by
  induction rest generalizing previous with
  | nil => rfl
  | cons line rest ih =>
    have order : lineLe o previous line = true := rel_of_pairwise_cons sorted mem_cons_self
    have later := ih line (List.Pairwise.of_cons sorted)
    unfold lineLe at order
    rw [checkFrom, plain, later]
    cases found : lineCompare o previous line with
    | lt => rfl
    | eq => rfl
    | gt =>
      rw [found] at order
      exact Bool.noConfusion order

theorem check_sorted (plain : o.u = false) (lines : List Line)
    (sorted : lines.Pairwise fun a b => lineLe o a b = true) : check o lines = .sorted := by
  cases lines with
  | nil => rfl
  | cons line rest => exact check_from_sorted o plain line rest sorted

theorem short_pairwise {α : Type} {r : α → α → Prop} {xs : List α} (short : xs.length < 2) : xs.Pairwise r := by
  cases xs with
  | nil => exact List.Pairwise.nil
  | cons x rest =>
    cases rest with
    | nil => exact pairwise_singleton r x
    | cons y rest =>
      rw [length_cons, length_cons] at short
      omega

theorem merge_sort_correct (o : SortOpts) (plain : o.u = false) (lines : List Line) (tmp : Bool) (allocated : tmp = true) :
    ((∀ a, lineLe o a a = true) ∧ (∀ a b c, lineLe o a b = true → lineLe o b c = true → lineLe o a c = true) ∧
      ∀ a b, lineLe o a b = true ∨ lineLe o b a = true) ∧
    (mergeSort lines o tmp).Perm lines ∧
    (mergeSort lines o tmp).Pairwise (fun a b => lineLe o a b = true) ∧
    (∀ a, (mergeSort lines o tmp).filter (fun b => lineCompare o a b == .eq) =
      lines.filter fun b => lineCompare o a b == .eq) ∧
    check o (mergeSort lines o tmp) = .sorted := by
  have trans := line_le_trans o
  have total := line_le_total o
  have sorted : (mergeSort lines o tmp).Pairwise fun a b => lineLe o a b = true := by
    unfold mergeSort
    split
    · rename_i short
      exact short_pairwise short
    · exact bottom_up_sorted trans total lines
  refine ⟨⟨line_le_refl o, trans, fun a b => or_eq_true_iff.mp (total a b)⟩, ?_, sorted, fun a => ?_,
    check_sorted o plain _ sorted⟩
  · unfold mergeSort
    split
    · exact List.Perm.refl lines
    · exact bottom_up_perm lines
  · have like : (fun b => lineCompare o a b == .eq) = alike (lineLe o) a := by
      funext b
      exact (alike_line o a b).symm
    rw [like]
    unfold mergeSort
    split
    · rfl
    · exact bottom_up_stable trans total a lines

theorem check_from_ordered (previous : Line) (rest : List Line) (passed : checkFrom o previous rest = .sorted) :
    (previous :: rest).Pairwise fun a b => lineLe o a b = true := by
  induction rest generalizing previous with
  | nil => exact pairwise_singleton _ previous
  | cons line rest ih =>
    obtain ⟨order, later⟩ : lineLe o previous line = true ∧ checkFrom o line rest = .sorted := by
      unfold lineLe
      rw [checkFrom] at passed
      split at passed <;> rename_i found
      · cases passed
      · split at passed
        · cases passed
        · exact ⟨by rw [found]; rfl, passed⟩
      · exact ⟨by rw [found]; rfl, passed⟩
    have sorted := ih line later
    refine pairwise_cons.mpr ⟨fun c mem => ?_, sorted⟩
    rcases mem_cons.mp mem with rfl | behind
    · exact order
    · exact line_le_trans o _ _ _ order (rel_of_pairwise_cons sorted behind)

-- What sort -c accepts is what sort leaves as it is.
theorem check_sorted_iff (o : SortOpts) (lines : List Line) :
    check { o with u := false } lines = .sorted ↔ mergeSort lines { o with u := false } true = lines := by
  generalize plain : { o with u := false } = o'
  constructor
  · intro passed
    have sorted : lines.Pairwise fun a b => lineLe o' a b = true := by
      cases lines with
      | nil => exact .nil
      | cons line rest => exact check_from_ordered o' line rest passed
    unfold mergeSort
    split
    · rfl
    · exact bottom_up_fixed lines sorted
  · intro fixed
    refine check_sorted o' (plain ▸ rfl) lines ?_
    rw [← fixed, mergeSort]
    split
    · exact short_pairwise (by assumption)
    · exact bottom_up_sorted (line_le_trans o') (line_le_total o') lines

def twoKeys : SortOpts where
  b := false
  d := false
  f := false
  i := false
  n := false
  r := false
  u := false
  delim := none
  keys := [⟨2, 1, 2, 0, true, true, false, false, false, false, true, false⟩,
    ⟨1, 1, 1, 0, true, true, false, false, false, false, false, true⟩]

def twoKeyLines : List Line :=
  [makeLine 1 (Diff.ascii "a 10") twoKeys, makeLine 2 (Diff.ascii "b 9") twoKeys, makeLine 3 (Diff.ascii "c 10") twoKeys]

theorem merge_sort_two_keys :
    check twoKeys (mergeSort twoKeyLines twoKeys true) = .sorted ∧ (mergeSort twoKeyLines twoKeys true).Perm twoKeyLines :=
  have spec := merge_sort_correct twoKeys rfl twoKeyLines true rfl
  ⟨spec.2.2.2.2, spec.2.1⟩

end Spicule.Sort
