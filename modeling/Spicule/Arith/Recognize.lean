import Spicule.Arith.Follow

namespace Spicule.Arith
open List Ctype Bool Option
open Strtol (Bytes Constant clampLong strtol strtol_ahead)

variable (a : State)

@[simp] theorem fail_errors (code : Wrde) : (a.fail code).errors = a.errors := by
  unfold State.fail
  split <;> rfl

@[simp] theorem malformed_errors : a.malformed.errors = a.live :: a.errors := rfl

@[simp] theorem read_var_errors (w : Nat) (a : State) (name : Bytes) : (readVar w a name).2.errors = a.errors := by
  unfold readVar
  split
  · split
    · exact fail_errors a .badval
    · rfl
  · split
    · exact fail_errors a .syntaxError
    · rfl

@[simp] theorem assign_var_errors (name : Bytes) (v : Int) : (assignVar a name v).errors = a.errors := by
  unfold assignVar
  split
  · rfl
  · split
    · rfl
    · rw [fail_errors]

@[simp] theorem apply_binop_errors (w : Nat) (a : State) (op : Op) (cur rhs : Int) :
    (applyBinop w a op cur rhs).2.errors = a.errors := by
  cases op <;> simp only [applyBinop, quotient, remainder, shiftLeft, shiftRight] <;> split_ifs <;>
    first
      | rfl
      | exact fail_errors a .syntaxError

@[simp] theorem store_errors (w : Nat) (a : State) (name : Bytes) (op : Op) (rhs : Int) :
    (store w a name op rhs).2.errors = a.errors := by
  simp only [store, assign_var_errors, apply_binop_errors]
  split
  · rfl
  · exact read_var_errors w a name

variable {rest : Bytes} (p : Bytes)
theorem eat_some {token : Bytes} (eaten : eat token p = some rest) : p = token ++ rest := by
  unfold eat at eaten
  split at eaten
  · rename_i leads
    cases eaten
    obtain ⟨tail, rfl⟩ := List.isPrefixOf_iff_prefix.mp leads
    rw [drop_left]
  · cases eaten

variable {op : Op}
theorem match_op_some {ops : List Op} (matched : matchOp ops p = some (op, rest)) :
    op ∈ ops ∧ p = op.spelling ++ rest := by
  obtain ⟨found, mem, mapped⟩ := exists_of_findSome?_eq_some matched
  obtain ⟨tail, eaten, same⟩ := map_eq_some_iff.mp mapped
  cases same
  exact ⟨mem, eat_some _ eaten⟩

theorem undoubled_some {only : Op} (matched : undoubled only p = some (op, rest)) :
    op ∈ [only] ∧ p = op.spelling ++ rest := by
  unfold undoubled at matched
  split at matched
  · cases matched
  · exact match_op_some p matched

theorem operator_at_some {n : Nat} (matched : operatorAt n p = some (op, rest)) :
    op.level = n ∧ p = op.spelling ++ rest := by
  have listed : ∃ ops : List Op, (∀ other ∈ ops, Op.level other = n) ∧ op ∈ ops ∧ p = op.spelling ++ rest := by
    unfold operatorAt at matched
    split at matched
    all_goals first
      | exact ⟨_, by decide, match_op_some p matched⟩
      | exact ⟨_, by decide, undoubled_some p matched⟩
      | cases matched
  obtain ⟨ops, levels, mem, shape⟩ := listed
  exact ⟨levels op mem, shape⟩

theorem match_un_op_some (op : UnOp) (matched : matchUnOp p = some (op, rest)) : p = op.spelling :: rest := by
  obtain ⟨found, mem, mapped⟩ := exists_of_findSome?_eq_some matched
  obtain ⟨tail, eaten, same⟩ := map_eq_some_iff.mp mapped
  cases same
  exact eat_some _ eaten

theorem match_assign_op_some (matched : matchAssignOp p = some (op, rest)) :
    (op = .assign ∨ op ∈ compoundOps) ∧ p = assignSpelling op ++ rest := by
  unfold matchAssignOp at matched
  split at matched
  · rename_i found compound
    cases matched
    obtain ⟨which, mem, mapped⟩ := exists_of_findSome?_eq_some compound
    obtain ⟨tail, eaten, same⟩ := map_eq_some_iff.mp mapped
    cases same
    have plain : assignSpelling op = op.spelling ++ [61] := by
      cases op with
      | assign => exact absurd mem (by decide)
      | _ => rfl
    rw [plain]
    exact ⟨.inr mem, eat_some _ eaten⟩
  · split at matched
    · cases matched
    · obtain ⟨tail, eaten, same⟩ := map_eq_some_iff.mp matched
      cases same
      exact ⟨.inl rfl, eat_some _ eaten⟩

theorem namestart_namechar : ∀ c : UInt8, isNamestart c = true → isNamechar c = true := forall_byte (by decide +kernel)

theorem read_name_some (q name : Bytes) (starts : q.head?.any isNamestart = true)
    (read : readName q = some (name, rest)) : IsName name ∧ q = name ++ rest := by
  unfold readName at read
  split at read
  · cases read
  · rename_i short
    cases read
    refine ⟨⟨?_, fun c mem => mem_takeWhile_imp mem, by omega⟩, takeWhile_append_dropWhile.symm⟩
    cases q with
    | nil => exact absurd starts (by decide)
    | cons c tail =>
      rw [takeWhile_cons, if_pos (namestart_namechar c starts)]
      exact starts

theorem assign_target_some {name : Bytes} (found : assignTarget p = some (name, op, rest)) :
    ∃ dollar gap, IsName name ∧ Blank gap ∧ (op = .assign ∨ op ∈ compoundOps) ∧
      p = sigil dollar ++ (name ++ (gap ++ (assignSpelling op ++ rest))) := by
  have stripped : ∃ dollar, p = sigil dollar ++ (eat [36] p).getD p := by
    cases marked : eat [36] p with
    | none => exact ⟨false, rfl⟩
    | some q => exact ⟨true, eat_some _ marked⟩
  obtain ⟨dollar, whole⟩ := stripped
  simp only [assignTarget] at found
  split at found
  · rename_i starts
    split at found
    · cases found
    · rename_i name' behind read
      obtain ⟨⟨op', rest'⟩, matched, same⟩ := map_eq_some_iff.mp found
      cases same
      obtain ⟨named, shape⟩ := read_name_some _ name starts read
      obtain ⟨writes, spelled⟩ := match_assign_op_some _ matched
      obtain ⟨gap, blank, split⟩ := skip_ws_split behind
      refine ⟨dollar, gap, named, blank, writes, ?_⟩
      rw [← spelled, ← split, ← shape]
      exact whole
  · cases found

variable (w : Nat)

-- Without a grammar error, what was read is a spelling of the level.
variable (rest) in
def Reads (n : Nat) (level : Level) : Prop :=
  ∀ s p, ∃ new, (level ⟨s, p⟩).2.errors = new ++ s.errors ∧ (new = [] → ∃ e pieces rest,
    Spells n e pieces ∧ Tight pieces ∧ p = text pieces ++ rest ∧ (level ⟨s, p⟩).2.p = after n rest)

variable (rest) in
def LoopReads (n : Nat) (loop : Int → Level) : Prop :=
  ∀ v s p, ∃ new, (loop v ⟨s, p⟩).2.errors = new ++ s.errors ∧ (new = [] → ∀ l left q,
    Spells n l left → Tight left → skipWs q = skipWs p → ∃ e pieces rest,
      Spells n e pieces ∧ Tight pieces ∧ text left ++ q = text pieces ++ rest ∧ (loop v ⟨s, p⟩).2.p = skipWs rest)

theorem tight_single {gap token : Bytes} : Tight [⟨gap, token, false⟩] :=
  (tight_cons _ _).mpr ⟨fun marked => absurd marked false_ne_true, fun _ mem => absurd mem not_mem_nil⟩

theorem expect_errors (c : UInt8) (a : Parser) : ∃ new, (expect c a).errors = new ++ a.errors ∧
    (new = [] → ∃ gap rest, Blank gap ∧ a.p = gap ++ c :: rest ∧ (expect c a).p = rest ∧
      (expect c a).toState = a.toState) := by
  obtain ⟨gap, blank, whole⟩ := skip_ws_split a.p
  unfold expect
  split
  · exact ⟨[a.live], rfl, fun impossible => nomatch impossible⟩
  · rename_i d rest shape
    split
    · rename_i same
      refine ⟨[], rfl, fun _ => ⟨gap, rest, blank, ?_, rfl, rfl⟩⟩
      rw [shape, same] at whole
      exact whole
    · exact ⟨[a.live], rfl, fun impossible => nomatch impossible⟩

section
variable {assign : Level} (s : State)
theorem load_var_reads (gap : Bytes) (dollar : Bool) (name rest p : Bytes) (blank : Blank gap)
    (named : IsName name) (whole : p = gap ++ (sigil dollar ++ (name ++ rest))) :
    ∃ new, (loadVar w ⟨s, p⟩ name rest).2.errors = new ++ s.errors ∧ (new = [] → ∃ e pieces after,
      Spells 0 e pieces ∧ Tight pieces ∧ p = text pieces ++ after ∧ (loadVar w ⟨s, p⟩ name rest).2.p = after) := by
  refine ⟨[], read_var_errors w s name, fun _ => ⟨.var name, [⟨gap, sigil dollar ++ name, false⟩], rest,
    .name gap dollar name blank named, tight_single, ?_, rfl⟩⟩
  rw [whole]
  simp

theorem paren_reads (inner : Reads 13 assign) {p gap rest : Bytes} (blank : Blank gap)
    (whole : p = gap ++ 40 :: rest) :
    ∃ new, (expect 41 (assign ⟨s, rest⟩).2).errors = new ++ s.errors ∧ (new = [] → ∃ e pieces behind,
      Spells 0 e pieces ∧ Tight pieces ∧ p = text pieces ++ behind ∧ (expect 41 (assign ⟨s, rest⟩).2).p = behind) := by
  obtain ⟨new, grown, spelled⟩ := inner s rest
  obtain ⟨more, grownMore, closed⟩ := expect_errors 41 (assign ⟨s, rest⟩).2
  refine ⟨more ++ new, by rw [grownMore, grown, append_assoc], ?_⟩
  intro none_new
  obtain ⟨rfl, rfl⟩ := append_eq_nil_iff.mp none_new
  obtain ⟨e, pieces, tail, derived, tight, split, reached⟩ := spelled rfl
  obtain ⟨close, behind, blankClose, closing, stopped, _⟩ := closed rfl
  rw [reached, after, if_neg (by omega)] at closing
  obtain ⟨wide, blankWide, splitTail⟩ := skip_ws_split tail
  have blanks : Blank (wide ++ close) := by
    intro d mem
    cases mem_append.mp mem with
    | inl first => exact blankWide d first
    | inr second => exact blankClose d second
  refine ⟨e, ⟨gap, [40], false⟩ :: (pieces ++ [⟨wide ++ close, [41], false⟩]), behind,
    .paren gap (wide ++ close) e pieces blank blanks derived, ?_, ?_, stopped⟩
  · exact (tight_cons _ _).mpr ⟨fun marked => absurd marked false_ne_true,
      (tight_append _ _).mpr ⟨tight, tight_single⟩⟩
  · rw [whole, split, splitTail, closing]
    simp

theorem primary_reads (pos : 0 < w) (narrow : w ≤ 64) (inner : Reads 13 assign) : Reads 0 (arithPrimary w assign) := by
  intro s p
  obtain ⟨gap, blank, whole⟩ := skip_ws_split p
  have malformed : ∀ rest : Bytes, ∃ new, (Parser.mk s rest).malform.errors = new ++ s.errors ∧ (new = [] →
      ∃ e pieces behind, Spells 0 e pieces ∧ Tight pieces ∧ p = text pieces ++ behind ∧ rest = behind) :=
    fun rest => ⟨[s.live], rfl, fun impossible => nomatch impossible⟩
  unfold arithPrimary
  split
  · exact malformed []
  · rename_i c rest shape
    rw [shape] at whole
    split
    · rename_i opened
      exact paren_reads s inner blank (opened ▸ whole)
    · split
      · rename_i dollar
        split
        · exact malformed rest
        · rename_i name behind read
          obtain ⟨named, split⟩ := read_name_some rest name dollar.2 read
          rw [split, dollar.1] at whole
          exact load_var_reads w s gap true name behind p blank named whole
      · split
        · rename_i starts
          split
          · exact malformed (c :: rest)
          · rename_i name behind read
            obtain ⟨named, split⟩ := read_name_some (c :: rest) name starts read
            rw [split] at whole
            exact load_var_reads w s gap false name behind p blank named whole
        · split
          · rename_i digit
            obtain ⟨token, magnitude, behind, split, constant, converted⟩ :=
              strtol_ahead w pos narrow c rest digit
            refine ⟨[], rfl, fun _ => ⟨.const magnitude, [⟨gap, token, false⟩], behind,
              .constant gap token magnitude blank constant, tight_single, ?_, ?_⟩⟩
            · rw [whole, split]
              simp
            · rw [converted]
              rfl
          · exact malformed rest

variable (fuel : Nat)
theorem unary_reads (inner : Reads 0 (arithPrimary w assign)) : Reads 1 (arithUnary w assign fuel) := by
  induction fuel with
  | zero => exact fun s p => ⟨[s.live], rfl, fun impossible => nomatch impossible⟩
  | succ fuel ih =>
    intro s p
    obtain ⟨gap, blank, whole⟩ := skip_ws_split p
    unfold arithUnary
    split
    · rename_i op rest matched
      have shape := match_un_op_some _ op matched
      obtain ⟨new, grown, spelled⟩ := ih s rest
      refine ⟨new, grown, fun none_new => ?_⟩
      obtain ⟨e, pieces, behind, derived, tight, split, reached⟩ := spelled none_new
      refine ⟨.unary op e, ⟨gap, [op.spelling], false⟩ :: pieces, behind, .unary gap op e pieces blank derived,
        (tight_cons _ _).mpr ⟨fun marked => absurd marked false_ne_true, tight⟩, ?_, reached⟩
      rw [whole, shape, split]
      simp
    · rw [show Parser.goto ⟨s, p⟩ (skipWs p) = ⟨s, skipWs p⟩ from rfl, primary_skipped]
      obtain ⟨new, grown, spelled⟩ := inner s p
      refine ⟨new, grown, fun none_new => ?_⟩
      obtain ⟨e, pieces, behind, derived, tight, split, reached⟩ := spelled none_new
      exact ⟨e, pieces, behind, .lift 0 e pieces (by omega) derived, tight, split, reached⟩

theorem stop_reads {n : Nat} {v : Int} {p : Bytes} : ∃ new,
    ((v, Parser.mk s (skipWs p)) : Int × Parser).2.errors = new ++ s.errors ∧ (new = [] → ∀ l left q,
      Spells n l left → Tight left → skipWs q = skipWs p → ∃ e pieces rest, Spells n e pieces ∧ Tight pieces ∧
        text left ++ q = text pieces ++ rest ∧ skipWs p = skipWs rest) :=
  ⟨[], rfl, fun _ l left q spelled tight same => ⟨l, left, q, spelled, tight, rfl, same.symm⟩⟩

variable {operand : Level} {loop : Int → Level} {n : Nat}
theorem round_reads {m : Nat} (inner : Reads n operand) (onward : LoopReads m loop)
    {spelling : Bytes} {join : Expr → Expr → Expr} (derive : ∀ l r left gap right, Blank gap → Spells m l left →
      Spells n r right → Spells m (join l r) (left ++ ⟨gap, spelling, false⟩ :: right)) {s entered next : State} (v : Int)
    {p rest : Bytes} (shape : skipWs p = spelling ++ rest) (kept : entered.errors = s.errors)
    (same : next.errors = (operand ⟨entered, rest⟩).2.errors) :
    ∃ new, (loop v ⟨next, (operand ⟨entered, rest⟩).2.p⟩).2.errors = new ++ s.errors ∧ (new = [] → ∀ l left q,
      Spells m l left → Tight left → skipWs q = skipWs p → ∃ e pieces behind, Spells m e pieces ∧ Tight pieces ∧
        text left ++ q = text pieces ++ behind ∧ (loop v ⟨next, (operand ⟨entered, rest⟩).2.p⟩).2.p = skipWs behind) := by
  obtain ⟨new, grown, spelled⟩ := inner entered rest
  obtain ⟨more, grownMore, looped⟩ := onward v next (operand ⟨entered, rest⟩).2.p
  rw [same, grown, kept, ← append_assoc] at grownMore
  refine ⟨more ++ new, grownMore, fun none_new => ?_⟩
  obtain ⟨rfl, rfl⟩ := append_eq_nil_iff.mp none_new
  obtain ⟨r, right, behind, derived, tightRight, split, reached⟩ := spelled rfl
  intro l left q spelledLeft tightLeft same
  obtain ⟨gap, blank, splitGap⟩ := skip_ws_split q
  have joined : text (left ++ ⟨gap, spelling, false⟩ :: right) ++ behind = text left ++ q := by
    rw [splitGap, same, shape, split]
    simp
  rw [← joined]
  refine looped rfl (join l r) _ behind (derive l r left gap right blank spelledLeft derived) ?_ ?_
  · exact (tight_append _ _).mpr ⟨tightLeft, (tight_cons _ _).mpr
      ⟨fun marked => absurd marked false_ne_true, tightRight⟩⟩
  · rw [reached, skip_after]

theorem bin_loop_reads (inner : Reads n operand) :
    LoopReads (n + 1) (binLoop w (operatorAt (n + 1)) operand fuel) := by
  induction fuel with
  | zero => exact fun v s p => ⟨[s.live], rfl, fun impossible => nomatch impossible⟩
  | succ fuel ih =>
    intro v s p
    unfold binLoop
    split
    · exact stop_reads s
    · rename_i op rest matched
      obtain ⟨level, shape⟩ := operator_at_some _ matched
      exact round_reads inner ih (fun l r left gap right => .binary n op l r left gap right level)
        _ shape rfl (apply_binop_errors ..)

theorem logic_loop_reads {op : Logic} (level : op.level = n + 1) (inner : Reads n operand)
    : LoopReads (n + 1) (logicLoop op operand fuel) := by
  induction fuel with
  | zero => exact fun v s p => ⟨[s.live], rfl, fun impossible => nomatch impossible⟩
  | succ fuel ih =>
    intro v s p
    unfold logicLoop
    split
    · exact stop_reads s
    · rename_i rest matched
      exact round_reads inner ih (fun l r left gap right => .logic n op l r left gap right level)
        _ (eat_some _ matched) rfl rfl

theorem loop_level_reads (small : 1 ≤ n ∧ n < 14) {level : Level}
    (enters : ∀ a, level a = loop (operand a).1 (operand a).2) (inner : Reads n operand) (looping : LoopReads (n + 1) loop) :
    Reads (n + 1) level := by
  intro s p
  obtain ⟨new, grown, spelled⟩ := inner s p
  obtain ⟨more, grownMore, looped⟩ := looping (operand ⟨s, p⟩).1 (operand ⟨s, p⟩).2.toState (operand ⟨s, p⟩).2.p
  rw [enters]
  refine ⟨more ++ new, by rw [append_assoc, ← grown]; exact grownMore, fun none_new => ?_⟩
  obtain ⟨rfl, rfl⟩ := append_eq_nil_iff.mp none_new
  obtain ⟨e, pieces, rest, derived, tight, split, reached⟩ := spelled rfl
  obtain ⟨e', pieces', rest', derived', tight', split', reached'⟩ := looped rfl e pieces rest
    (.lift n e pieces small.2 derived) tight (by rw [reached, skip_after])
  refine ⟨e', pieces', rest', derived', tight', split.trans split', ?_⟩
  rw [after, if_neg (by omega)]
  exact reached'

theorem level_reads (pos : 0 < w) (narrow : w ≤ 64) (inner : Reads 13 assign) (n : Nat) (high : n ≤ 11) :
    Reads n (levelAt w assign fuel n) := by
  induction n with
  | zero => exact primary_reads w pos narrow inner
  | succ n ih =>
    have below := ih (by omega)
    by_cases unary : n = 0
    · subst unary
      exact unary_reads w fuel below
    · refine loop_level_reads ⟨by omega, by omega⟩
        (fun a => level_at_loop w (n + 1) a (by omega) (by omega)) below ?_
      by_cases binary : n ≤ 8
      · have bin := bin_loop_reads w fuel below
        interval_cases n <;> exact bin
      · obtain rfl | rfl : n = 9 ∨ n = 10 := by omega
        · exact logic_loop_reads fuel rfl below
        · exact logic_loop_reads fuel rfl below

theorem cond_reads {depth : Nat} (inner : Reads 13 assign) (test : Reads 11 (arithLor w assign depth)) :
    Reads 12 (arithCond w assign depth fuel) := by
  induction fuel with
  | zero => exact fun s p => ⟨[s.live], rfl, fun impossible => nomatch impossible⟩
  | succ fuel ih =>
    intro s p
    obtain ⟨new, grown, spelled⟩ := test s p
    unfold arithCond
    generalize arithLor w assign depth ⟨s, p⟩ = tested at grown spelled
    obtain ⟨c, a, p'⟩ := tested
    simp only at grown spelled ⊢
    split
    · refine ⟨new, grown, fun none_new => ?_⟩
      obtain ⟨e, pieces, rest, derived, tight, split, reached⟩ := spelled none_new
      refine ⟨e, pieces, rest, .lift 11 e pieces (by omega) derived, tight, split, ?_⟩
      have skipped : skipWs p' = skipWs rest := by rw [reached, skip_after]
      rw [after, if_neg (by omega)]
      exact skipped
    · rename_i rest matched
      have shape := eat_some _ matched
      obtain ⟨newYes, grownYes, spelledYes⟩ := inner (a.enter (a.live && c ≠ 0)) rest
      have enter_yes : Parser.enter (Parser.goto ⟨a, p'⟩ rest) (a.live && decide (c ≠ 0)) =
        ⟨a.enter (a.live && decide (c ≠ 0)), rest⟩ := rfl
      rw [enter_yes]
      generalize assign ⟨a.enter (a.live && decide (c ≠ 0)), rest⟩ = taken at grownYes spelledYes
      obtain ⟨newColon, grownColon, colonFound⟩ := expect_errors 58 taken.2
      generalize expect 58 taken.2 = separated at grownColon colonFound
      obtain ⟨newNo, grownNo, spelledNo⟩ := ih (separated.toState.enter (a.live && c = 0)) separated.p
      refine ⟨newNo ++ (newColon ++ (newYes ++ new)), ?_, fun none_new => ?_⟩
      · simp only [append_assoc]
        rw [← grown, ← show _ = newYes ++ a.errors from grownYes, ← grownColon]
        exact grownNo
      · simp only [append_eq_nil_iff] at none_new
        obtain ⟨rfl, rfl, rfl, rfl⟩ := none_new
        obtain ⟨e, pieces, rest₁, derived, tight, split, reached⟩ := spelled rfl
        obtain ⟨t, yes, rest₂, derivedYes, tightYes, splitYes, reachedYes⟩ := spelledYes rfl
        obtain ⟨colon, rest₃, blankColon, closing, stopped, _⟩ := colonFound rfl
        obtain ⟨f, no, rest₄, derivedNo, tightNo, splitNo, reachedNo⟩ := spelledNo rfl
        obtain ⟨gap, blank, splitGap⟩ := skip_ws_split rest₁
        obtain ⟨wide, blankWide, splitWide⟩ := skip_ws_split rest₂
        rw [reachedYes, after, if_neg (by omega)] at closing
        rw [reached, skip_after] at shape
        have blanks : Blank (wide ++ colon) := by
          intro d mem
          cases mem_append.mp mem with
          | inl first => exact blankWide d first
          | inr second => exact blankColon d second
        refine ⟨.cond e t f, pieces ++ ⟨gap, [63], false⟩ :: (yes ++ ⟨wide ++ colon, [58], false⟩ :: no), rest₄,
          .cond e t f pieces gap yes (wide ++ colon) no blank blanks derived derivedYes derivedNo, ?_, ?_, reachedNo⟩
        · refine (tight_append _ _).mpr ⟨tight, (tight_cons _ _).mpr
            ⟨fun marked => absurd marked false_ne_true, (tight_append _ _).mpr ⟨tightYes, (tight_cons _ _).mpr
              ⟨fun marked => absurd marked false_ne_true, tightNo⟩⟩⟩⟩
        · rw [split, splitGap, shape, splitYes, splitWide, closing, ← stopped, splitNo]
          simp

end

theorem assign_reads (pos : 0 < w) (narrow : w ≤ 64) {fuel : Nat} : Reads 13 (arithAssign w fuel) := by
  induction fuel with
  | zero => exact fun s p => ⟨[s.live], rfl, fun impossible => nomatch impossible⟩
  | succ fuel ih =>
    intro s p
    unfold arithAssign
    split
    · rename_i name op rest found
      obtain ⟨dollar, gap, named, blank, writes, shape⟩ := assign_target_some p found
      obtain ⟨new, grown, spelled⟩ := ih s rest
      refine ⟨new, by rw [← grown]; exact store_errors w _ name op _, fun none_new => ?_⟩
      obtain ⟨e, pieces, behind, derived, tight, split, reached⟩ := spelled none_new
      refine ⟨.assign name op e, ⟨[], sigil dollar ++ name, true⟩ :: ⟨gap, assignSpelling op, false⟩ :: pieces, behind,
        .assign [] dollar name gap op e pieces (fun c mem => absurd mem not_mem_nil) named blank writes derived,
        ?_, ?_, reached⟩
      · exact (tight_cons _ _).mpr ⟨fun _ => rfl, (tight_cons _ _).mpr
          ⟨fun marked => absurd marked false_ne_true, tight⟩⟩
      · rw [shape, split]
        simp
    · obtain ⟨new, grown, spelled⟩ := cond_reads w fuel
        ih (level_reads w fuel pos narrow ih 11 (by omega)) s p
      refine ⟨new, grown, fun none_new => ?_⟩
      obtain ⟨e, pieces, rest, derived, tight, split, reached⟩ := spelled none_new
      exact ⟨e, pieces, rest, .lift 12 e pieces (by omega) derived, tight, split, reached⟩

theorem comma_loop_reads (assign : Level) (inner : Reads 13 assign) (fuel : Nat) :
    LoopReads 14 (commaLoop assign fuel) := by
  induction fuel with
  | zero => exact fun v s p => ⟨[s.live], rfl, fun impossible => nomatch impossible⟩
  | succ fuel ih =>
    intro v s p
    unfold commaLoop
    split
    · exact stop_reads s
    · rename_i rest matched
      exact round_reads inner ih (fun l r left gap right => .comma l r left gap right) _
        (eat_some _ matched) rfl rfl

theorem comma_reads (pos : 0 < w) (narrow : w ≤ 64) (fuel : Nat) : Reads 14 (arithComma w fuel) :=
  loop_level_reads ⟨by omega, by omega⟩ (fun _ => rfl)
    (assign_reads w pos narrow) (comma_loop_reads _ (assign_reads w pos narrow) fuel)

end Spicule.Arith
