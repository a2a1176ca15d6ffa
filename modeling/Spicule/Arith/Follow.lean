import Spicule.Arith.Lookahead

namespace Spicule.Arith
open List Option Ctype
open Strtol (Bytes Constant clampLong strtol strtol_constant)

variable (w : Nat)
def levelAt (assign : Level) (fuel : Nat) : Nat → Level
  | 0 => arithPrimary w assign
  | 1 => arithUnary w assign fuel
  | 2 => arithMul w assign fuel
  | 3 => arithAdd w assign fuel
  | 4 => arithShift w assign fuel
  | 5 => arithRel w assign fuel
  | 6 => arithEq w assign fuel
  | 7 => arithBand w assign fuel
  | 8 => arithBxor w assign fuel
  | 9 => arithBor w assign fuel
  | 10 => arithLand w assign fuel
  | _ => arithLor w assign fuel

def loopAt (assign : Level) (fuel : Nat) : Nat → Nat → Int → Level
  | 10 => logicLoop .land (arithBor w assign fuel)
  | 11 => logicLoop .lor (arithLand w assign fuel)
  | n => binLoop w (operatorAt n) (levelAt w assign fuel (n - 1))

def after (n : Nat) (rest : Bytes) : Bytes := if n ≤ 1 then rest else skipWs rest

def Follows (level : Level) (n : Nat) (e : Expr) (t : Bytes) : Prop :=
  ∀ s rest, Ahead n rest → level ⟨s, t ++ rest⟩ = ((e.run w s).1, ⟨(e.run w s).2, after n rest⟩)

def Chains (assign : Level) (fuel n : Nat) (e : Expr) (t : Bytes) : Prop :=
  ∀ s rest, Ahead (n - 1) rest → ∃ left, fuel < left + t.length ∧
    levelAt w assign fuel n ⟨s, t ++ rest⟩ =
      loopAt w assign fuel n left (e.run w s).1 ⟨(e.run w s).2, after (n - 1) rest⟩

variable (n : Nat) (rest : Bytes)
theorem skip_after : skipWs (after n rest) = skipWs rest := by
  unfold after
  split
  · rfl
  · exact skip_ws_skip rest

section
variable {assign : Level}
include assign

variable {fuel : Nat}
theorem level_at_loop (n : Nat) (a : Parser) (low : 2 ≤ n) (high : n ≤ 11) : levelAt w assign fuel n a =
      loopAt w assign fuel n fuel (levelAt w assign fuel (n - 1) a).1 (levelAt w assign fuel (n - 1) a).2 := by
  interval_cases n <;> rfl

variable (left : Nat) (v : Int) (s : State)
theorem loop_stops {n : Nat} {p : Bytes} (low : 2 ≤ n) (high : n ≤ 11) (stops : continues n (skipWs p) = false) :
    loopAt w assign fuel n (left + 1) v ⟨s, p⟩ = (v, ⟨s, skipWs p⟩) := by
  interval_cases n <;> simp only [continues, isSome_eq_false_iff, isNone_iff_eq_none] at stops <;>
    simp only [loopAt, binLoop, logicLoop, stops, Parser.goto]

theorem chains_follows {fuel n : Nat} {e : Expr} {t : Bytes} (low : 2 ≤ n) (high : n ≤ 11)
    (enough : t.length ≤ fuel) (chains : Chains w assign fuel n e t) :
    Follows w (levelAt w assign fuel n) n e t := by
  intro s rest ahead
  obtain ⟨left, bound, reached⟩ := chains s rest (ahead_lower n (by omega) ahead)
  rcases left with _ | left
  · omega
  have stops : continues n (skipWs (after (n - 1) rest)) = false := by
    rw [skip_after]
    exact ahead.2 n (le_refl n)
  rw [reached, loop_stops w left _ _ low high stops, skip_after, after, if_neg (by omega)]

theorem follows_chains {fuel n : Nat} {e : Expr} {t : Bytes} (low : 1 ≤ n) (high : n ≤ 10)
    (opens : Opens t) (follows : Follows w (levelAt w assign fuel n) n e t) : Chains w assign fuel (n + 1) e t := by
  intro s rest ahead
  obtain ⟨c, u, rfl, _⟩ := opens
  refine ⟨fuel, by simp, ?_⟩
  rw [level_at_loop w (n + 1) _ (by omega) (by omega), Nat.add_sub_cancel, follows s rest ahead]

theorem loop_op {n : Nat} {op : Op} {p t : Bytes}
    (level : op.level = n + 1) (found : skipWs p = op.spelling ++ t) (opens : Opens t) :
    loopAt w assign fuel (n + 1) (left + 1) v ⟨s, p⟩ = loopAt w assign fuel (n + 1) left
        (applyBinop w (levelAt w assign fuel n ⟨s, t⟩).2.toState op v (levelAt w assign fuel n ⟨s, t⟩).1).1
        ⟨(applyBinop w (levelAt w assign fuel n ⟨s, t⟩).2.toState op v (levelAt w assign fuel n ⟨s, t⟩).1).2,
          (levelAt w assign fuel n ⟨s, t⟩).2.p⟩ := by
  have joins : op ≠ .assign := by
    rintro rfl
    cases level
  have matched := operator_at_op op t joins opens
  have binary : loopAt w assign fuel op.level = binLoop w (operatorAt op.level) (levelAt w assign fuel (op.level - 1)) := by
    cases op <;> rfl
  rw [level] at matched binary
  rw [binary, Nat.add_sub_cancel, binLoop]
  simp only [found, matched, Parser.goto]

theorem loop_logic {n : Nat} {op : Logic} {p t : Bytes}
    (level : op.level = n + 1) (found : skipWs p = op.spelling ++ t) :
    loopAt w assign fuel (n + 1) (left + 1) v ⟨s, p⟩ =
      loopAt w assign fuel (n + 1) left (op.join v (levelAt w assign fuel n ⟨s.enter (s.live && op.needs v), t⟩).1)
        ((levelAt w assign fuel n ⟨s.enter (s.live && op.needs v), t⟩).2.enter s.live) := by
  have matched : eat op.spelling (op.spelling ++ t) = some t := by simp [eat]
  cases op with
  | land =>
    obtain rfl : n = 9 := by simpa [Logic.level] using level.symm
    simp only [loopAt, logicLoop, found, matched, Parser.goto, Parser.enter, State.enter, levelAt]
  | lor =>
    obtain rfl : n = 10 := by simpa [Logic.level] using level.symm
    simp only [loopAt, logicLoop, found, matched, Parser.goto, Parser.enter, State.enter, levelAt]

end

variable {name : Bytes}
theorem read_name_append (named : IsName name) (apart : ∀ c ∈ rest.head?, isNamechar c = false) :
    readName (name ++ rest) = some (name, rest) := by
  have taken : (name ++ rest).takeWhile isNamechar = name := by
    rw [takeWhile_append_of_pos named.2.1]
    cases rest with
    | nil => exact append_nil name
    | cons c rest => rw [takeWhile_cons, apart c rfl, if_neg Bool.false_ne_true, append_nil]
  have dropped : (name ++ rest).dropWhile isNamechar = rest := by
    rw [dropWhile_append_of_pos named.2.1]
    cases rest with
    | nil => rfl
    | cons c rest => rw [dropWhile_cons, apart c rfl, if_neg Bool.false_ne_true]
  rw [readName, taken, dropped, if_neg (not_le.mpr named.2.2)]

theorem no_word (apart : ∀ c ∈ rest.head?, isNamechar c = false) : Strtol.NoWord rest := by
  intro c head
  have plain := apart c head
  rw [isNamechar, Bool.or_eq_false_iff] at plain
  exact plain.1

section
variable {assign : Level} {gap : Bytes}
theorem primary_constant (pos : 0 < w) (narrow : w ≤ 64) {token : Bytes} {magnitude : Nat} (blank : Blank gap)
    (constant : Constant token magnitude) :
    Follows w (arithPrimary w assign) 0 (.const magnitude) (gap ++ token) := by
  intro s rest ahead
  have read := strtol_constant w pos narrow token rest magnitude constant (no_word rest ahead.1)
  obtain ⟨c, tail, rfl, digit⟩ := constant_head constant
  obtain ⟨solid, not_paren, not_dollar, not_name⟩ := ((byte_classes c).1 digit).2.1
  rw [arithPrimary, append_assoc, skip_ws_blank _ blank, cons_append, skip_ws_stop _ solid]
  simp only [not_paren, not_dollar, not_name, digit, false_and, if_false, if_true, Bool.false_eq_true]
  rw [← cons_append, read]
  rfl

theorem primary_name (dollar : Bool) (blank : Blank gap) (named : IsName name) :
    Follows w (arithPrimary w assign) 0 (.var name) (gap ++ (sigil dollar ++ name)) := by
  intro s rest ahead
  have read := read_name_append rest named ahead.1
  obtain ⟨c, tail, rfl, start⟩ := name_head named
  obtain ⟨solid, not_paren, not_dollar⟩ := ((byte_classes c).2.1 start).2.1
  rw [arithPrimary, append_assoc, skip_ws_blank _ blank]
  cases dollar with
  | true =>
    have shape : skipWs (sigil true ++ c :: tail ++ rest) = 36 :: (c :: tail ++ rest) :=
      skip_ws_stop (c :: tail ++ rest) (by decide)
    have marked : (c :: tail ++ rest).head?.any isNamestart = true := start
    rw [shape]
    simp only [show (36 : UInt8) ≠ 40 by decide, marked, true_and, if_true, if_false, read]
    rfl
  | false =>
    have shape : skipWs (sigil false ++ c :: tail ++ rest) = c :: (tail ++ rest) := skip_ws_stop (tail ++ rest) solid
    rw [shape]
    rw [cons_append] at read
    simp only [not_paren, not_dollar, start, false_and, if_false, if_true, read]
    rfl

theorem expect_found {c : UInt8} {s : State} {rest : Bytes} (blank : Blank gap) (solid : isWs c = false) :
    expect c ⟨s, gap ++ c :: rest⟩ = ⟨s, rest⟩ := by
  simp only [expect, skip_ws_blank _ blank, skip_ws_stop rest solid, if_true, Parser.goto]

theorem expect_skipped (c : UInt8) (s : State) (p : Bytes) : expect c ⟨s, skipWs p⟩ = expect c ⟨s, p⟩ := by
  simp only [expect, skip_ws_skip, Parser.goto]

theorem primary_paren {close : Bytes} {e : Expr} {t : Bytes} (blank : Blank gap) (blankClose : Blank close)
    (inner : Follows w assign 13 e t) :
    Follows w (arithPrimary w assign) 0 e (gap ++ 40 :: (t ++ (close ++ [41]))) := by
  intro s rest ahead
  have stop : Ahead 13 (close ++ 41 :: rest) := ahead_closing rest (.inl rfl) blankClose
  have shape : gap ++ 40 :: (t ++ (close ++ [41])) ++ rest = gap ++ 40 :: (t ++ (close ++ 41 :: rest)) := by simp
  have closed : expect 41 ⟨(e.run w s).2, after 13 (close ++ 41 :: rest)⟩ = ⟨(e.run w s).2, rest⟩ := by
    rw [after, if_neg (by omega), expect_skipped, expect_found blankClose (by decide)]
  rw [arithPrimary, shape, skip_ws_blank _ blank, skip_ws_stop _ (by decide)]
  simp only [if_true, Parser.goto, inner s _ stop, closed]
  rfl

variable (assign) in
theorem primary_skipped (s : State) (p : Bytes) : arithPrimary w assign ⟨s, skipWs p⟩ = arithPrimary w assign ⟨s, p⟩ := by
  simp only [arithPrimary, skip_ws_skip, Parser.goto, loadVar]

end

theorem match_un_op_none : ∀ c : UInt8, c ≠ 43 → c ≠ 45 → c ≠ 126 → c ≠ 33 → ∀ rest, matchUnOp (c :: rest) = none := by
  intro c plus minus compl not rest
  simp [matchUnOp, eat, UnOp.spelling, Ne.symm plus, Ne.symm minus, Ne.symm compl, Ne.symm not]

theorem match_un_op_spelling (op : UnOp) : matchUnOp (op.spelling :: rest) = some (op, rest) := by
  cases op <;> rfl

variable {gap : Bytes} (target : Bool)
theorem skip_piece (c : UInt8) (u : Bytes) (pieces : List Piece)
    (blank : Blank gap) (solid : isWs c = false) :
    skipWs (text (⟨gap, c :: u, target⟩ :: pieces) ++ rest) = c :: (u ++ (text pieces ++ rest)) := by
  rw [text_cons, append_assoc, skip_ws_blank _ blank, cons_append, cons_append, skip_ws_stop _ solid, append_assoc]

variable (e : Expr) {pieces : List Piece}
theorem primary_no_un_op (spelled : Spells 0 e pieces) : matchUnOp (skipWs (text pieces ++ rest)) = none := by
  cases spelled with
  | constant gap token magnitude blank constant =>
    obtain ⟨c, tail, rfl, digit⟩ := constant_head constant
    obtain ⟨plus, minus, compl, not⟩ := ((byte_classes c).1 digit).2.2
    rw [skip_piece rest false c tail [] blank ((byte_classes c).1 digit).2.1.1]
    exact match_un_op_none c plus minus compl not _
  | name gap dollar name blank named =>
    obtain ⟨c, tail, rfl, start⟩ := name_head named
    cases dollar with
    | true =>
      have shape := skip_piece rest false 36 (c :: tail) [] blank (by decide)
      rw [show sigil true ++ c :: tail = 36 :: c :: tail from rfl, shape]
      rfl
    | false =>
      obtain ⟨plus, minus, compl, not⟩ := ((byte_classes c).2.1 start).2.2
      have shape := skip_piece rest false c tail [] blank ((byte_classes c).2.1 start).2.1.1
      rw [show sigil false ++ c :: tail = c :: tail from rfl, shape]
      exact match_un_op_none c plus minus compl not _
  | paren gap close e inner blank blankClose spelled =>
    rw [skip_piece rest false 40 [] _ blank (by decide)]
    rfl

def NoTarget (rest : Bytes) : Prop :=
  (∀ c ∈ rest.head?, isNamechar c = false) ∧ matchAssignOp (skipWs rest) = none

variable {c : UInt8}
theorem eat_other {token : UInt8} (differs : c ≠ token) : eat [token] (c :: rest) = none := by
  simp [eat, Ne.symm differs]

theorem assign_target_solid (not_dollar : c ≠ 36) (not_name : isNamestart c = false) :
    assignTarget (c :: rest) = none := by
  simp [assignTarget, eat_other rest not_dollar, not_name]

theorem assign_target_piece {c : UInt8} {u : Bytes} {pieces : List Piece}
    (blank : Blank gap) (not_dollar : c ≠ 36) (not_name : isNamestart c = false) :
    assignTarget (text (⟨gap, c :: u, target⟩ :: pieces) ++ rest) = none := by
  rw [text_cons]
  cases gap with
  | nil => exact assign_target_solid _ not_dollar not_name
  | cons b gap =>
    obtain ⟨other, no_name⟩ := (byte_classes b).2.2 (blank b mem_cons_self)
    exact assign_target_solid _ other no_name

theorem assign_target_name (dollar : Bool) (named : IsName name)
    (apart : ∀ c ∈ rest.head?, isNamechar c = false) : assignTarget (sigil dollar ++ (name ++ rest)) =
      (matchAssignOp (skipWs rest)).map fun (op, rest) => (name, op, rest) := by
  have read := read_name_append rest named apart
  have stripped : (eat [36] (sigil dollar ++ (name ++ rest))).getD (sigil dollar ++ (name ++ rest)) = name ++ rest := by
    obtain ⟨c, tail, rfl, start⟩ := name_head named
    cases dollar with
    | true => rfl
    | false =>
      rw [show sigil false = [] from rfl, nil_append, cons_append,
        eat_other _ ((byte_classes c).2.1 start).2.1.2.2, getD_none]
  have starts : (name ++ rest).head?.any isNamestart = true := by
    obtain ⟨c, tail, rfl, start⟩ := name_head named
    exact start
  simp only [assignTarget, stripped, starts, if_true, read]

theorem spells_no_target (spelled : Spells n e pieces) (small : n ≤ 12)
    (rest : Bytes) (none_behind : NoTarget rest) : assignTarget (text pieces ++ rest) = none := by
  induction spelled generalizing rest with
  | constant gap token magnitude blank constant =>
    obtain ⟨c, tail, rfl, digit⟩ := constant_head constant
    obtain ⟨_, _, not_dollar, not_name⟩ := ((byte_classes c).1 digit).2.1
    exact assign_target_piece rest false blank not_dollar not_name
  | name gap dollar name blank named =>
    cases gap with
    | nil =>
      have found := assign_target_name rest dollar named none_behind.1
      rw [none_behind.2, map_none] at found
      rw [text_cons, text_nil, append_nil, nil_append, append_assoc]
      exact found
    | cons b gap =>
      obtain ⟨other, no_name⟩ := (byte_classes b).2.2 (blank b mem_cons_self)
      rw [text_cons]
      exact assign_target_solid _ other no_name
  | paren gap close e inner blank blankClose spelled ih =>
    exact assign_target_piece rest false blank (by decide) (by decide)
  | unary gap op e operand blank spelled ih =>
    exact assign_target_piece rest false blank (by cases op <;> decide)
      (by cases op <;> decide)
  | lift n e pieces below spelled ih => exact ih (by omega) rest none_behind
  | binary n op l r left gap right level blank spelledLeft spelledRight ih _ =>
    have joins : op ≠ .assign := by
      rintro rfl
      cases level
    obtain ⟨c, u, spelling, solid, apart⟩ := op_spelling_head op
    have opens := opens_append rest (spells_opens n spelledRight)
    have ahead := ahead_op op n level blank opens
    have none_here : matchAssignOp (skipWs (gap ++ (op.spelling ++ (text right ++ rest)))) = none := by
      rw [skip_ws_blank _ blank]
      have none_op := match_assign_op_op op (text right ++ rest) joins opens
      rw [spelling, cons_append] at none_op ⊢
      rwa [skip_ws_stop _ solid]
    rw [text_joined]
    exact ih small _ ⟨ahead.1, none_here⟩
  | logic n op l r left gap right level blank spelledLeft spelledRight ih _ =>
    have ahead := ahead_logic gap (text right ++ rest) level blank
    have none_here : matchAssignOp (skipWs (gap ++ (op.spelling ++ (text right ++ rest)))) = none := by
      rw [skip_ws_blank _ blank]
      cases op <;> rfl
    rw [text_joined]
    exact ih small _ ⟨ahead.1, none_here⟩
  | cond c t f test gap yes colon no blank blankColon spelledTest spelledYes spelledNo ih _ _ =>
    have ahead := ahead_question (text yes ++ (colon ++ 58 :: (text no ++ rest))) blank
    have shape : text (test ++ ⟨gap, [63], false⟩ :: (yes ++ ⟨colon, [58], false⟩ :: no)) ++ rest =
        text test ++ (gap ++ 63 :: (text yes ++ (colon ++ 58 :: (text no ++ rest)))) := by simp
    have none_here : matchAssignOp (skipWs (gap ++ 63 :: (text yes ++ (colon ++ 58 :: (text no ++ rest))))) = none := by
      rw [skip_ws_blank _ blank]
      rfl
    rw [shape]
    exact ih (by omega) _ ⟨ahead.1, none_here⟩
  | assign | comma => omega

def Obeys : Nat → Expr → Bytes → Prop
  | 0, e, t => ∀ d, t.length ≤ d → Follows w (arithPrimary w (arithAssign w d)) 0 e t
  | 1, e, t => ∀ d fuel, t.length ≤ d → t.length ≤ fuel → Follows w (arithUnary w (arithAssign w d) fuel) 1 e t
  | 12, e, t => ∀ d depth fuel, t.length ≤ d → t.length ≤ depth → t.length ≤ fuel →
      Follows w (arithCond w (arithAssign w d) depth fuel) 12 e t
  | 13, e, t => ∀ d, t.length < d → Follows w (arithAssign w d) 13 e t
  | 14, e, t => ∀ d, t.length < d → ∀ s rest, Ahead 13 rest → ∃ left, d < left + t.length ∧
      arithComma w d ⟨s, t ++ rest⟩ =
        commaLoop (arithAssign w d) left (e.run w s).1 ⟨(e.run w s).2, skipWs rest⟩
  | n, e, t => ∀ d fuel, t.length ≤ d → t.length ≤ fuel → Chains w (arithAssign w d) fuel n e t

variable (t : Bytes)
variable {n}
theorem obeys_chain (low : 2 ≤ n) (high : n ≤ 11) :
    Obeys w n e t ↔ ∀ d fuel, t.length ≤ d → t.length ≤ fuel → Chains w (arithAssign w d) fuel n e t := by
  interval_cases n <;> rfl

variable {t}
variable {w}
theorem obeys_follows (d fuel : Nat) {e : Expr} (high : n ≤ 11) (obeys : Obeys w n e t)
    (deep : t.length ≤ d) (enough : t.length ≤ fuel) :
    Follows w (levelAt w (arithAssign w d) fuel n) n e t := by
  by_cases low : 2 ≤ n
  · exact chains_follows w low high enough ((obeys_chain w e t low high).mp obeys d fuel deep enough)
  · obtain rfl | rfl : n = 0 ∨ n = 1 := by omega
    · exact obeys d deep
    · exact obeys d fuel deep enough

theorem obeys_unary (op : UnOp) {e : Expr} (blank : Blank gap) (obeys : Obeys w 1 e t) :
    Obeys w 1 (.unary op e) (gap ++ op.spelling :: t) := by
  intro d fuel deep enough s rest ahead
  simp only [length_append, length_cons] at deep enough
  rcases fuel with _ | fuel
  · omega
  have solid : isWs op.spelling = false := by cases op <;> decide
  have inner := obeys d fuel (by omega) (by omega) s rest ahead
  rw [arithUnary, append_assoc, skip_ws_blank _ blank, cons_append, skip_ws_stop _ solid, match_un_op_spelling]
  simp only [Parser.goto, inner]
  rfl

theorem obeys_lift_primary (spelled : Spells 0 e pieces)
    (obeys : Obeys w 0 e (text pieces)) : Obeys w 1 e (text pieces) := by
  intro d fuel deep enough s rest ahead
  obtain ⟨c, u, shape, _⟩ := spells_opens 0 spelled
  have pos : 0 < (text pieces).length := by simp [shape]
  rcases fuel with _ | fuel
  · omega
  rw [arithUnary, primary_no_un_op rest e spelled]
  simp only [Parser.goto]
  rw [primary_skipped, obeys d deep s rest (ahead_lower 1 (by omega) ahead)]
  rfl

theorem obeys_lift_logic (opens : Opens t) (obeys : Obeys w 11 e t) : Obeys w 12 e t := by
  intro d depth fuel deep wide enough s rest ahead
  obtain ⟨c, u, rfl, _⟩ := opens
  obtain ⟨fuel, rfl⟩ : ∃ less, fuel = less + 1 := ⟨fuel - 1, by simp at enough; omega⟩
  have inner := obeys_follows d depth (by omega) obeys deep wide s rest (ahead_lower 12 (by omega) ahead)
  have stops : eat [63] (skipWs rest) = none := by
    have := ahead.2 12 (le_refl 12)
    simpa only [continues, isSome_eq_false_iff, isNone_iff_eq_none] using this
  rw [levelAt] at inner
  · simp only [arithCond, inner, skip_after, stops, Parser.goto]
    rfl
  all_goals omega

theorem obeys_lift_cond (spelled : Spells 12 e pieces)
    (obeys : Obeys w 12 e (text pieces)) : Obeys w 13 e (text pieces) := by
  intro d enough s rest ahead
  rcases d with _ | d
  · omega
  have none_ahead : matchAssignOp (skipWs rest) = none := by
    have := ahead.2 13 (le_refl 13)
    simpa only [continues, isSome_eq_false_iff, isNone_iff_eq_none] using this
  have no_target := spells_no_target 12 e spelled (le_refl 12) rest ⟨ahead.1, none_ahead⟩
  simp only [arithAssign, no_target]
  exact obeys d d d (by omega) (by omega) (by omega) s rest (ahead_lower 13 (by omega) ahead)

theorem obeys_lift_assign (opens : Opens t) (obeys : Obeys w 13 e t) : Obeys w 14 e t := by
  intro d enough s rest ahead
  obtain ⟨c, u, rfl, _⟩ := opens
  refine ⟨d, by simp, ?_⟩
  rw [arithComma, obeys d enough s rest ahead]
  rfl

theorem obeys_lift (below : n < 14) (spelled : Spells n e pieces)
    (obeys : Obeys w n e (text pieces)) : Obeys w (n + 1) e (text pieces) := by
  have opens := spells_opens n spelled
  by_cases binary : 1 ≤ n ∧ n ≤ 10
  · rw [obeys_chain w e _ (by omega) (by omega)]
    intro d fuel deep enough
    exact follows_chains w binary.1 binary.2 opens
      (obeys_follows d fuel (by omega) obeys deep enough)
  · obtain rfl | rfl | rfl | rfl : n = 0 ∨ n = 11 ∨ n = 12 ∨ n = 13 := by omega
    · exact obeys_lift_primary e spelled obeys
    · exact obeys_lift_logic e opens obeys
    · exact obeys_lift_cond e spelled obeys
    · exact obeys_lift_assign e opens obeys

variable {u : Bytes}
theorem obeys_joined (low : 1 ≤ n) (high : n ≤ 10) {l e : Expr} {v : Bytes} (solid : isWs c = false)
    (blank : Blank gap) (ahead : ∀ rest, Ahead n (gap ++ (c :: v ++ (u ++ rest)))) (obeysLeft : Obeys w (n + 1) l t)
    (step : ∀ d fuel left s p rest, u.length ≤ d → u.length ≤ fuel → Ahead n rest → skipWs p = c :: v ++ (u ++ rest) →
      loopAt w (arithAssign w d) fuel (n + 1) (left + 1) (l.run w s).1 ⟨(l.run w s).2, p⟩ =
        loopAt w (arithAssign w d) fuel (n + 1) left (e.run w s).1 ⟨(e.run w s).2, after n rest⟩) :
    Obeys w (n + 1) e (t ++ (gap ++ (c :: v ++ u))) := by
  rw [obeys_chain w _ _ (by omega) (by omega)]
  intro d fuel deep enough s rest behind
  simp only [length_append, length_cons] at deep enough
  obtain ⟨left, bound, reached⟩ := (obeys_chain w l t (by omega) (by omega)).mp obeysLeft d fuel (by omega) (by omega) s
    _ (ahead rest)
  rcases left with _ | left
  · omega
  refine ⟨left, by simp only [length_append, length_cons]; omega, ?_⟩
  have shape : t ++ (gap ++ (c :: v ++ u)) ++ rest = t ++ (gap ++ (c :: v ++ (u ++ rest))) := by simp
  rw [shape, reached]
  refine step d fuel left s _ rest (by omega) (by omega) behind ?_
  rw [skip_after, skip_ws_blank _ blank, cons_append, skip_ws_stop _ solid]

theorem obeys_binary {op : Op} {l r : Expr} (level : op.level = n + 1) (blank : Blank gap)
    (opens : Opens u) (obeysLeft : Obeys w (n + 1) l t) (obeysRight : Obeys w n r u) :
    Obeys w (n + 1) (.binary op l r) (t ++ (gap ++ (op.spelling ++ u))) := by
  have bounds : 2 ≤ op.level ∧ op.level ≤ 9 := by
    cases op with
    | assign => cases level
    | _ => decide
  have ahead := fun rest => ahead_op op n level blank (opens_append rest opens)
  obtain ⟨c, v, spelled, solid, _⟩ := op_spelling_head op
  rw [spelled] at ahead ⊢
  refine obeys_joined (by omega) (by omega) solid blank ahead obeysLeft ?_
  intro d fuel left s p rest deep enough behind found
  rw [← spelled] at found
  rw [loop_op w left _ _ level found (opens_append rest opens),
    obeys_follows d fuel (by omega) obeysRight deep enough (l.run w s).2 rest behind]
  rfl

theorem obeys_logic {op : Logic} {l r : Expr} (level : op.level = n + 1) (blank : Blank gap)
    (obeysLeft : Obeys w (n + 1) l t) (obeysRight : Obeys w n r u) :
    Obeys w (n + 1) (.logic op l r) (t ++ (gap ++ (op.spelling ++ u))) := by
  have bounds : 10 ≤ op.level ∧ op.level ≤ 11 := by cases op <;> decide
  have ahead := fun rest => ahead_logic gap (u ++ rest) level blank
  obtain ⟨c, v, spelled, solid⟩ : ∃ c v, op.spelling = c :: v ∧ isWs c = false := by cases op <;> exact ⟨_, _, rfl, rfl⟩
  rw [spelled] at ahead ⊢
  refine obeys_joined (by omega) (by omega) solid blank ahead obeysLeft ?_
  intro d fuel left s p rest deep enough behind found
  rw [← spelled] at found
  rw [loop_logic w left _ _ level found,
    obeys_follows d fuel (by omega) obeysRight deep enough _ rest behind]
  rfl

theorem obeys_cond {c t f : Expr} {test yes colon no : Bytes} (blank : Blank gap) (blankColon : Blank colon)
    (obeysTest : Obeys w 11 c test) (obeysYes : Obeys w 13 t yes) (obeysNo : Obeys w 12 f no) :
    Obeys w 12 (.cond c t f) (test ++ (gap ++ 63 :: (yes ++ (colon ++ 58 :: no)))) := by
  intro d depth fuel deep wide enough s rest ahead
  simp only [length_append, length_cons] at deep wide enough
  rcases fuel with _ | fuel
  · omega
  have shape : test ++ (gap ++ 63 :: (yes ++ (colon ++ 58 :: no))) ++ rest =
      test ++ (gap ++ 63 :: (yes ++ (colon ++ 58 :: (no ++ rest)))) := by simp
  have first := obeys_follows d depth (by omega) obeysTest (by omega) (by omega) s _
    (ahead_question (yes ++ (colon ++ 58 :: (no ++ rest))) blank)
  rw [levelAt] at first
  · have found : eat [63] (skipWs (after 11 (gap ++ 63 :: (yes ++ (colon ++ 58 :: (no ++ rest)))))) =
        some (yes ++ (colon ++ 58 :: (no ++ rest))) := by
      rw [skip_after, skip_ws_blank _ blank]
      rfl
    have second := fun s => obeysYes d (by omega) s _ (ahead_closing (no ++ rest) (.inr (.inl rfl)) blankColon)
    have colonFound : ∀ s : State, expect 58 ⟨s, after 13 (colon ++ 58 :: (no ++ rest))⟩ = ⟨s, no ++ rest⟩ := by
      intro s
      rw [after, if_neg (by omega), expect_skipped, expect_found blankColon (by decide)]
    have third := fun s => obeysNo d depth fuel (by omega) (by omega) (by omega) s rest ahead
    simp only [shape, arithCond, first, found, Parser.goto, Parser.enter, second, colonFound, third]
    rfl
  all_goals omega

theorem obeys_assign (dollar : Bool) {gapOp : Bytes} {op : Op} {e : Expr} (named : IsName name)
    (blankOp : Blank gapOp) (writes : op = .assign ∨ op ∈ compoundOps) (opens : Opens t) (obeys : Obeys w 13 e t) :
    Obeys w 13 (.assign name op e) (sigil dollar ++ (name ++ (gapOp ++ (assignSpelling op ++ t)))) := by
  intro d enough s rest ahead
  rcases d with _ | d
  · omega
  have head : ∃ c u, assignSpelling op = c :: u ∧ isWs c = false ∧ isNamechar c = false := by
    cases op <;> exact ⟨_, _, rfl, by decide, by decide⟩
  obtain ⟨c, u, spelled, solid, plain⟩ := head
  have spread : 1 ≤ (assignSpelling op).length := by simp [spelled]
  have apart : ∀ b ∈ (gapOp ++ (assignSpelling op ++ (t ++ rest))).head?, isNamechar b = false := by
    intro b first
    cases gapOp with
    | nil =>
      rw [nil_append, spelled] at first
      cases first
      exact plain
    | cons space gapOp =>
      cases first
      exact blank_not_namechar (blankOp _ mem_cons_self)
  have found := assign_target_name _ dollar named apart
  rw [skip_ws_blank _ blankOp, show skipWs (assignSpelling op ++ (t ++ rest)) = assignSpelling op ++ (t ++ rest) by
    rw [spelled, cons_append, skip_ws_stop _ solid],
    match_assign_op_spelling op (t ++ rest) writes (opens_append rest opens)] at found
  simp only [length_append] at enough
  have shape : sigil dollar ++ (name ++ (gapOp ++ (assignSpelling op ++ t))) ++ rest =
      sigil dollar ++ (name ++ (gapOp ++ (assignSpelling op ++ (t ++ rest)))) := by simp
  simp only [shape, arithAssign, found, map_some, Parser.goto, obeys d (by omega) s rest ahead]
  rfl

theorem obeys_comma {l r : Expr} (blank : Blank gap) (obeysFirst : Obeys w 14 l t)
    (obeysLast : Obeys w 13 r u) : Obeys w 14 (.comma l r) (t ++ (gap ++ 44 :: u)) := by
  intro d enough s rest ahead
  simp only [length_append, length_cons] at enough
  obtain ⟨left, bound, reached⟩ := obeysFirst d (by omega) s (gap ++ 44 :: (u ++ rest))
    (ahead_closing (u ++ rest) (.inr (.inr rfl)) blank)
  rcases left with _ | left
  · omega
  have found : eat [44] (skipWs (gap ++ 44 :: (u ++ rest))) = some (u ++ rest) := by
    rw [skip_ws_blank _ blank]
    rfl
  refine ⟨left, by simp only [length_append, length_cons]; omega, ?_⟩
  have shape : t ++ (gap ++ 44 :: u) ++ rest = t ++ (gap ++ 44 :: (u ++ rest)) := by simp
  rw [shape, reached, commaLoop]
  simp only [skip_ws_skip, found, Parser.goto, obeysLast d (by omega) (l.run w s).2 rest ahead]
  rfl

theorem spells_obeys (pos : 0 < w) (narrow : w ≤ 64) {n : Nat} {e : Expr} {pieces : List Piece}
    (spelled : Spells n e pieces) (tight : Tight pieces) : Obeys w n e (text pieces) := by
  induction spelled with
  | constant gap token magnitude blank constant =>
    intro d deep
    simpa using primary_constant w pos narrow blank constant
  | name gap dollar name blank named =>
    intro d deep
    simpa using primary_name w dollar blank named
  | paren gap close e inner blank blankClose spelled ih =>
    intro d deep
    have within := ((tight_append inner _).mp ((tight_cons _ _).mp tight).2).1
    simp only [text_cons, text_append, length_append, length_cons] at deep
    simpa using primary_paren w blank blankClose (ih within d (by omega))
  | unary gap op e operand blank spelled ih =>
    simpa using obeys_unary op blank (ih ((tight_cons _ _).mp tight).2)
  | lift n e pieces below spelled ih => exact obeys_lift e below spelled (ih tight)
  | binary n op l r left gap right level blank spelledLeft spelledRight ihLeft ihRight =>
    have parts := (tight_append left _).mp tight
    have opens := spells_opens n spelledRight
    simpa using obeys_binary level blank opens (ihLeft parts.1)
      (ihRight ((tight_cons _ _).mp parts.2).2)
  | logic n op l r left gap right level blank spelledLeft spelledRight ihLeft ihRight =>
    have parts := (tight_append left _).mp tight
    simpa using obeys_logic level blank (ihLeft parts.1)
      (ihRight ((tight_cons _ _).mp parts.2).2)
  | cond c t f test gap yes colon no blank blankColon _ _ _ ihTest ihYes ihNo =>
    have parts := (tight_append test _).mp tight
    have arms := (tight_append yes _).mp ((tight_cons _ _).mp parts.2).2
    simpa using obeys_cond blank blankColon (ihTest parts.1)
      (ihYes arms.1) (ihNo ((tight_cons _ _).mp arms.2).2)
  | assign gap dollar name gapOp op e value blank named blankOp writes spelled ih =>
    obtain ⟨untouched, behind⟩ := (tight_cons _ _).mp tight
    obtain rfl : gap = [] := untouched rfl
    have opens := spells_opens 13 spelled
    simpa using obeys_assign dollar named blankOp writes opens
      (ih ((tight_cons _ _).mp behind).2)
  | comma l r first gap last blank _ _ ihFirst ihLast =>
    have parts := (tight_append first _).mp tight
    simpa using obeys_comma blank (ihFirst parts.1)
      (ihLast ((tight_cons _ _).mp parts.2).2)

theorem wordexp_arith_spelled (pos : 0 < w) (narrow : w ≤ 64) {call : Call} {e : Expr} {pieces : List Piece}
    {trail : Bytes} (spelled : Spells 14 e pieces) (tight : Tight pieces) (blank : Blank trail) :
    wordexpArith w call (text pieces ++ trail) =
      { code := (e.run w call.start).2.err, result := (e.run w call.start).1, final := (e.run w call.start).2,
        rest := [] } := by
  have ahead := ahead_end blank
  obtain ⟨left, bound, reached⟩ := spells_obeys pos narrow spelled tight
    ((text pieces ++ trail).length + 2) (by simp only [length_append]; omega) call.start trail
    (ahead_lower 14 (by omega) ahead)
  obtain ⟨left, rfl⟩ : ∃ less, left = less + 1 := ⟨left - 1, by simp only [length_append] at bound; omega⟩
  have gone : skipWs trail = [] := skip_ws_all blank
  rw [wordexpArith, reached, commaLoop, gone]
  cases failed : (e.run w call.start).2.err with
  | none | some => simp [eat, Parser.goto, failed]

end Spicule.Arith
