import Spicule.Wordexp.Positional

-- The word of ${x:-word}, with double quotes around the expansion or the word.
namespace Spicule.Wordexp
open List

def isWordText (c : UInt8) : Bool := isLiteral c && c ≠ ch '}'

structure Inert (v : Bytes) : Prop where
  inner : ∀ c ∈ v, isInner c = true
  unpatterned : ∀ c ∈ v, isMeta c = false
  uncommented : v.head? ≠ some (ch '#')

section

theorem word_end_plain {v tail : Bytes} (all : ∀ c ∈ v, isWordText c = true) (unquoted : ∀ c ∈ v, c ≠ ch '\'') :
    paramWordEnd .word 0 (v ++ ch '}' :: tail) = some (v, tail) := by
  induction v with
  | nil => cases tail <;> simp [paramWordEnd, ch]
  | cons c v ih =>
    obtain ⟨here, all⟩ := forall_mem_cons.mp all
    obtain ⟨quote, unquoted⟩ := forall_mem_cons.mp unquoted
    simp only [isWordText, isLiteral, Bool.and_eq_true, decide_eq_true_eq] at here
    obtain ⟨⟨⟨⟨⟨-, double⟩, back⟩, dollar⟩, -⟩, close⟩ := here
    obtain ⟨d, q, shape⟩ := exists_cons_of_ne_nil (by simp : v ++ ch '}' :: tail ≠ [])
    have later := ih all unquoted
    rw [shape] at later
    rw [cons_append, shape]
    simp [paramWordEnd, double, back, dollar, close, quote, later, taking]

theorem word_end_double (v : Bytes) (all : ∀ c ∈ v, isLiteral c = true) :
    paramWordEnd .double 0 (v ++ [ch '"', ch '}']) = some (v ++ [ch '"'], []) := by
  induction v with
  | nil => simp [paramWordEnd, taking, ch]
  | cons c v ih =>
    obtain ⟨here, all⟩ := forall_mem_cons.mp all
    simp only [isLiteral, Bool.and_eq_true, decide_eq_true_eq] at here
    obtain ⟨⟨⟨⟨-, double⟩, back⟩, -⟩, -⟩ := here
    obtain ⟨d, q, shape⟩ := exists_cons_of_ne_nil (by simp : v ++ [ch '"', ch '}'] ≠ [])
    have later := ih all
    rw [shape] at later
    rw [cons_append, shape, paramWordEnd]
    simp only [if_neg double, if_neg back, later]
    rfl

end

section
variable {σ : Type} {w : World σ} {e : Engine σ} {flags : Flags} {sh : Bool}
def braced (name p : Bytes) : Bytes := ch '{' :: (name ++ ch ':' :: ch '-' :: p)

variable {name : Bytes} (p : Bytes)
theorem braced_parameter (valid : IsName name) : Parameter (braced name p) := by
  obtain ⟨c, tail, rfl, -, -, differs⟩ := name_first valid
  refine ⟨(by simp [braced, ch]), (by simp [braced, ch]), ?_⟩
  have listed : ¬ (c = ch '@' ∨ c = ch '*') := by
    rintro (same | same)
    · exact differs _ (by decide) same
    · exact differs _ (by decide) same
  cases tail <;> simp [braced, atOrStar, listed]

theorem expand_param_default {b : Fbuf} {quoted : Bool} {s : Shell σ} (valid : IsName name)
    (unset : s.env name = none) : expandParam w e flags sh (ch '$' :: braced name p) b quoted s =
      if 256 ≤ name.length then (.error .syntaxError, s) else expandDefault e name none true (ch '-') p b quoted s := by
  obtain ⟨c, tail, shape, first, letter, differs⟩ := name_first valid
  have colon : isNamechar (ch ':') = false := by decide
  have taken : (name ++ ch ':' :: ch '-' :: p).takeWhile isNamechar = name := by
    rw [takeWhile_append_of_pos valid.all, takeWhile_cons_of_neg (by simp [colon]), append_nil]
  have left : (name ++ ch ':' :: ch '-' :: p).dropWhile isNamechar = ch ':' :: ch '-' :: p := by
    rw [dropWhile_append_of_pos valid.all, dropWhile_cons_of_neg (by simp [colon])]
  have named : expandParam w e flags sh (ch '$' :: braced name p) b quoted s =
      expandNamed w e flags true (name ++ ch ':' :: ch '-' :: p) b quoted s := by
    unfold expandParam braced
    simp only [shape, drop_succ_cons, drop_zero, head?_cons, decide_true, if_true, cons_append, headD_cons]
    rw [get_bind, decide_eq_false (differs (ch '#') (by decide)), decide_eq_false (differs (ch '?') (by decide)), letter, first]
    simp
  rw [named]
  unfold expandNamed
  rw [taken, left]
  by_cases long : 256 ≤ name.length
  · rw [if_pos long, if_pos long]
    rfl
  · rw [if_neg long, if_neg long, get_bind, unset]
    rfl

theorem default_found {p word rest : Bytes} {b : Fbuf} {quoted : Bool} {s : Shell σ}
    (found : paramWordEnd .word 0 p = some (word, rest)) : expandDefault e name none true (ch '-') p b quoted s =
      (expandParamWord e word quoted >>= fun replacement => pure (rest, fbufPushStr b replacement quoted)) s := by
  rw [expandDefault, found]
  rfl

end

section
variable {σ : Type} {w : World σ} {e : Engine σ} {flags : Flags} {sh : Bool}
theorem inner_dark {c : UInt8} (inner : isInner c = true) : isIfs c = false := by
  simp only [isInner, Bool.and_eq_true, Bool.not_eq_true'] at inner
  exact inner.1.1

theorem scan_inner {t : Bytes} (front : Bytes) (extra : Nat) (st : Scan) (outside : st.q = .none) (started : st.active = true)
    (literal : ∀ c ∈ t, isLiteral c = true) (inner : ∀ c ∈ t, isInner c = true) (here : st.p = t)
    (solid : ∃ d, front.getLast? = some d ∧ isIfs d = false) :
    scan w e flags sh (front ++ t) (t.length + extra) st = pure { st with field := st.field ++ live t, p := [] } := by
  induction t generalizing st front with
  | nil =>
    obtain ⟨fields, p, q, dqPrev, dqNullAt, dqMark⟩ := st
    cases here
    rw [scan_done w _ _ rfl]
    simp [live]
  | cons c t ih =>
    obtain ⟨d, last, dark⟩ := solid
    have filled : 0 < front.length := length_pos_iff.mpr fun none => by simp [none] at last
    have shut : opensWord (front ++ c :: t) (c :: t) = false := by
      have before : (front ++ c :: t).getD (front.length - 1) 0 = d := by
        rw [getLast?_eq_getElem?] at last
        rw [getD_eq_getElem?_getD, getElem?_append_left (by omega), last, Option.getD_some]
      rw [opensWord, length_append, Nat.add_sub_cancel, before, dark, decide_eq_false (by omega)]
      rfl
    have split : front ++ c :: t = front ++ [c] ++ t := by simp
    obtain ⟨letter, literal⟩ := forall_mem_cons.mp literal
    obtain ⟨within, inner⟩ := forall_mem_cons.mp inner
    rw [length_cons, Nat.add_right_comm, scan_step w e _ st c t here,
      step_inner w e outside letter within (fun _ => shut) fun _ => started, pure_bind, split,
      ih (front ++ [c]) { st with field := st.field ++ [(c, false)], active := true, p := t } outside rfl literal inner rfl
      ⟨c, by simp, inner_dark within⟩, started]
    simp [live]

def escaped (quoted : Bool) (v : Bytes) : Bytes := if quoted && v.head? = some (ch '~') then ch '\\' :: v else v

theorem expand_inert (v : Bytes) (s : Shell σ) (literal : ∀ c ∈ v, isLiteral c = true) (inert : Inert v) :
    expandImpl w e flags sh (escaped true v) s = (.ok (if v = [] then [] else [v]), s) := by
  cases v with
  | nil => rfl
  | cons c t =>
    have whole := literal_whole literal
    obtain ⟨letter, later⟩ := forall_mem_cons.mp literal
    obtain ⟨within, inner⟩ := forall_mem_cons.mp inert.inner
    obtain ⟨unmatched, unpatterned⟩ := forall_mem_cons.mp inert.unpatterned
    have reached : ∃ b, hasMeta ((c, b) :: live t) = false ∧ scan w e flags sh (escaped true (c :: t)) (escaped true (c :: t)).length
        (start (escaped true (c :: t))) = pure { start [] with field := (c, b) :: live t, active := true } := by
      have flat : hasMeta (live t) = false := by
        simpa [has_meta_live, any_eq_false] using unpatterned
      by_cases tilde : c = ch '~'
      · subst tilde
        refine ⟨true, by simpa [hasMeta] using flat, ?_⟩
        exact scan_inner [ch '\\', ch '~'] 1 { start [] with field := [(ch '~', true)], active := true, p := t } rfl rfl
          later inner rfl ⟨ch '~', rfl, by decide⟩
      · refine ⟨false, by simpa [hasMeta, unmatched] using flat, ?_⟩
        have opened : escaped true (c :: t) = c :: t := if_neg (by simpa using tilde)
        rw [opened, length_cons, scan_step w e _ _ c t rfl, step_inner w e rfl letter within
          (fun hash => absurd (congrArg some hash) inert.uncommented) (absurd · tilde), pure_bind]
        exact scan_inner [c] 0 { start [] with field := [(c, false)], active := true, p := t } rfl rfl
          later inner rfl ⟨c, rfl, inner_dark within⟩
    obtain ⟨b, unpatterned, ran⟩ := reached
    rw [expand_impl_eq, ran, pure_bind, if_neg (cons_ne_nil c t)]
    have spelled : plain ((c, b) :: live t) = c :: t := congrArg (c :: ·) (plain_live t)
    have flushed := flush_unpatterned w [] s unpatterned (by rw [spelled]; exact whole)
    rw [spelled] at flushed
    exact bind_ok flushed

end

section
variable {v : Bytes}
theorem word_literal (all : ∀ c ∈ v, isWordText c = true) : ∀ c ∈ v, isLiteral c = true :=
  fun c mem => (Bool.and_eq_true_iff.mp (all c mem)).1

variable {σ : Type} {w : World σ} {e : Engine σ} {flags : Flags} {sh : Bool} {s t : Shell σ} {name p : Bytes}
theorem quoted_param_value {r : Bytes} (valid : IsName name) (whole : 0 ∉ r)
    (ran : expandParam w e flags sh (ch '$' :: braced name p) [] true s = (.ok (text "\"", quoted r), t)) :
    expandImpl w e flags sh (ch '"' :: ch '$' :: braced name p) s = (.ok [r], t) := by
  obtain ⟨-, command, single⟩ := braced_parameter p valid
  have arith : (braced name p).take 2 ≠ text "((" := fun both => absurd (cons.inj both).1 (by decide)
  have second : ∀ st : Scan, st.q = .double → st.field = [] →
      step w e flags sh (ch '"' :: ch '$' :: braced name p) st (ch '$') (braced name p) s =
        (.ok { st with field := quoted r, p := text "\"" }, t) := by
    intro st inside empty
    obtain ⟨⟨field, active, out⟩, p, q, dqPrev, dqNullAt, dqMark⟩ := st
    cases inside
    cases empty
    change stepDouble w e flags sh _ (ch '$') (braced name _) s = _
    rw [stepDouble, if_neg (by decide), if_neg (by simp [ch]), if_neg (by simpa using arith),
      if_neg (by rw [decide_eq_false command]; decide), if_pos rfl, single]
    exact bind_ok ran
  have fuel : (braced name p).length = ([] : Bytes).length + (([] : Bytes).length + (name ++ ch ':' :: ch '-' :: p).length + 1) := by
    simp [braced]
  rw [expand_impl_eq, length_cons, length_cons, scan_step w e _ _ _ _ rfl, step_open w e flags sh _ _ _ rfl,
    pure_bind, scan_step w e _ _ _ _ rfl, bind_assoc, bind_ok (second _ rfl rfl), fuel,
    finish_quoted w e flags sh _ [] [] _ _ r t]
  · simp [start]
  · simp
  · simp
  · rfl
  · exact ⟨rfl, has_meta_quoted r, whole, plain_quoted r⟩
  · rfl

theorem param_word_value {word v : Bytes} {quoted : Bool} {words : List Bytes}
    (ran : e.expandImpl (escaped quoted word) s = (.ok words, s))
    (spelled : words = [] ∧ v = [] ∨ words = [v]) (short : word.length < 2 ^ 31) (fits : v.length < 2 ^ 31) :
    expandParamWord e word quoted s = (.ok (match word.getLast? with
      | none => v
      | some last => if !quoted && isSplitChar s.env last then v ++ [last] else v), s) := by
  have joined : ∀ sep : Bytes, sep.intercalate words = v := by
    rcases spelled with ⟨rfl, rfl⟩ | rfl <;> simp [intercalate]
  have small : (words.any fun field => decide (2 ^ 31 - 1 < field.length)) = false := by
    rcases spelled with ⟨rfl, rfl⟩ | rfl
    · rfl
    · simp only [any_cons, any_nil, Bool.or_false, decide_eq_false_iff_not]
      omega
  rw [expandParamWord, if_neg (by omega), ← escaped, bind_ok ran, get_bind]
  dsimp only
  rw [small, if_neg Bool.false_ne_true, joined]
  cases word.getLast? <;> rfl

theorem quoted_default {e' : Engine σ} (inside : e.expandImpl = expandImpl w e' flags sh) (valid : IsName name)
    (short : name.length < 256) (unset : s.env name = none) (all : ∀ c ∈ v, isWordText c = true) (inert : Inert v)
    (fits : v.length < 2 ^ 31) :
    expandImpl w e flags sh (ch '"' :: ch '$' :: braced name (v ++ text "\x7d\"")) s = (.ok [v], s) := by
  have literal := word_literal all
  have value : expandParamWord e v true s = (.ok v, s) := by
    rw [param_word_value (by rw [inside]; exact expand_inert v s literal inert) (by split <;> simp_all) fits fits]
    cases v.getLast? <;> rfl
  have found : paramWordEnd .word 0 (v ++ text "\x7d\"") = some (v, text "\"") :=
    word_end_plain all fun c mem same => by simpa [same, isInner] using inert.inner c mem
  refine quoted_param_value valid (literal_whole literal) ?_
  rw [expand_param_default _ valid unset, if_neg (by omega), default_found found, bind_ok value,
    ← nil_append (quoted v), ← push_str (literal_whole literal)]
  rfl

theorem runs_closed (separates : UInt8 → Bool) (v buf : Bytes) (c : UInt8) (closing : separates c = true) :
    runs separates buf (v ++ [c]) = runs separates buf v := by
  induction v generalizing buf with
  | nil => simp [runs, closing]
  | cons d v ih => simp only [cons_append, runs, ih]

theorem expand_quotes (literal : ∀ c ∈ v, isLiteral c = true) :
    expandImpl w e flags sh (ch '"' :: (v ++ [ch '"'])) s = (.ok [v], s) := by
  have fuel : (ch '"' :: (v ++ [ch '"'])).length = v.length + (([] : Bytes).length + 0 + 1) + 1 := by simp
  rw [expand_impl_eq, fuel, scan_step w e _ _ _ _ rfl, step_open w e flags sh _ _ _ rfl, pure_bind,
    finish_quoted w e flags sh _ v [] 0 _ [] s literal (fun c mem => nomatch mem) rfl ⟨rfl, rfl, not_mem_nil, rfl⟩ rfl]
  simp [start]

def quotedWord (v : Bytes) : Bytes := ch '"' :: (v ++ [ch '"'])

theorem unquoted_default {e' : Engine σ} (inside : e.expandImpl = expandImpl w e' flags sh) (valid : IsName name)
    (short : name.length < 256) (unset : s.env name = none) (literal : ∀ c ∈ v, isLiteral c = true) :
    expandImpl w e flags sh (ch '$' :: braced name (quotedWord v ++ [ch '}'])) s =
      if v.length + 2 < 2 ^ 31 then (allWords w s.system (runs (isSplitChar s.env) [] v), s) else (.error .nospace, s) := by
  have found : paramWordEnd .word 0 (quotedWord v ++ [ch '}']) = some (quotedWord v, []) := by
    obtain ⟨d, q, shape⟩ := exists_cons_of_ne_nil (by simp : v ++ [ch '"', ch '}'] ≠ [])
    have read := word_end_double v literal
    rw [shape] at read
    have whole : quotedWord v ++ [ch '}'] = ch '"' :: d :: q := by simp [quotedWord, ← shape]
    rw [whole, paramWordEnd]
    simp [read, ch, taking, quotedWord]
  have got : expandParam w e flags sh (ch '$' :: braced name (quotedWord v ++ [ch '}'])) [] false s =
      (expandParamWord e (quotedWord v) false >>= fun r => pure ([], fbufPushStr [] r false)) s := by
    rw [expand_param_default _ valid unset, if_neg (by omega), default_found found]
  have parameter := braced_parameter (quotedWord v ++ [ch '}']) valid
  split
  · rename_i fits
    have value : expandParamWord e (quotedWord v) false s = _ := param_word_value
      (by rw [inside]; exact expand_quotes literal) (.inr rfl) (by simpa [quotedWord] using fits) (by omega)
    have last : (quotedWord v).getLast? = some (ch '"') := getLast?_concat (l := ch '"' :: v)
    rw [last] at value
    dsimp only at value
    rw [bind_ok value] at got
    have whole := literal_whole literal
    by_cases splits : isSplitChar s.env (ch '"') = true
    · rw [splits, if_pos (by decide), push_live (fun zero => (mem_append.mp zero).elim whole (by decide))] at got
      rw [expand_alone w ⟨parameter, got⟩, runs_closed _ _ _ _ splits]
    · rw [eq_false_of_ne_true splits, if_neg (by decide), push_live whole] at got
      exact expand_alone w ⟨parameter, got⟩
  · rename_i large
    have failed : expandParamWord e (quotedWord v) false s = (.error .nospace, s) := by
      rw [expandParamWord, if_pos (by simp only [quotedWord, length_cons, length_append, length_nil]; omega)]
      rfl
    exact expand_failed w parameter (got.trans (bind_error failed))

theorem split_word_iff {env : Bytes → Option Bytes} {system : σ} (whole : 0 ∉ v) :
    (∀ w : World σ, allWords w system (runs (isSplitChar env) [] v) = .ok [v]) ↔
      v ≠ [] ∧ (∀ c ∈ v, isSplitChar env c = false) ∧ ∀ c ∈ v, isMeta c = false := by
  have alone : (∀ c ∈ v, isSplitChar env c = false) → v ≠ [] → runs (isSplitChar env) [] v = [v] := by
    intro unsplit filled
    have run := runs_field (isSplitChar env) v [] [] unsplit
    rwa [append_nil, nil_append, runs, if_neg filled] at run
  constructor
  · intro all
    have plainly := all (bareOf σ)
    rw [all_words_bare, Except.ok.injEq] at plainly
    have mem : v ∈ (runs (isSplitChar env) [] v).map cstr := by rw [plainly]; exact mem_singleton_self v
    obtain ⟨field, listed, same⟩ := mem_map.mp mem
    rw [cstr_whole fun zero => whole (runs_mem _ [] v field listed 0 zero)] at same
    subst same
    have listed' := listed
    rw [show runs (isSplitChar env) [] field = _ from runs_posix (cstr (ifsOf env)) field, mem_filter] at listed'
    have filled : field ≠ [] := by simpa using listed'.2
    have unsplit : ∀ c ∈ field, isSplitChar env c = false := delimited_ordinary _ _ _ field listed'.1
    refine ⟨filled, unsplit, fun c mem => ?_⟩
    have starved := all { bareOf σ with glob := fun _ _ => .found [] [] }
    rw [alone unsplit filled, allWords, fieldWords] at starved
    cases found : isMeta c with
    | false => rfl
    | true =>
      rw [any_eq_true.mpr ⟨c, mem, found⟩] at starved
      exact absurd (cons.inj (Except.ok.inj starved)).1.symm filled
  · rintro ⟨filled, unsplit, unpatterned⟩ w
    rw [alone unsplit filled]
    refine all_words_plain w system [v] ?_ ?_
    · simpa using whole
    · simpa [any_eq_false] using unpatterned

end

def quotedDefault (name v : Bytes) : Bytes := ch '"' :: ch '$' :: braced name (v ++ text "\x7d\"")

def plainDefault (name v : Bytes) : Bytes := ch '$' :: braced name (quotedWord v ++ [ch '}'])

-- Under quotes the word is expanded as if it stood outside of them; outside, its own
-- quotes do not keep it from being split and matched.
theorem default_words {σ : Type} (s : Shell σ) (name v : Bytes) (valid : IsName name) (unset : s.env name = none)
    (all : ∀ c ∈ v, isWordText c = true) :
    (name.length < 256 → Inert v → v.length < 2 ^ 31 → ∀ w : World σ, wordexpSh w (quotedDefault name v) s = (.ok [v], s)) ∧
    ((∀ w : World σ, wordexpSh w (plainDefault name v) s = (.ok [v], s)) ↔ name.length < 256 ∧ v ≠ [] ∧
      (∀ c ∈ v, isSplitChar s.env c = false) ∧ (∀ c ∈ v, isMeta c = false) ∧ v.length + 2 < 2 ^ 31) := by
  have literal := word_literal all
  refine ⟨fun short inert fits w => quoted_default rfl valid short unset all inert fits, ?_⟩
  by_cases short : name.length < 256
  · have run : ∀ w : World σ, wordexpSh w (plainDefault name v) s = _ :=
      fun w => unquoted_default rfl valid short unset literal
    by_cases fits : v.length + 2 < 2 ^ 31
    · have words : ∀ w : World σ, wordexpSh w (plainDefault name v) s = (.ok [v], s) ↔
          allWords w s.system (runs (isSplitChar s.env) [] v) = .ok [v] := by
        intro w
        rw [run w, if_pos fits, Prod.mk.injEq, and_iff_left rfl]
      rw [forall_congr' words, split_word_iff (literal_whole literal)]
      exact ⟨fun ⟨filled, unsplit, unpatterned⟩ => ⟨short, filled, unsplit, unpatterned, fits⟩,
        fun ⟨_, filled, unsplit, unpatterned, _⟩ => ⟨filled, unsplit, unpatterned⟩⟩
    · refine iff_of_false (fun each => ?_) fun kept => fits kept.2.2.2.2
      have failed := run (bareOf σ)
      rw [each, if_neg fits] at failed
      cases failed
  · refine iff_of_false (fun each => ?_) fun kept => short kept.1
    have failed : wordexpSh (bareOf σ) (plainDefault name v) s = (.error .syntaxError, s) :=
      expand_failed _ (braced_parameter _ valid)
        (by rw [expand_param_default _ valid unset, if_pos (Nat.le_of_not_lt short)])
    rw [each] at failed
    cases failed

theorem default_words_dash :
    wordexpSh bare (text "\"$\x7bx:-a-b\x7d\"") (holding (text " ") []) = (.ok [text "a-b"], holding (text " ") []) ∧
    wordexpSh bare (text "$\x7bx:-\"a-b\"\x7d") (holding (text " ") []) = (.ok [text "a-b"], holding (text " ") []) := by
  obtain ⟨quoted, unquoted⟩ := default_words (holding (text " ") []) (text "x") (text "a-b") ⟨by decide, by decide⟩ rfl (by decide)
  refine ⟨quoted (by decide) ⟨by decide, by decide, by decide⟩ (by decide) bare, ?_⟩
  exact unquoted.mpr ⟨by decide, by decide, by decide, by decide, by decide⟩ bare

-- A directory in which every pattern names the one file "f".
def oneFile : World Unit := { bare with glob := fun _ _ => .found (text "f") [] }

theorem default_words_reread :
    (wordexpSh bare (text "\"$\x7bx:-a b\x7d\"") (holding (text ":") [])).1 = .ok [text "a:b"] ∧
    (wordexpSh bare (text "\"$\x7bx:-it's\x7d\"") (holding (text " ") [])).1 = .error .syntaxError ∧
    (wordexpSh bare (text "\"$\x7bx:-a|b\x7d\"") (holding (text " ") [])).1 = .error .badchar ∧
    (wordexpSh oneFile (text "\"$\x7bx:-*\x7d\"") (holding (text " ") [])).1 = .ok [text "f"] ∧
    (wordexpSh bare (text "\"$\x7bx:-#a\x7d\"") (holding (text " ") [])).1 = .ok [[]] ∧
    (wordexpSh bare (plainDefault (text "x") (text "a b")) (holding (text " ") [])).1 = .ok [text "a", text "b"] ∧
    (wordexpSh oneFile (plainDefault (text "x") (text "*")) (holding (text " ") [])).1 = .ok [text "f"] ∧
    (wordexpSh bare (plainDefault (text "x") []) (holding (text " ") [])).1 = .ok [] := by
  have split : ∀ (w : World Unit) (v : Bytes), (∀ c ∈ v, isLiteral c = true) → v.length + 2 < 2 ^ 31 →
      (wordexpSh w (plainDefault (text "x") v) (holding (text " ") [])).1 =
        allWords w () (runs (isSplitChar (holding (text " ") []).env) [] v) := fun w v literal fits =>
    congrArg Prod.fst ((unquoted_default rfl ⟨by decide, by decide⟩ (by decide) rfl literal).trans (if_pos fits))
  exact ⟨rfl, rfl, rfl, rfl, rfl, (split bare (text "a b") (by decide) (by decide)).trans (by decide),
    (split oneFile (text "*") (by decide) (by decide)).trans (by decide), split bare [] (by decide) (by decide)⟩

end Spicule.Wordexp
