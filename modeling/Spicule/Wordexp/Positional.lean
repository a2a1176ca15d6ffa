import Spicule.Wordexp.Split

namespace Spicule.Wordexp
open List

def isLiteral (c : UInt8) : Bool := c ≠ 0 && c ≠ ch '"' && c ≠ ch '\\' && c ≠ ch '$' && c ≠ 96

def isInner (c : UInt8) : Bool := !isIfs c && c ≠ ch '\'' && !special.contains c

def isOrdinary (c : UInt8) : Bool := isLiteral c && isInner c && c ≠ ch '#' && c ≠ ch '~' && !isMeta c

def isSelf : Quote → UInt8 → Bool
  | .none, c => isOrdinary c
  | .single, c => c ≠ 0 && c ≠ ch '\''
  | .double, c => isLiteral c

section
variable {σ : Type} (w : World σ) (e : Engine σ) {flags : Flags} {sh : Bool} {words : Bytes}
theorem scan_step (fuel : Nat) (st : Scan) (c : UInt8) (rest : Bytes) (here : st.p = c :: rest) :
    scan w e flags sh words (fuel + 1) st = step w e flags sh words st c rest >>= scan w e flags sh words fuel := by
  unfold scan
  rw [here]

theorem step_inner {st : Scan} {c : UInt8} {rest : Bytes} (outside : st.q = .none)
    (literal : isLiteral c = true) (inner : isInner c = true) (inWord : c = ch '#' → opensWord words (c :: rest) = false)
    (started : c = ch '~' → st.active = true) : step w e flags sh words st c rest =
      pure { st with field := st.field ++ [(c, false)], active := true, p := rest } := by
  simp only [isLiteral, isInner, Bool.and_eq_true, decide_eq_true_eq, Bool.not_eq_true'] at literal inner
  obtain ⟨⟨⟨⟨-, double⟩, back⟩, dollar⟩, grave⟩ := literal
  obtain ⟨⟨blank, single⟩, operator⟩ := inner
  have operator : c ∉ special := by simpa using operator
  have word : (decide (c = ch '#') && opensWord words (c :: rest)) = false := by
    by_cases hash : c = ch '#'
    · rw [inWord hash, Bool.and_false]
    · rw [decide_eq_false hash, Bool.false_and]
  have tilde : (decide (c = ch '~') && !st.active) = false := by
    by_cases same : c = ch '~'
    · rw [started same]
      simp
    · rw [decide_eq_false same, Bool.false_and]
  simp [step, outside, stepPlain, word, tilde, double, back, dollar, grave, blank, single, operator]

variable (flags) (sh) (words) in
theorem step_self {st : Scan} {c : UInt8} (rest : Bytes) (itself : isSelf st.q c = true) :
    step w e flags sh words st c rest =
      pure { st with field := st.field ++ [(c, decide (st.q ≠ .none))], active := st.active || decide (st.q = .none), p := rest } := by
  unfold step
  cases quote : st.q with
  | none =>
    simp only [quote, isSelf, isOrdinary, Bool.and_eq_true, decide_eq_true_eq] at itself
    obtain ⟨⟨⟨⟨literal, inner⟩, hash⟩, tilde⟩, -⟩ := itself
    have run : step w e flags sh words st c rest = _ :=
      step_inner w e quote literal inner (absurd · hash) (absurd · tilde)
    simpa [step, quote] using run
  | single =>
    rw [quote] at itself
    simp only [isSelf, Bool.and_eq_true, decide_eq_true_eq] at itself
    simp [itself.2]
  | double =>
    rw [quote] at itself
    simp only [isSelf, isLiteral, Bool.and_eq_true, decide_eq_true_eq] at itself
    obtain ⟨⟨⟨⟨-, double⟩, back⟩, dollar⟩, grave⟩ := itself
    simp [stepDouble, double, back, dollar, grave, quote]

theorem scan_self {t rest : Bytes} (fuel : Nat) (st : Scan) (itself : ∀ c ∈ t, isSelf st.q c = true)
    (here : st.p = t ++ rest) : scan w e flags sh words (t.length + fuel) st = scan w e flags sh words fuel
      { st with field := st.field ++ t.map (·, decide (st.q ≠ .none)), active := st.active || (decide (st.q = .none) && t ≠ []),
                p := rest } := by
  induction t generalizing st with
  | nil =>
    obtain ⟨fields, p, q, dqPrev, dqNullAt, dqMark⟩ := st
    cases here
    simp
  | cons c t ih =>
    have first := step_self w e flags sh words (t ++ rest) (itself c mem_cons_self)
    have later := ih { st with field := st.field ++ [(c, decide (st.q ≠ .none))],
                               active := st.active || decide (st.q = .none), p := t ++ rest }
      (forall_mem_cons.mp itself).2 rfl
    rw [length_cons, Nat.add_right_comm, scan_step w e _ st c (t ++ rest) here, first, pure_bind, later]
    cases st.q <;> simp

theorem emit_unpatterned (b : Fbuf) (out : List Bytes) (s : Shell σ) (unpatterned : hasMeta b = false) (whole : 0 ∉ plain b) :
    emitField w b out s = (.ok (out ++ [plain b]), s) := by
  rw [emitField, unpatterned, if_neg Bool.false_ne_true, cstr_whole whole]
  rfl

theorem flush_unpatterned {b : Fbuf} (out : List Bytes) (s : Shell σ) (unpatterned : hasMeta b = false)
    (whole : 0 ∉ plain b) : flush w ⟨b, true, out⟩ s = (.ok ⟨[], false, out ++ [plain b]⟩, s) :=
  bind_ok (emit_unpatterned w b out s unpatterned whole)

end

def quoted (v : Bytes) : Fbuf := v.map (·, true)

theorem plain_append (a b : Fbuf) : plain (a ++ b) = plain a ++ plain b := map_append

theorem plain_quoted (v : Bytes) : plain (quoted v) = v := by
  rw [plain, quoted, map_map]
  exact map_id v

theorem has_meta_append (a b : Fbuf) : hasMeta (a ++ b) = (hasMeta a || hasMeta b) := any_append

theorem has_meta_quoted (v : Bytes) : hasMeta (quoted v) = false := by simp [hasMeta, quoted]

variable {v : Bytes}
theorem push_str {b : Fbuf} (whole : 0 ∉ v) : fbufPushStr b v true = b ++ quoted v := by
  rw [fbufPushStr, cstr_whole whole, quoted]

section
variable {σ : Type} (w : World σ)
def behind : Bytes → List Bytes → Bytes → List Bytes
  | text, [], tail => [text ++ tail]
  | text, p :: more, tail => text :: behind p more tail

def atFields (text : Bytes) (params : List Bytes) (tail : Bytes) : List Bytes :=
  match params with
  | [] => if text ++ tail = [] then [] else [text ++ tail]
  | p :: more => behind (text ++ p) more tail

-- XCU 2.5.2: the first byte of IFS, a space if it is unset.
def starSeparator (env : Bytes → Option Bytes) : Bytes := (cstr ((env (text "IFS")).getD (text " "))).take 1

structure Building (f : Fields) (text : Bytes) : Prop where
  active : f.active = true
  unpatterned : hasMeta f.field = false
  whole : 0 ∉ text
  bytes : plain f.field = text

theorem Building.quote {f : Fields} {text : Bytes} (building : Building f text) (string : 0 ∉ v) :
    Building { f with field := f.field ++ quoted v } (text ++ v) := by
  obtain ⟨active, unpatterned, whole, bytes⟩ := building
  refine ⟨active, ?_, ?_, ?_⟩
  · rw [has_meta_append, unpatterned, has_meta_quoted]
    rfl
  · exact fun mem => (mem_append.mp mem).elim whole string
  · rw [plain_append, bytes, plain_quoted]

variable {params : List Bytes}
theorem push_each_quoted (text : Bytes) (f : Fields) (s : Shell σ) (building : Building f text)
    (strings : ∀ p ∈ params, 0 ∉ p) : ∃ g last, pushEach w true false params f s = (.ok g, s) ∧ Building g last ∧
      ∀ tail, g.out ++ [last ++ tail] = f.out ++ behind text params tail := by
  induction params generalizing f text with
  | nil => exact ⟨f, text, rfl, building, fun tail => rfl⟩
  | cons p more ih =>
    obtain ⟨field, active, out⟩ := f
    obtain ⟨rfl, unpatterned, whole, rfl⟩ := building
    have string := strings p mem_cons_self
    have next : Building ⟨quoted p, true, out ++ [plain field]⟩ p := ⟨rfl, has_meta_quoted p, string, plain_quoted p⟩
    obtain ⟨g, last, ran, built, fields⟩ := ih p _ next (forall_mem_cons.mp strings).2
    refine ⟨g, last, ?_, built, fun tail => ?_⟩
    · rw [pushEach, if_neg Bool.false_ne_true, bind_ok (flush_unpatterned w out s unpatterned whole)]
      dsimp only
      rw [push_str string, Bool.or_true, Bool.true_or]
      exact ran
    · rw [fields tail, behind, append_assoc, singleton_append]

theorem push_params_at {text : Bytes} {f : Fields} {s : Shell σ} (building : Building f text) (none_out : f.out = [])
    (strings : ∀ p ∈ s.params, 0 ∉ p) : ∃ g last, pushParams w false true f s = (.ok g, s) ∧ Building g last ∧
      (s.params = [] → g = f ∧ last = text) ∧
      ∀ tail, text ++ tail ≠ [] ∨ s.params ≠ [] → g.out ++ [last ++ tail] = atFields text s.params tail := by
  rw [pushParams, Bool.false_and, get_bind, if_neg Bool.false_ne_true]
  cases list : s.params with
  | nil =>
    refine ⟨f, text, rfl, building, fun _ => ⟨rfl, rfl⟩, fun tail filled => ?_⟩
    rw [none_out, atFields, if_neg (filled.resolve_right fun other => other rfl), nil_append]
  | cons p more =>
    rw [list] at strings
    obtain ⟨string, strings⟩ := forall_mem_cons.mp strings
    obtain ⟨field, active, out⟩ := f
    obtain rfl := building.active
    obtain ⟨g, last, ran, built, fields⟩ := push_each_quoted w _ _ s (building.quote string) strings
    refine ⟨g, last, ?_, built, (fun none => nomatch none), fun tail _ => ?_⟩
    · rw [pushEach, if_pos rfl, pure_bind]
      dsimp only
      rw [push_str string, Bool.true_or, Bool.true_or]
      exact ran
    · rw [fields tail, none_out]
      rfl

theorem intercalate_cons (sep p q : Bytes) (more : List Bytes) :
    sep.intercalate (p :: q :: more) = p ++ (sep ++ sep.intercalate (q :: more)) := by
  simp [List.intercalate]

theorem joined_whole (strings : ∀ p ∈ params, 0 ∉ p) : 0 ∉ [ch ' '].intercalate params := by
  induction params with
  | nil => exact not_mem_nil
  | cons p more ih =>
    have here := strings p mem_cons_self
    cases more with
    | nil => simpa [List.intercalate] using here
    | cons q more =>
      have later := ih (forall_mem_cons.mp strings).2
      rw [intercalate_cons, mem_append, mem_append, not_or, not_or]
      exact ⟨here, by decide, later⟩

theorem join_params_quoted (b : Fbuf) (strings : ∀ p ∈ params, 0 ∉ p) :
    joinParams b params = b ++ quoted ([ch ' '].intercalate params) := by
  induction params generalizing b with
  | nil => simp [joinParams, quoted, List.intercalate]
  | cons p more ih =>
    have string := strings p mem_cons_self
    cases more with
    | nil => simp [joinParams, push_str string, List.intercalate]
    | cons q more =>
      rw [joinParams, ih _ (forall_mem_cons.mp strings).2, push_str string]
      · simp [quoted]
      · exact fun none => nomatch none

end

section
variable {σ : Type} (w : World σ) (e : Engine σ) (flags : Flags) (sh : Bool) (words : Bytes)
def finish (st : Scan) : Run σ (List Bytes) := do
  if st.q = .none then return (← flush w st.toFields).out else throw .syntaxError

theorem expand_impl_eq : expandImpl w e flags sh words = scan w e flags sh words words.length (start words) >>= finish w := rfl

def spellings (k : UInt8) : List Bytes := [[k], [ch '\x7b', k, ch '\x7d']]

def isList (k : UInt8) : Prop := k = ch '@' ∨ k = ch '*'

variable {name : Bytes} {k : UInt8}
theorem spelled (list : isList k) (spelling : name ∈ spellings k) (rest : Bytes) :
    atOrStar (name ++ rest) = some (k, rest) ∧ (name ++ rest).head? ≠ some (ch '\'') ∧
      (name ++ rest).head? ≠ some (ch '(') ∧ (name ++ rest).take 2 ≠ text "((" := by
  simp only [spellings, mem_cons, not_mem_nil, or_false] at spelling
  rcases list with rfl | rfl <;> rcases spelling with rfl | rfl <;>
    exact ⟨rfl, by simp [ch], by simp [ch], fun both => absurd (cons.inj both).1 (by decide)⟩

theorem step_quoted_list (st : Scan) (list : isList k) (spelling : name ∈ spellings k)
    (rest : Bytes) (inside : st.q = .double) (s : Shell σ) : step w e flags true words st (ch '$') (name ++ rest) s =
      (pushParams w (k = ch '*') true st.toFields >>= fun fields =>
        pure { st with toFields := fields, dqNullAt := st.dqNullAt || (k = ch '@' && s.params.isEmpty), p := rest }) s := by
  obtain ⟨read, -, command, arith⟩ := spelled list spelling rest
  obtain ⟨fields, p, q, dqPrev, dqNullAt, dqMark⟩ := st
  cases inside
  change stepDouble w e flags true _ (ch '$') (name ++ rest) s = _
  unfold stepDouble
  rw [if_neg (by decide), if_neg (by simp [ch]), if_neg (by simpa using arith),
    if_neg (by rw [decide_eq_false command]; decide), if_pos rfl, read]
  rfl

structure Around (lead pre post trail : Bytes) : Prop where
  lead : ∀ c ∈ lead, isOrdinary c = true
  pre : ∀ c ∈ pre, isLiteral c = true
  post : ∀ c ∈ post, isLiteral c = true
  trail : ∀ c ∈ trail, isOrdinary c = true

theorem around_nothing : Around [] [] [] [] := by
  constructor <;> exact fun c mem => absurd mem not_mem_nil

theorem literal_whole (all : ∀ c ∈ v, isLiteral c = true) : 0 ∉ v := fun mem => absurd (all 0 mem) (by decide)

theorem ordinary_whole (all : ∀ c ∈ v, isOrdinary c = true) : 0 ∉ v ∧ hasMeta (live v) = false := by
  refine ⟨fun mem => absurd (all 0 mem) (by decide), ?_⟩
  rw [has_meta_live, any_eq_false]
  intro c mem
  have itself := all c mem
  simp only [isOrdinary, Bool.and_eq_true, Bool.not_eq_true'] at itself
  rw [itself.2]
  exact Bool.false_ne_true

theorem Building.more {f : Fields} {text : Bytes} (building : Building f text) (post trail : Bytes)
    (literal : ∀ c ∈ post, isLiteral c = true) (ordinary : ∀ c ∈ trail, isOrdinary c = true) :
    Building { f with field := f.field ++ quoted post ++ live trail } (text ++ post ++ trail) := by
  obtain ⟨active, unpatterned, whole, bytes⟩ := building.quote (literal_whole literal)
  obtain ⟨string, plainly⟩ := ordinary_whole ordinary
  refine ⟨active, ?_, ?_, ?_⟩
  · rw [has_meta_append, unpatterned, plainly]
    rfl
  · exact fun mem => (mem_append.mp mem).elim whole string
  · rw [plain_append, bytes, plain_live]

theorem finish_quoted (post trail : Bytes) (extra : Nat) (st : Scan) (last : Bytes) (s : Shell σ)
    (literal : ∀ c ∈ post, isLiteral c = true) (ordinary : ∀ c ∈ trail, isOrdinary c = true) (inside : st.q = .double)
    (building : Building st.toFields last) (here : st.p = post ++ ch '"' :: trail) :
    (scan w e flags sh words (post.length + (trail.length + extra + 1)) st >>= finish w) s =
      (.ok (if st.dqNullAt && !st.dqPrev && st.field.length + post.length = st.dqMark && trail.isEmpty then st.out
        else st.out ++ [last ++ post ++ trail]), s) := by
  have built := building.more post trail literal ordinary
  have active := building.active
  rw [scan_self w e _ st (by rw [inside]; exact literal) here,
    scan_step w e _ _ (ch '"') trail rfl]
  simp only [step, inside, stepDouble, if_true, pure_bind]
  rw [scan_self w e extra, scan_done w _ _ rfl, pure_bind]
  · simp only [finish, if_true, active, length_append, length_map]
    generalize (st.dqNullAt && !st.dqPrev && decide (st.field.length + post.length = st.dqMark)) = undone
    by_cases gone : (undone && trail.isEmpty) = true
    · obtain ⟨rfl, empty⟩ := Bool.and_eq_true_iff.mp gone
      obtain rfl := List.isEmpty_iff.mp empty
      rfl
    · have kept : ((true || decide (Quote.double = Quote.none) && decide (post ≠ [])) && !undone ||
          decide True && decide (trail ≠ [])) = true := by
        cases undone <;> cases trail <;> simp_all
      rw [kept, if_neg gone, ← built.bytes]
      exact bind_ok (flush_unpatterned w st.out s built.unpatterned (built.bytes ▸ built.whole))
  · exact ordinary
  · exact (append_nil trail).symm

def listWord (lead pre name post trail : Bytes) : Bytes :=
  lead ++ ch '"' :: (pre ++ ch '$' :: (name ++ (post ++ ch '"' :: trail)))

variable {lead pre post trail : Bytes}
theorem scan_listed (around : Around lead pre post trail) (list : isList k)
    (spelling : name ∈ spellings k) (g : Fields) (last : Bytes) (extra : Nat) (st : Scan) (s : Shell σ) (inside : st.q = .double)
    (here : st.p = ch '$' :: (name ++ (post ++ ch '"' :: trail)))
    (pushed : pushParams w (k = ch '*') true st.toFields s = (.ok g, s)) (building : Building g last) :
    (scan w e flags true words (post.length + (trail.length + extra + 1) + 1) st >>= finish w) s =
      (.ok (if (st.dqNullAt || (k = ch '@' && s.params.isEmpty)) && !st.dqPrev && g.field.length + post.length = st.dqMark &&
        trail.isEmpty then g.out else g.out ++ [last ++ post ++ trail]), s) := by
  rw [scan_step w e _ st _ _ here, bind_assoc,
    bind_congr_at (step_quoted_list w e flags words st list spelling (post ++ ch '"' :: trail) inside s), bind_assoc,
    bind_ok pushed, pure_bind]
  exact finish_quoted w e flags true words post trail extra _ last s around.post around.trail inside building rfl

theorem step_open (st : Scan) (rest : Bytes) (outside : st.q = .none) : step w e flags sh words st (ch '"') rest =
    pure { st with q := .double, dqPrev := st.active, dqMark := st.field.length, dqNullAt := false, active := true,
                   p := rest } := by
  unfold step
  rw [outside]
  dsimp only
  unfold stepPlain
  rw [if_neg (by simp [ch]), if_neg (by decide), if_neg (by decide), if_pos rfl]

section
variable (around : Around lead pre post trail)
include around

theorem expand_listed (list : isList k) (spelling : name ∈ spellings k) {g : Fields} {last : Bytes} (s : Shell σ)
    (pushed : pushParams w (k = ch '*') true ⟨live lead ++ quoted pre, true, []⟩ s = (.ok g, s)) (building : Building g last) :
    expandImpl w e flags true (listWord lead pre name post trail) s =
      (.ok (if (k = ch '@' && s.params.isEmpty) && lead.isEmpty && g.field.length + post.length = lead.length && trail.isEmpty
        then g.out else g.out ++ [last ++ post ++ trail]), s) := by
  have fuel : (listWord lead pre name post trail).length =
      lead.length + ((pre.length + ((post.length + (trail.length + name.length + 1)) + 1)) + 1) := by
    simp only [listWord, length_append, length_cons]
    omega
  rw [expand_impl_eq, fuel, scan_self w e _
      (start (listWord lead pre name post trail)) around.lead rfl,
    scan_step w e _ _ (ch '"') (pre ++ ch '$' :: (name ++ (post ++ ch '"' :: trail))) rfl, step_open, pure_bind,
    scan_self w e]
  · refine (scan_listed w e flags _ around list spelling g last name.length _ s rfl rfl ?_ building).trans ?_
    · exact pushed
    · simp [start]
  · exact around.pre
  · rfl
  · rfl

theorem opened_building : Building ⟨live lead ++ quoted pre, true, []⟩ (lead ++ pre) := by
  obtain ⟨string, plainly⟩ := ordinary_whole around.lead
  have opened : Building ⟨live lead, true, []⟩ lead := ⟨rfl, plainly, string, plain_live lead⟩
  exact opened.quote (literal_whole around.pre)

theorem expand_quoted_at (spelling : name ∈ spellings (ch '@')) (s : Shell σ)
    (strings : ∀ p ∈ s.params, 0 ∉ p) : expandImpl w e flags true (listWord lead pre name post trail) s =
      (.ok (atFields (lead ++ pre) s.params (post ++ trail)), s) := by
  obtain ⟨g, last, ran, built, none, fields⟩ := push_params_at w (opened_building around) rfl strings
  rw [expand_listed w e flags around (.inl rfl) spelling s ran built, append_assoc last]
  by_cases nothing : s.params = [] ∧ lead ++ pre ++ (post ++ trail) = []
  · obtain ⟨empty, blank⟩ := nothing
    obtain ⟨rfl, rfl⟩ := none empty
    simp only [append_eq_nil_iff] at blank
    obtain ⟨⟨rfl, rfl⟩, rfl, rfl⟩ := blank
    rw [empty]
    rfl
  · have filled : lead ++ pre ++ (post ++ trail) ≠ [] ∨ s.params ≠ [] := by
      by_cases empty : s.params = []
      · exact .inl fun blank => nothing ⟨empty, blank⟩
      · exact .inr empty
    rw [if_neg, fields _ filled]
    simp only [Bool.and_eq_true, List.isEmpty_iff, decide_eq_true_eq]
    rintro ⟨⟨⟨⟨-, empty⟩, rfl⟩, size⟩, rfl⟩
    obtain ⟨rfl, rfl⟩ := none empty
    simp only [live, quoted, map_nil, nil_append, length_map, length_nil, Nat.add_eq_zero_iff,
      length_eq_zero_iff] at size
    exact nothing ⟨empty, by simp [size]⟩

theorem expand_quoted_star (spelling : name ∈ spellings (ch '*'))
    (s : Shell σ) (strings : ∀ p ∈ s.params, 0 ∉ p) : expandImpl w e flags true (listWord lead pre name post trail) s =
      (.ok [lead ++ pre ++ [ch ' '].intercalate s.params ++ post ++ trail], s) := by
  have built : Building ⟨joinParams (live lead ++ quoted pre) s.params, true, []⟩
      (lead ++ pre ++ [ch ' '].intercalate s.params) := by
    rw [join_params_quoted _ strings]
    exact (opened_building around).quote (joined_whole strings)
  rw [expand_listed w e flags around (.inr rfl) spelling s rfl built]
  rfl

end
end

section
variable {σ : Type} (w : World σ) (e : Engine σ) (flags : Flags)
theorem live_grows (p : Bytes) : (false || false || decide ((live p).length ≠ ([] : Fbuf).length)) = decide (p ≠ []) := by
  cases p <;> simp [live]

theorem push_each_live {params : List Bytes} (buf : Bytes) (out : List Bytes) (s : Shell σ) (strings : ∀ p ∈ params, 0 ∉ p) :
    (pushEach w false false params ⟨live buf, buf ≠ [], out⟩ >>= flush w) s =
      ((allWords w s.system ((buf :: params).filter (· ≠ []))).map fun words => ⟨[], false, out ++ words⟩, s) := by
  have front : ∀ fields : List Bytes, (buf :: fields).filter (· ≠ []) =
      (if buf = [] then [] else [buf]) ++ fields.filter (· ≠ []) := by
    intro fields
    cases buf <;> rfl
  induction params generalizing buf out with
  | nil =>
    rw [front, filter_nil, append_nil]
    exact flush_live w buf out s
  | cons p more ih =>
    have string := strings p mem_cons_self
    have flushed := flush_live w buf out s
    rw [pushEach, if_neg Bool.false_ne_true, bind_assoc, front, all_words_append]
    cases emitted : allWords w s.system (if buf = [] then [] else [buf]) with
    | error code =>
      rw [emitted] at flushed
      exact bind_error flushed
    | ok words =>
      rw [emitted] at flushed
      rw [bind_ok flushed]
      dsimp only
      rw [push_live string, live_grows]
      refine (ih p (out ++ words) (forall_mem_cons.mp strings).2 ?_).trans ?_
      · intro fields
        cases p <;> rfl
      · cases allWords w s.system ((p :: more).filter (· ≠ [])) with
        | error code => rfl
        | ok rest => simp only [Except.bind, Except.map, append_assoc]

theorem step_list {k : UInt8} (list : isList k) {name : Bytes} (spelling : name ∈ spellings k) (words : Bytes) :
    step w e flags true words (start (ch '$' :: name)) (ch '$') name =
      pushParams w (k = ch '*') false ⟨[], false, []⟩ >>= fun fields => pure (ended fields) := by
  have spelled := spelled list spelling []
  rw [append_nil] at spelled
  obtain ⟨read, unquoted, command, arith⟩ := spelled
  change stepPlain w e flags true words (start _) (ch '$') name = _
  unfold stepPlain
  rw [if_neg (by simp [ch]), if_neg (by decide), if_neg (by decide), if_neg (by decide), if_neg (by decide),
    if_neg (by simpa using unquoted), if_neg (by simpa using arith), if_neg (by rw [decide_eq_false command]; decide),
    if_pos rfl, read]
  rfl

theorem push_params_live (star : Bool) (s : Shell σ) (strings : ∀ p ∈ s.params, 0 ∉ p) :
    (pushParams w star false ⟨[], false, []⟩ >>= flush w) s =
      ((allWords w s.system (s.params.filter (· ≠ []))).map fun words => ⟨[], false, words⟩, s) := by
  have opened : pushParams w star false ⟨[], false, []⟩ s = pushEach w false true s.params ⟨[], false, []⟩ s := by
    rw [pushParams, Bool.and_false, get_bind, if_neg Bool.false_ne_true]
  rw [bind_congr_at opened]
  cases list : s.params with
  | nil => rfl
  | cons p more =>
    rw [list] at strings
    rw [pushEach, if_pos rfl, pure_bind]
    dsimp only
    rw [push_live (strings p mem_cons_self), live_grows, push_each_live w p [] s (forall_mem_cons.mp strings).2]
    simp only [nil_append]

theorem expand_list {k : UInt8} (list : isList k) {name : Bytes} (spelling : name ∈ spellings k) (s : Shell σ)
    (strings : ∀ p ∈ s.params, 0 ∉ p) :
    expandImpl w e flags true (ch '$' :: name) s = (allWords w s.system (s.params.filter (· ≠ [])), s) := by
  have pushed := push_params_live w (k = ch '*') s strings
  unfold expandImpl
  rw [scan_first, step_list w e flags list spelling, bind_assoc, bind_assoc]
  simp only [pure_bind, scan_done w _ (ended _) rfl]
  change (pushParams w (k = ch '*') false ⟨[], false, []⟩ >>= fun fields => flush w fields >>= fun last => pure last.out) s = _
  rw [← bind_assoc]
  cases emitted : allWords w s.system (s.params.filter (· ≠ [])) with
  | error code =>
    rw [emitted] at pushed
    exact bind_error pushed
  | ok words =>
    rw [emitted] at pushed
    exact bind_ok pushed

end

section
variable (ifs : Bytes)
theorem delimited_ordinary (fuel : Nat) (v field : Bytes) (mem : field ∈ delimited ifs fuel v) :
    ∀ c ∈ field, ifs.contains c = false := by
  induction fuel generalizing v with
  | zero => exact absurd mem not_mem_nil
  | succ fuel ih =>
    rw [delimited] at mem
    split at mem
    · exact absurd mem not_mem_nil
    · rcases mem_cons.mp mem with rfl | later
      · exact ordinary_field ifs v
      · exact ih _ later

theorem posix_unsplit (v : Bytes) (ordinary : ∀ c ∈ v, ifs.contains c = false) : posixFields ifs v = [v].filter (· ≠ []) := by
  cases v with
  | nil => rfl
  | cons c v =>
    have kept : (c :: v).dropWhile (isWhite ifs) = c :: v := by
      rw [dropWhile_cons, isWhite, ordinary c mem_cons_self]
      rfl
    have taken : (c :: v).takeWhile (!ifs.contains ·) = c :: v :=
      takeWhile_eq_self_iff.mpr fun d mem => by rw [ordinary d mem]; rfl
    have left : (c :: v).dropWhile (!ifs.contains ·) = [] :=
      dropWhile_eq_nil_iff.mpr fun d mem => by rw [ordinary d mem]; rfl
    rw [posixFields, kept, length_cons, delimited, if_neg (cons_ne_nil c v), taken, left]
    cases v.length <;> rfl

theorem posix_all_unsplit (params : List Bytes) (ordinary : ∀ p ∈ params, ∀ c ∈ p, ifs.contains c = false) :
    params.flatMap (posixFields ifs) = params.filter (· ≠ []) := by
  induction params with
  | nil => rfl
  | cons p more ih =>
    rw [flatMap_cons, posix_unsplit ifs p (ordinary p mem_cons_self),
      ih (forall_mem_cons.mp ordinary).2, ← filter_append]
    rfl

theorem intercalate_space {params : List Bytes} {sep : Bytes} (short : sep.length ≤ 1)
    (same : [ch ' '].intercalate params = sep.intercalate params) : params.length ≤ 1 ∨ sep = [ch ' '] := by
  have shorter : ∀ ps : List Bytes, (([] : Bytes).intercalate ps).length ≤ ([ch ' '].intercalate ps).length := by
    intro ps
    induction ps with
    | nil => exact Nat.le_refl _
    | cons p more ih =>
      cases more with
      | nil => simp [List.intercalate]
      | cons q more =>
        rw [intercalate_cons, intercalate_cons]
        simp only [length_append, length_nil, length_singleton]
        omega
  match params with
  | [] => exact .inl (Nat.zero_le 1)
  | [p] => exact .inl (Nat.le_refl 1)
  | p :: q :: more =>
    rw [intercalate_cons, intercalate_cons, append_cancel_left_eq] at same
    match sep with
    | [] =>
      have lengths := congrArg List.length same
      have bound := shorter (q :: more)
      simp only [length_append, length_singleton, length_nil] at lengths
      omega
    | [c] => exact .inr (congrArg (fun d => [d]) (List.cons.inj same).1.symm)
    | c :: d :: rest => exact absurd short (by simp)

end

def bareOf (σ : Type) : World σ :=
  { longBit := 64, glob := fun _ _ => .unmatched, fnmatch := fun _ _ => false, getpwnam := fun _ _ => none,
    shCmdsub := fun _ s => (none, s) }

theorem all_words_bare {σ : Type} (system : σ) (fields : List Bytes) :
    allWords (bareOf σ) system fields = .ok (fields.map cstr) := by
  induction fields with
  | nil => rfl
  | cons field fields ih =>
    have one : fieldWords (bareOf σ) system field = .ok [cstr field] := by
      unfold fieldWords
      split <;> rfl
    rw [allWords, one, ih]
    rfl

-- A quoted list is one field for each parameter; the other's separator is always a space,
-- and outside quotes no parameter is split.
theorem positional_lists {σ : Type} (s : Shell σ) (strings : ∀ p ∈ s.params, 0 ∉ p) :
    (∀ (w : World σ) (lead pre post trail : Bytes), Around lead pre post trail → ∀ name ∈ spellings (ch '@'),
      wordexpSh w (listWord lead pre name post trail) s = (.ok (atFields (lead ++ pre) s.params (post ++ trail)), s)) ∧
    ((∀ (w : World σ) (lead pre post trail : Bytes), Around lead pre post trail → ∀ name ∈ spellings (ch '*'),
      wordexpSh w (listWord lead pre name post trail) s =
        (.ok [lead ++ pre ++ (starSeparator s.env).intercalate s.params ++ post ++ trail], s)) ↔
      s.params.length ≤ 1 ∨ starSeparator s.env = [ch ' ']) ∧
    ((∀ (w : World σ) (k : UInt8), isList k → ∀ name ∈ spellings k, wordexpSh w (ch '$' :: name) s =
        (allWords w s.system (s.params.flatMap (posixFields (cstr (ifsOf s.env)))), s)) ↔
      ∀ p ∈ s.params, ∀ c ∈ p, isSplitChar s.env c = false) := by
  refine ⟨fun w lead pre post trail around name spelling => ?_, ⟨fun joins => ?_, fun single => ?_⟩, fun splits => ?_,
    fun unsplit => ?_⟩
  · exact expand_quoted_at w _ _ around spelling s strings
  · have alone := joins (bareOf σ) [] [] [] [] around_nothing [ch '*'] mem_cons_self
    have run : wordexpSh (bareOf σ) (listWord [] [] [ch '*'] [] []) s = _ :=
      expand_quoted_star (bareOf σ) _ _ around_nothing mem_cons_self s strings
    have same := (List.cons.inj (Except.ok.inj (congrArg Prod.fst (run.symm.trans alone)))).1
    simp only [nil_append, append_nil] at same
    exact intercalate_space (length_take_le 1 _) same
  · intro w lead pre post trail around name spelling
    refine (expand_quoted_star w _ _ around spelling s strings).trans ?_
    rcases single with few | space
    · match s.params, few with
      | [], _ => rfl
      | [p], _ => rfl
    · rw [space]
  · intro p listed c inside
    have alone := splits (bareOf σ) (ch '@') (.inl rfl) [ch '@'] mem_cons_self
    have run : wordexpSh (bareOf σ) [ch '$', ch '@'] s = _ :=
      expand_list (bareOf σ) _ _ (.inl rfl) mem_cons_self s strings
    rw [all_words_bare] at run alone
    have same : (s.params.filter (· ≠ [])).map cstr = _ := Except.ok.inj (congrArg Prod.fst (run.symm.trans alone))
    have kept : p ∈ (s.params.filter (· ≠ [])).map cstr :=
      mem_map.mpr ⟨p, mem_filter.mpr ⟨listed, by simpa using ne_nil_of_mem inside⟩, cstr_whole (strings p listed)⟩
    rw [same] at kept
    obtain ⟨field, mem, rfl⟩ := mem_map.mp kept
    obtain ⟨q, -, field_of⟩ := mem_flatMap.mp mem
    exact delimited_ordinary _ _ _ field field_of c ((takeWhile_sublist _).subset inside)
  · intro w k list name spelling
    refine (expand_list w _ _ list spelling s strings).trans ?_
    rw [posix_all_unsplit _ _ unsplit]

def listing (ifs : Bytes) (params : List Bytes) : Shell Unit := { holding ifs [] with params := params }

theorem positional_lists_two :
    wordexpSh bare (text "x\"$@\"y") (listing (text " :") [text "a", text "b"]) =
      (.ok [text "xa", text "by"], listing (text " :") [text "a", text "b"]) ∧
    wordexpSh bare (text "\"$*\"") (listing (text " :") [text "a", text "b"]) =
      (.ok [text "a b"], listing (text " :") [text "a", text "b"]) ∧
    wordexpSh bare (text "$*") (listing (text " :") [text "a", text "b"]) =
      (.ok [text "a", text "b"], listing (text " :") [text "a", text "b"]) := by
  obtain ⟨each, joined, split⟩ := positional_lists (listing (text " :") [text "a", text "b"]) (by decide)
  refine ⟨?_, ?_, ?_⟩
  · exact each bare (text "x") [] [] (text "y") ⟨by decide, by decide, by decide, by decide⟩ (text "@") (by decide)
  · exact joined.mpr (.inr (by decide)) bare [] [] [] [] around_nothing (text "*") (by decide)
  · exact split.mpr (by decide) bare (ch '*') (.inr rfl) (text "*") (by decide)

-- The separator is a space whatever IFS is, and a colon in a parameter stays.
theorem list_separator_ignored :
    (wordexpSh bare (text "\"$*\"") (listing (text ":") [text "a", text "b"])).1 = .ok [text "a b"] ∧
    (wordexpSh bare (text "$@") (listing (text ":") [text "a:b"])).1 = .ok [text "a:b"] ∧
    posixFields (text ":") (text "a:b") = [text "a", text "b"] := by
  refine ⟨?_, ?_, by decide⟩
  · exact congrArg Prod.fst (expand_quoted_star bare _ _ around_nothing (mem_cons_self : [ch '*'] ∈ spellings (ch '*')) _
      (by decide))
  · exact congrArg Prod.fst (expand_list bare _ _ (.inl rfl) (mem_cons_self : [ch '@'] ∈ spellings (ch '@')) _ (by decide))

end Spicule.Wordexp
