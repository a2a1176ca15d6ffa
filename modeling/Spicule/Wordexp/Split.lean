import Spicule.Wordexp.Expand

namespace Spicule.Wordexp
open List

def live (v : Bytes) : Fbuf := v.map fun c => (c, false)

theorem live_append (v u : Bytes) : live (v ++ u) = live v ++ live u := map_append

theorem plain_live (v : Bytes) : plain (live v) = v := by
  rw [plain, live, map_map]
  exact map_id v

theorem pattern_live (v : Bytes) : pattern (live v) = v := by
  rw [pattern, live, flatMap_map]
  exact flatMap_singleton' v

theorem has_meta_live (v : Bytes) : hasMeta (live v) = v.any isMeta := by
  rw [hasMeta, live, any_map]
  rfl

theorem cstr_whole {v : Bytes} (whole : 0 ∉ v) : cstr v = v := by
  refine takeWhile_eq_self_iff.mpr fun c mem => ?_
  rw [decide_eq_true_eq]
  rintro rfl
  exact whole mem

theorem push_live {v : Bytes} (whole : 0 ∉ v) : fbufPushStr [] v false = live v := by
  rw [fbufPushStr, cstr_whole whole, nil_append, live]

def runs (separates : UInt8 → Bool) : Bytes → Bytes → List Bytes
  | buf, [] => if buf = [] then [] else [buf]
  | buf, c :: v =>
    if separates c then (if buf = [] then [] else [buf]) ++ runs separates [] v
    else runs separates (buf ++ [c]) v

section
variable {σ : Type} (w : World σ)
def fieldWords (system : σ) (field : Bytes) : Except Wrde (List Bytes) :=
  if field.any isMeta then
    match w.glob system (cstr field) with
    | .found first more => .ok (first :: more)
    | .unmatched => .ok [cstr field]
    | .failed => .error .nospace
  else .ok [cstr field]

def allWords (system : σ) : List Bytes → Except Wrde (List Bytes)
  | [] => .ok []
  | field :: fields => (fieldWords w system field).bind fun words => (allWords system fields).map (words ++ ·)

theorem emit_live (field : Bytes) (out : List Bytes) (s : Shell σ) :
    emitField w (live field) out s = ((fieldWords w s.system field).map (out ++ ·), s) := by
  unfold emitField fieldWords
  rw [has_meta_live, pattern_live, plain_live]
  split
  · rw [get_bind]
    cases w.glob s.system (cstr field) <;> rfl
  · rfl

theorem flush_live (field : Bytes) (out : List Bytes) (s : Shell σ) : flush w ⟨live field, field ≠ [], out⟩ s =
      ((allWords w s.system (if field = [] then [] else [field])).map fun words => ⟨[], false, out ++ words⟩, s) := by
  unfold flush
  by_cases empty : field = []
  · subst empty
    simp [allWords, live, Except.map, pure, ExceptT.pure, ExceptT.mk, StateT.pure]
  · have emitted := emit_live w field out s
    simp only [if_neg empty, allWords, decide_eq_true empty, if_true]
    cases words : fieldWords w s.system field with
    | error code =>
      rw [words] at emitted
      rw [bind_error emitted]
      rfl
    | ok words =>
      rw [words] at emitted
      rw [bind_ok emitted]
      simp only [Except.bind, Except.map, append_nil]
      rfl

theorem all_words_append (system : σ) (front back : List Bytes) : allWords w system (front ++ back) =
    (allWords w system front).bind fun words => (allWords w system back).map (words ++ ·) := by
  induction front with
  | nil =>
    rw [nil_append]
    cases allWords w system back <;> rfl
  | cons field front ih =>
    rw [cons_append, allWords, allWords, ih]
    cases fieldWords w system field with
    | error code => rfl
    | ok words =>
      cases allWords w system front with
      | error code => rfl
      | ok more =>
        cases allWords w system back with
        | error code => rfl
        | ok rest => simp only [Except.bind, Except.map, append_assoc]

theorem split_live (v buf : Bytes) (out : List Bytes) (s : Shell σ) :
    (splitBytes w v ⟨live buf, buf ≠ [], out⟩ >>= flush w) s =
      ((allWords w s.system (runs (isSplitChar s.env) buf v)).map fun words => ⟨[], false, out ++ words⟩, s) := by
  induction v generalizing buf out with
  | nil => exact flush_live w buf out s
  | cons c v ih =>
    have opened : splitBytes w (c :: v) ⟨live buf, buf ≠ [], out⟩ s =
        (if isSplitChar s.env c then flush w ⟨live buf, buf ≠ [], out⟩ >>= splitBytes w v
          else splitBytes w v ⟨live buf ++ [(c, false)], true, out⟩) s := by
      rw [splitBytes, get_bind]
    rw [bind_congr_at opened, runs]
    cases separates : isSplitChar s.env c with
    | false =>
      have longer : live buf ++ [(c, false)] = live (buf ++ [c]) := (live_append buf [c]).symm
      have filled : true = decide (buf ++ [c] ≠ []) := by simp
      rw [if_neg Bool.false_ne_true, if_neg Bool.false_ne_true, longer, filled]
      exact ih (buf ++ [c]) out
    | true =>
      rw [if_pos rfl, if_pos rfl, bind_assoc, all_words_append]
      have flushed := flush_live w buf out s
      cases emitted : allWords w s.system (if buf = [] then [] else [buf]) with
      | error code =>
        rw [emitted] at flushed
        exact bind_error flushed
      | ok words =>
        rw [emitted] at flushed
        rw [bind_ok flushed]
        refine (ih [] (out ++ words)).trans ?_
        cases allWords w s.system (runs (isSplitChar s.env) [] v) with
        | error code => rfl
        | ok more => simp only [Except.bind, Except.map, append_assoc]

end

section
variable {σ : Type} (w : World σ) (e : Engine σ) (flags : Flags) (sh : Bool)

structure Parameter (rest : Bytes) : Prop where
  unquoted : rest.head? ≠ some (ch '\'')
  uncommanded : rest.head? ≠ some (ch '(')
  single : atOrStar rest = none

structure Alone (rest v : Bytes) (s t : Shell σ) : Prop where
  parameter : Parameter rest
  value : expandParam w e flags sh (ch '$' :: rest) [] false s = (.ok ([], live v), t)

def ended (fields : Fields) : Scan := { start [] with toFields := fields }

variable {rest : Bytes} {words : Bytes}
theorem step_parameter (parameter : Parameter rest) :
    step w e flags sh words (start (ch '$' :: rest)) (ch '$') rest =
      expandParam w e flags sh (ch '$' :: rest) [] false >>= fun read =>
        splitAppended w ⟨read.2, false, []⟩ 0 >>= fun fields => pure { ended fields with p := read.1 } := by
  obtain ⟨quote, paren, single⟩ := parameter
  have arith : rest.take 2 ≠ text "((" := by
    intro both
    apply paren
    have head := congrArg List.head? both
    rwa [head?_take, if_neg (by decide)] at head
  change stepPlain w e flags sh words (start (ch '$' :: rest)) (ch '$') rest = _
  unfold stepPlain
  rw [if_neg (by simp [ch]), if_neg (by decide), if_neg (by decide), if_neg (by decide), if_neg (by decide),
    if_neg (by simpa using quote), if_neg (by simpa using arith), if_neg (by rw [decide_eq_false paren]; decide), if_pos rfl,
    single]
  rfl

theorem step_alone {v : Bytes} {s t : Shell σ} (alone : Alone w e flags sh rest v s t) (words : Bytes) :
    step w e flags sh words (start (ch '$' :: rest)) (ch '$') rest s =
      (splitBytes w v ⟨[], false, []⟩ >>= fun fields => pure (ended fields)) t := by
  rw [step_parameter w e flags sh alone.parameter, bind_ok alone.value, splitAppended, drop_zero,
    plain_live, take_zero]
  rfl

theorem scan_first (rest : Bytes) : scan w e flags sh (ch '$' :: rest) (ch '$' :: rest).length (start (ch '$' :: rest)) =
    step w e flags sh (ch '$' :: rest) (start (ch '$' :: rest)) (ch '$') rest >>=
      scan w e flags sh (ch '$' :: rest) rest.length := rfl

variable {e} {flags} {sh}
theorem expand_failed {s t : Shell σ} {code : Wrde} (parameter : Parameter rest)
    (failed : expandParam w e flags sh (ch '$' :: rest) [] false s = (.error code, t)) :
    expandImpl w e flags sh (ch '$' :: rest) s = (.error code, t) := by
  have stepped : step w e flags sh (ch '$' :: rest) (start (ch '$' :: rest)) (ch '$') rest s = (.error code, t) := by
    rw [step_parameter w e flags sh parameter]
    exact bind_error failed
  unfold expandImpl
  rw [scan_first]
  exact bind_error (bind_error stepped)

theorem scan_done (fuel : Nat) (st : Scan) (done : st.p = []) : scan w e flags sh words fuel st = pure st := by
  unfold scan
  rw [done]

theorem expand_alone {rest v : Bytes} {s t : Shell σ} (alone : Alone w e flags sh rest v s t) :
    expandImpl w e flags sh (ch '$' :: rest) s = (allWords w t.system (runs (isSplitChar t.env) [] v), t) := by
  have stepped := step_alone w e flags sh alone (ch '$' :: rest)
  have scanned : scan w e flags sh (ch '$' :: rest) (ch '$' :: rest).length (start (ch '$' :: rest)) s =
      (splitBytes w v ⟨[], false, []⟩ >>= fun fields => pure (ended fields)) t := by
    rw [scan_first, bind_congr_at stepped, bind_assoc]
    simp only [pure_bind, scan_done w _ (ended _) rfl]
  have split := split_live w v [] [] t
  unfold expandImpl
  rw [bind_congr_at scanned, bind_assoc]
  simp only [pure_bind]
  change (splitBytes w v ⟨live [], decide (([] : Bytes) ≠ []), []⟩ >>= fun fields =>
    flush w fields >>= fun last => pure last.out) t = _
  rw [← bind_assoc]
  cases emitted : allWords w t.system (runs (isSplitChar t.env) [] v) with
  | error code =>
    rw [emitted] at split
    exact bind_error split
  | ok words =>
    rw [emitted] at split
    exact bind_ok split

end

section
variable (ifs : Bytes)
def isWhite (c : UInt8) : Bool := ifs.contains c && isIfs c

def isOther (c : UInt8) : Bool := ifs.contains c && !isIfs c

-- IFS white space, at most one other byte of IFS, and the white space after it.
def pastDelimiter (v : Bytes) : Bytes :=
  match v.dropWhile (isWhite ifs) with
  | [] => []
  | c :: rest => if isOther ifs c then rest.dropWhile (isWhite ifs) else c :: rest

def delimited : Nat → Bytes → List Bytes
  | 0, _ => []
  | fuel + 1, v =>
    if v = [] then []
    else v.takeWhile (!ifs.contains ·) :: delimited fuel (pastDelimiter ifs (v.dropWhile (!ifs.contains ·)))

def posixFields (v : Bytes) : List Bytes := delimited ifs v.length (v.dropWhile (isWhite ifs))

-- Since the last byte of IFS that is no white space, every other such byte had a byte
-- outside IFS before it.
def closes : Bool → Bytes → Bool
  | _, [] => true
  | opened, c :: v => if isOther ifs c then opened && closes false v else closes (opened || !ifs.contains c) v

def Bounded (v : Bytes) : Prop := ∀ c rest, v = c :: rest → ifs.contains c = true

variable (v : Bytes)
theorem bounded_drop : Bounded ifs (v.dropWhile (!ifs.contains ·)) := by
  intro c rest shape
  have past := head?_dropWhile_not (!ifs.contains ·) v
  rw [shape, head?_cons] at past
  simpa using past

variable (rest : Bytes)
theorem white_head (c : UInt8) (shape : v.dropWhile (isWhite ifs) = c :: rest) :
    isWhite ifs c = false := by
  have past := head?_dropWhile_not (isWhite ifs) v
  rw [shape, head?_cons] at past
  simpa using past

theorem white_separates {c : UInt8} (white : isWhite ifs c = true) : ifs.contains c = true :=
  (Bool.and_eq_true_iff.mp white).1

theorem white_run : ∃ d, v = d ++ v.dropWhile (isWhite ifs) ∧ ∀ c ∈ d, isWhite ifs c = true :=
  ⟨v.takeWhile (isWhite ifs), takeWhile_append_dropWhile.symm, fun _ mem => mem_takeWhile_imp mem⟩

theorem past_delimiter_spec (bounded : Bounded ifs v) :
    ∃ d, v = d ++ pastDelimiter ifs v ∧ (∀ c ∈ d, ifs.contains c = true) ∧ (d = [] → v = []) := by
  obtain ⟨white, split, all⟩ := white_run ifs v
  have separates := fun c mem => white_separates ifs (all c mem)
  unfold pastDelimiter
  split
  · rename_i none_left
    rw [none_left] at split
    exact ⟨white, split, separates, fun empty => by rw [split, empty]; rfl⟩
  · rename_i c rest shape
    rw [shape] at split
    split
    · rename_i other
      obtain ⟨more, again, blank⟩ := white_run ifs rest
      refine ⟨white ++ c :: more, ?_, ?_, fun empty => absurd (append_eq_nil_iff.mp empty).2 (cons_ne_nil _ _)⟩
      · rw [split, append_assoc, cons_append, ← again]
      · intro d mem
        rcases mem_append.mp mem with here | here
        · exact separates d here
        · rcases mem_cons.mp here with rfl | here
          · exact (Bool.and_eq_true_iff.mp other).1
          · exact white_separates ifs (blank d here)
    · rename_i other
      refine ⟨white, split, separates, fun empty => ?_⟩
      subst empty
      have inside := bounded c rest split
      simp_all [isWhite, isOther]

variable (separates : UInt8 → Bool)
theorem runs_field (field buf rest : Bytes) (ordinary : ∀ c ∈ field, separates c = false) :
    runs separates buf (field ++ rest) = runs separates (buf ++ field) rest := by
  induction field generalizing buf with
  | nil => rw [nil_append, append_nil]
  | cons c field ih =>
    rw [cons_append, runs, ordinary c mem_cons_self, if_neg Bool.false_ne_true,
      ih _ (forall_mem_cons.mp ordinary).2, append_assoc, singleton_append]

theorem runs_skip (d : Bytes) (all : ∀ c ∈ d, separates c = true) :
    runs separates [] (d ++ rest) = runs separates [] rest := by
  induction d with
  | nil => rfl
  | cons c d ih =>
    rw [cons_append, runs, all c mem_cons_self, if_pos rfl, if_pos rfl, nil_append, ih (forall_mem_cons.mp all).2]

theorem runs_past (field more : Bytes) (bounded : Bounded ifs more) : runs (ifs.contains ·) field more =
    (if field = [] then [] else [field]) ++ runs (ifs.contains ·) [] (pastDelimiter ifs more) := by
  obtain ⟨d, shape, all, none_left⟩ := past_delimiter_spec ifs more bounded
  cases d with
  | nil =>
    rw [none_left rfl]
    simp [runs, pastDelimiter]
  | cons c d =>
    generalize pastDelimiter ifs more = rest at shape
    rw [shape, cons_append, runs, all c mem_cons_self, if_pos rfl, runs_skip _ _ _ (forall_mem_cons.mp all).2]

theorem past_delimiter_shorter (bounded : Bounded ifs v) (some_left : v ≠ []) :
    (pastDelimiter ifs v).length < v.length := by
  obtain ⟨d, shape, _, none_left⟩ := past_delimiter_spec ifs v bounded
  have filled : 0 < d.length := length_pos_iff.mpr fun empty => some_left (none_left empty)
  have lengths := congrArg List.length shape
  rw [length_append] at lengths
  omega

def onward (v : Bytes) : Bytes := pastDelimiter ifs (v.dropWhile (!ifs.contains ·))

theorem onward_shorter (some_left : v ≠ []) : (onward ifs v).length < v.length := by
  have dropped : (v.dropWhile (!ifs.contains ·)).length ≤ v.length := (dropWhile_sublist _).length_le
  by_cases empty : v.dropWhile (!ifs.contains ·) = []
  · rw [onward, empty]
    exact length_pos_iff.mpr some_left
  · exact Nat.lt_of_lt_of_le (past_delimiter_shorter ifs _ (bounded_drop ifs v) empty) dropped

theorem ordinary_field : ∀ c ∈ v.takeWhile (!ifs.contains ·), ifs.contains c = false := by
  intro c mem
  simpa using mem_takeWhile_imp mem

theorem runs_delimited (fuel : Nat) (v : Bytes) (enough : v.length ≤ fuel) :
    runs (ifs.contains ·) [] v = (delimited ifs fuel v).filter (· ≠ []) := by
  induction fuel generalizing v with
  | zero =>
    rw [length_eq_zero_iff.mp (Nat.le_zero.mp enough)]
    rfl
  | succ fuel ih =>
    rw [delimited]
    split
    · rename_i empty
      rw [empty]
      rfl
    · rename_i some_left
      have shorter := onward_shorter ifs v some_left
      have rest := ih (onward ifs v) (by omega)
      calc runs (ifs.contains ·) [] v
          = runs (ifs.contains ·) [] (v.takeWhile (!ifs.contains ·) ++ v.dropWhile (!ifs.contains ·)) := by
            rw [takeWhile_append_dropWhile]
        _ = runs (ifs.contains ·) (v.takeWhile (!ifs.contains ·)) (v.dropWhile (!ifs.contains ·)) :=
            runs_field _ _ [] _ (ordinary_field ifs v)
        _ = (if v.takeWhile (!ifs.contains ·) = [] then [] else [v.takeWhile (!ifs.contains ·)]) ++
              runs (ifs.contains ·) [] (onward ifs v) := runs_past ifs _ _ (bounded_drop ifs v)
        _ = _ := by
            rw [rest, onward, filter_cons]
            generalize v.takeWhile (!ifs.contains ·) = field
            cases field <;> rfl

theorem runs_posix : runs (ifs.contains ·) [] v = (posixFields ifs v).filter (· ≠ []) := by
  obtain ⟨d, shape, all⟩ := white_run ifs v
  have shorter : (v.dropWhile (isWhite ifs)).length ≤ v.length := (dropWhile_sublist _).length_le
  rw [posixFields, ← runs_delimited ifs _ _ shorter]
  conv_lhs => rw [shape]
  exact runs_skip _ _ _ fun c mem => white_separates ifs (all c mem)

theorem closes_field (opened : Bool) (field : Bytes) (ordinary : ∀ c ∈ field, ifs.contains c = false) :
    closes ifs opened (field ++ rest) = closes ifs (opened || field ≠ []) rest := by
  induction field generalizing opened with
  | nil => simp
  | cons c field ih =>
    have outside := ordinary c mem_cons_self
    have unlike : isOther ifs c = false := by rw [isOther, outside, Bool.false_and]
    rw [cons_append, closes, unlike, if_neg Bool.false_ne_true, outside, ih _ (forall_mem_cons.mp ordinary).2]
    simp

theorem closes_white {opened : Bool} {d : Bytes} (all : ∀ c ∈ d, isWhite ifs c = true) :
    closes ifs opened (d ++ rest) = closes ifs opened rest := by
  induction d with
  | nil => rfl
  | cons c d ih =>
    obtain ⟨inside, blank⟩ := Bool.and_eq_true_iff.mp (all c mem_cons_self)
    have unlike : isOther ifs c = false := by rw [isOther, blank, Bool.not_true, Bool.and_false]
    rw [cons_append, closes, unlike, if_neg Bool.false_ne_true, inside, Bool.not_true, Bool.or_false,
      ih (forall_mem_cons.mp all).2]

theorem closes_past : closes ifs true v = closes ifs false (pastDelimiter ifs v) := by
  obtain ⟨white, shape, all⟩ := white_run ifs v
  conv_lhs => rw [shape, closes_white ifs _ all]
  unfold pastDelimiter
  cases past : v.dropWhile (isWhite ifs) with
  | nil => rfl
  | cons c rest =>
    have kept := white_head ifs v rest c past
    cases other : isOther ifs c with
    | true =>
      obtain ⟨more, again, blank⟩ := white_run ifs rest
      dsimp only
      rw [closes, other, if_pos rfl, if_pos rfl, Bool.true_and]
      conv_lhs => rw [again, closes_white ifs _ blank]
    | false =>
      have outside : ifs.contains c = false := by
        rw [isWhite] at kept
        rw [isOther] at other
        cases isIfs c <;> simp_all
      dsimp only
      rw [closes, other, if_neg Bool.false_ne_true, if_neg Bool.false_ne_true, closes, other,
        if_neg Bool.false_ne_true, outside, Bool.not_false, Bool.or_true, Bool.or_true]

def Unblanked (v : Bytes) : Prop := ∀ c rest, v = c :: rest → isWhite ifs c = false

variable {ifs}
theorem unblanked_drop : Unblanked ifs (v.dropWhile (isWhite ifs)) := fun c rest => white_head ifs v rest c

theorem unblanked_past : Unblanked ifs (pastDelimiter ifs v) := by
  unfold pastDelimiter
  split
  · intro c rest shape
    cases shape
  · rename_i c rest shape
    split
    · exact unblanked_drop rest
    · intro d more same
      cases same
      exact white_head ifs v rest c shape

theorem delimited_filled (fuel : Nat) (v : Bytes) (enough : v.length ≤ fuel) (unblanked : Unblanked ifs v) :
    [] ∉ delimited ifs fuel v ↔ closes ifs false v = true := by
  induction fuel generalizing v with
  | zero =>
    rw [length_eq_zero_iff.mp (Nat.le_zero.mp enough)]
    exact iff_of_true not_mem_nil rfl
  | succ fuel ih =>
    rw [delimited]
    split
    · rename_i empty
      rw [empty]
      exact iff_of_true not_mem_nil rfl
    · rename_i some_left
      have shorter := onward_shorter ifs v some_left
      have later := ih (onward ifs v) (by omega) (unblanked_past _)
      have split : closes ifs false v =
          closes ifs (v.takeWhile (!ifs.contains ·) ≠ []) (v.dropWhile (!ifs.contains ·)) := by
        conv_lhs => rw [← takeWhile_append_dropWhile (p := (!ifs.contains ·)) (l := v)]
        rw [closes_field ifs _ _ _ (ordinary_field ifs v), Bool.false_or]
      rw [mem_cons, not_or, split]
      by_cases empty : v.takeWhile (!ifs.contains ·) = []
      · -- The field is empty, so the text starts with the other kind of byte.
        rw [decide_eq_false (not_not_intro empty)]
        refine iff_of_false (fun both => both.1 empty.symm) ?_
        cases v with
        | nil => exact absurd rfl some_left
        | cons c rest =>
          have inside : ifs.contains c = true := by
            rw [takeWhile_cons] at empty
            split at empty
            · cases empty
            · rename_i inside
              simpa using inside
          have unwhite := unblanked c rest rfl
          have other : isOther ifs c = true := by
            rw [isWhite, inside, Bool.true_and] at unwhite
            rw [isOther, inside, unwhite]
            rfl
          rw [dropWhile_cons, inside, Bool.not_true, if_neg Bool.false_ne_true, closes, other, if_pos rfl,
            Bool.false_and]
          exact Bool.false_ne_true
      · rw [decide_eq_true empty, closes_past]
        exact (and_iff_right (Ne.symm empty)).trans later

theorem posix_runs_iff : runs (ifs.contains ·) [] v = posixFields ifs v ↔ closes ifs false v = true := by
  have shorter : (v.dropWhile (isWhite ifs)).length ≤ v.length := (dropWhile_sublist _).length_le
  obtain ⟨d, shape, all⟩ := white_run ifs v
  have leading : closes ifs false v = closes ifs false (v.dropWhile (isWhite ifs)) := by
    conv_lhs => rw [shape, closes_white ifs _ all]
  rw [runs_posix, leading, ← delimited_filled v.length _ shorter (unblanked_drop v), filter_eq_self]
  constructor
  · intro filled mem
    simpa using filled [] mem
  · intro absent field mem
    rw [decide_eq_true_eq]
    rintro rfl
    exact absent mem

end

section
variable {σ : Type} (w : World σ) (e : Engine σ) (flags : Flags) (sh : Bool)
theorem runs_mem (separates : UInt8 → Bool) (buf v field : Bytes) (mem : field ∈ runs separates buf v) :
    ∀ c ∈ field, c ∈ buf ++ v := by
  induction v generalizing buf with
  | nil =>
    rw [runs] at mem
    split at mem
    · exact absurd mem not_mem_nil
    · rw [mem_singleton.mp mem, append_nil]
      exact fun c inside => inside
  | cons d v ih =>
    rw [runs] at mem
    split at mem
    · rcases mem_append.mp mem with here | later
      · split at here
        · exact absurd here not_mem_nil
        · rw [mem_singleton.mp here]
          exact fun c inside => mem_append_left _ inside
      · intro c inside
        exact mem_append_right _ (mem_cons_of_mem d (ih [] later c inside))
    · intro c inside
      have found := ih _ mem c inside
      rwa [append_assoc] at found

theorem all_words_plain (system : σ) (fields : List Bytes) (whole : ∀ field ∈ fields, 0 ∉ field)
    (unpatterned : ∀ field ∈ fields, field.any isMeta = false) : allWords w system fields = .ok fields := by
  induction fields with
  | nil => rfl
  | cons field fields ih =>
    rw [allWords, fieldWords, unpatterned field mem_cons_self, if_neg Bool.false_ne_true,
      cstr_whole (whole field mem_cons_self),
      ih (forall_mem_cons.mp whole).2
        (forall_mem_cons.mp unpatterned).2]
    rfl

theorem expand_plain {rest v : Bytes} {s t : Shell σ} (alone : Alone w e flags sh rest v s t) (whole : 0 ∉ v)
    (unpatterned : ∀ c ∈ v, isMeta c = false) :
    expandImpl w e flags sh (ch '$' :: rest) s = (.ok (runs ((cstr (ifsOf t.env)).contains ·) [] v), t) := by
  rw [expand_alone w alone, all_words_plain]
  · rfl
  · exact fun field mem inside => whole (runs_mem _ [] v field mem 0 inside)
  · intro field mem
    rw [any_eq_false]
    intro c inside
    rw [unpatterned c (runs_mem _ [] v field mem c inside)]
    exact Bool.false_ne_true

structure IsName (name : Bytes) : Prop where
  first : isNamestart (name.headD 0) = true
  all : ∀ c ∈ name, isNamechar c = true

def punctuation : Bytes := [ch '\'', ch '(', ch '{', ch '@', ch '*', ch '#', ch '?']

theorem namestart_alone : ∀ c : UInt8, isNamestart c = true → punctuation.contains c = false ∧ isDigit c = false :=
  Ctype.forall_byte (by decide +kernel)

variable {name : Bytes}
theorem take_name (all : ∀ c ∈ name, isNamechar c = true) :
    name.takeWhile isNamechar = name ∧ name.dropWhile isNamechar = [] :=
  ⟨takeWhile_eq_self_iff.mpr all, dropWhile_eq_nil_iff.mpr all⟩

theorem expand_named {v : Bytes} {s : Shell σ} (all : ∀ c ∈ name, isNamechar c = true) (short : name.length < 256)
    (value : s.env name = some v) (whole : 0 ∉ v) : expandNamed w e flags false name [] false s = (.ok ([], live v), s) := by
  obtain ⟨taken, left⟩ := take_name all
  unfold expandNamed
  rw [taken, left, if_neg (Nat.not_le.mpr short), get_bind, Bool.false_and, if_neg Bool.false_ne_true, value]
  exact congrArg (fun field => (Except.ok (([] : Bytes), field), s)) (push_live whole)

theorem name_first (valid : IsName name) : ∃ c tail, name = c :: tail ∧ isNamestart c = true ∧
    isDigit c = false ∧ ∀ d ∈ punctuation, c ≠ d := by
  obtain ⟨first, _⟩ := valid
  cases name with
  | nil => exact absurd first (by decide)
  | cons c tail =>
    obtain ⟨spared, letter⟩ := namestart_alone c first
    refine ⟨c, tail, rfl, first, letter, fun d mem same => ?_⟩
    rw [← same, ← contains_iff_mem, spared] at mem
    exact Bool.false_ne_true mem

theorem expand_param_name (s : Shell σ) (valid : IsName name) :
    expandParam w e flags sh (ch '$' :: name) [] false s = expandNamed w e flags false name [] false s := by
  obtain ⟨c, tail, rfl, first, letter, differs⟩ := name_first valid
  have unbraced : (c :: tail).head? ≠ some (ch '\x7b') := fun same => differs (ch '\x7b') (by decide) (Option.some.inj same)
  unfold expandParam
  rw [drop_succ_cons, drop_zero, decide_eq_false unbraced]
  simp only [Bool.false_and, Bool.false_eq_true, if_false, headD_cons]
  rw [get_bind, letter, first, if_neg Bool.false_ne_true, decide_eq_false (differs (ch '?') (by decide)),
    decide_eq_false (differs (ch '#') (by decide))]
  simp

theorem name_parameter (valid : IsName name) : Parameter name := by
  obtain ⟨c, tail, rfl, _, _, differs⟩ := name_first valid
  refine ⟨fun same => ?_, fun same => ?_, ?_⟩
  · exact differs (ch '\'') (by decide) (Option.some.inj same)
  · exact differs (ch '(') (by decide) (Option.some.inj same)
  · unfold atOrStar
    dsimp only
    rw [if_neg (differs _ (by decide)), if_neg]
    rintro (same | same)
    · exact differs _ (by decide) same
    · exact differs _ (by decide) same

variable (name) in
theorem alone_name (v : Bytes) (s : Shell σ) (valid : IsName name) (short : name.length < 256)
    (value : s.env name = some v) (whole : 0 ∉ v) : Alone w e flags sh name v s s :=
  ⟨name_parameter valid,
    (expand_param_name w e flags sh s valid).trans (expand_named w e flags valid.all short value whole)⟩

-- The fields are XCU 2.6.5's exactly when no two bytes of IFS enclose an empty one.
theorem field_splitting_iff (rest v : Bytes) (s t : Shell σ) (alone : Alone w e flags sh rest v s t) (whole : 0 ∉ v)
    (unpatterned : ∀ c ∈ v, isMeta c = false) :
    expandImpl w e flags sh (ch '$' :: rest) s = (.ok (posixFields (cstr (ifsOf t.env)) v), t) ↔
      closes (cstr (ifsOf t.env)) false v = true := by
  rw [expand_plain w e flags sh alone whole unpatterned, Prod.mk.injEq, and_iff_left rfl, Except.ok.injEq]
  exact posix_runs_iff v

end

def bare : World Unit :=
  { longBit := 64, glob := fun _ _ => .unmatched, fnmatch := fun _ _ => false, getpwnam := fun _ _ => none,
    shCmdsub := fun _ s => (none, s) }

def holding (ifs y : Bytes) : Shell Unit :=
  { env := fun name => if name = text "IFS" then some ifs else if name = text "y" then some y else none,
    params := [], zero := text "sh", lastStatus := 0, system := () }

theorem field_splitting_two :
    expandImpl bare (engine bare ⟨false, false⟩ true 2) ⟨false, false⟩ true (text "$y") (holding (text ":") (text "a:b")) =
      (.ok (posixFields (text ":") (text "a:b")), holding (text ":") (text "a:b")) := by
  have alone := alone_name bare (engine bare ⟨false, false⟩ true 2) ⟨false, false⟩ true (text "y") (text "a:b")
    (holding (text ":") (text "a:b")) ⟨by decide, by decide⟩ (by decide) rfl (by decide)
  exact (field_splitting_iff bare _ ⟨false, false⟩ true _ _ _ _ alone (by decide) (by decide)).mpr (by decide)

theorem empty_field_lost :
    (expandImpl bare (engine bare ⟨false, false⟩ true 2) ⟨false, false⟩ true (text "$y")
      (holding (text ":") (text "a::b"))).1 = .ok [text "a", text "b"] ∧
    posixFields (text ":") (text "a::b") = [text "a", [], text "b"] := by
  have alone := alone_name bare (engine bare ⟨false, false⟩ true 2) ⟨false, false⟩ true (text "y") (text "a::b")
    (holding (text ":") (text "a::b")) ⟨by decide, by decide⟩ (by decide) rfl (by decide)
  refine ⟨?_, by decide⟩
  exact congrArg Prod.fst (expand_plain bare _ ⟨false, false⟩ true alone (by decide) (by decide))

end Spicule.Wordexp
