import Spicule.Wordexp.Positional

namespace Spicule.Wordexp
open List

variable {σ : Type} (w : World σ)
def splitAssignment (raw : Bytes) : StateM (Shell σ) (Option (Bytes × Bytes)) := do
  let name := raw.takeWhile (· ≠ ch '=')
  match raw.dropWhile (· ≠ ch '=') with
  | [] => return none
  | _ :: [] => return some (name, [])
  | _ :: value =>
    match ← (wordexpSh w value).run with
    | .ok words => return some (name, words.headD [])
    | .error _ => return some (name, value)

def execAssignmentOnly (readonly : Bytes → Bool) : List Bytes → StateM (Shell σ) Bool
  | [] => return true
  | raw :: more => do
      match ← splitAssignment w raw with
      | none => execAssignmentOnly readonly more
      | some (name, value) =>
        if readonly name then
          let _ ← execAssignmentOnly readonly more
          return false
        else
          modify fun s => { s with env := Arith.setenv s.env name value }
          execAssignmentOnly readonly more

section
variable (system : σ) (separates : UInt8 → Bool)
def globbed (field : Bytes) : Globbed := if field.any isMeta then w.glob system field else .unmatched

-- The value is no list of fields and no pattern that names a file; or the first file its
-- first field names happens to be called like it.
def Kept (v : Bytes) : Prop :=
  v = [] ∨
    (∀ field ∈ runs separates [] v, globbed w system field ≠ .failed) ∧
      ((∀ c ∈ v, separates c = false) ∧ globbed w system v = .unmatched ∨
        ∃ field fields more, runs separates [] v = field :: fields ∧ globbed w system field = .found v more)

theorem field_words_globbed {field : Bytes} (whole : 0 ∉ field) : fieldWords w system field =
    match globbed w system field with
    | .found first more => .ok (first :: more)
    | .unmatched => .ok [field]
    | .failed => .error .nospace := by
  rw [fieldWords, globbed, cstr_whole whole]
  split <;> rfl

theorem all_words_failed {fields : List Bytes} (whole : ∀ field ∈ fields, 0 ∉ field) :
    (∃ code, allWords w system fields = .error code) ↔ ∃ field ∈ fields, globbed w system field = .failed := by
  induction fields with
  | nil => exact iff_of_false (fun ⟨_, failed⟩ => nomatch failed) (fun ⟨_, mem, _⟩ => nomatch mem)
  | cons field fields ih =>
    have rest := ih (forall_mem_cons.mp whole).2
    rw [allWords, field_words_globbed w system (whole field mem_cons_self), exists_mem_cons_iff, ← rest]
    cases globbed w system field with
    | found | unmatched => cases allWords w system fields <;> simp [Except.bind, Except.map]
    | failed => simp [Except.bind]

theorem all_words_first {field : Bytes} {fields words : List Bytes} (whole : 0 ∉ field)
    (emitted : allWords w system (field :: fields) = .ok words) :
    globbed w system field = .unmatched ∧ words.headD [] = field ∨
      ∃ first more, globbed w system field = .found first more ∧ words.headD [] = first := by
  rw [allWords, field_words_globbed w system whole] at emitted
  cases named : globbed w system field with
  | failed =>
    rw [named] at emitted
    cases emitted
  | unmatched =>
    rw [named] at emitted
    cases rest : allWords w system fields with
    | error code => rw [rest] at emitted; cases emitted
    | ok more => rw [rest] at emitted; cases emitted; exact .inl ⟨rfl, rfl⟩
  | found first others =>
    rw [named] at emitted
    cases rest : allWords w system fields with
    | error code => rw [rest] at emitted; cases emitted
    | ok more => rw [rest] at emitted; cases emitted; exact .inr ⟨first, others, rfl, rfl⟩

theorem runs_ordinary (v : Bytes) (filled : v ≠ []) (ordinary : ∀ c ∈ v, separates c = false) :
    runs separates [] v = [v] := by
  have whole := runs_field separates v [] [] ordinary
  rw [append_nil, nil_append] at whole
  rw [whole, runs, if_neg filled]

theorem runs_ordinary_fields (buf v field : Bytes) (before : ∀ c ∈ buf, separates c = false)
    (mem : field ∈ runs separates buf v) : ∀ c ∈ field, separates c = false := by
  induction v generalizing buf with
  | nil =>
    rw [runs] at mem
    split at mem
    · cases mem
    · rw [mem_singleton.mp mem]
      exact before
  | cons d v ih =>
    rw [runs] at mem
    split at mem
    · rcases mem_append.mp mem with here | later
      · split at here
        · cases here
        · rw [mem_singleton.mp here]
          exact before
      · exact ih [] (by simp) later
    · rename_i ordinary
      refine ih (buf ++ [d]) (fun c inside => ?_) mem
      rcases mem_append.mp inside with here | here
      · exact before c here
      · rw [mem_singleton.mp here]
        exact Bool.eq_false_iff.mpr ordinary

def copied (raw : Bytes) : Except Wrde (List Bytes) → Bytes
  | .ok words => words.headD []
  | .error _ => raw

theorem copied_iff {raw v : Bytes} (whole : 0 ∉ v) (unlike : ∀ c ∈ raw, isMeta c = false) :
    copied raw (allWords w system (runs separates [] v)) = v ↔ Kept w system separates v := by
  have fieldsWhole : ∀ field ∈ runs separates [] v, 0 ∉ field :=
    fun field mem inside => whole (runs_mem separates [] v field mem 0 inside)
  have failing := all_words_failed w system fieldsWhole
  by_cases empty : v = []
  · subst empty
    exact iff_of_true rfl (.inl rfl)
  cases emitted : allWords w system (runs separates [] v) with
  | error code =>
    obtain ⟨field, mem, failed⟩ := failing.mp ⟨code, emitted⟩
    refine iff_of_false (fun same : raw = v => ?_) ?_
    · -- Only a pattern can fail, and the raw text is none.
      rw [globbed] at failed
      split at failed
      · rename_i patterned
        obtain ⟨c, inside, wild⟩ := any_eq_true.mp patterned
        have here := runs_mem separates [] v field mem c inside
        rw [nil_append, ← same] at here
        rw [unlike c here] at wild
        cases wild
      · cases failed
    · rintro (none_left | ⟨settled, _⟩)
      · exact empty none_left
      · exact settled field mem failed
  | ok words =>
    have settled : ∀ field ∈ runs separates [] v, globbed w system field ≠ .failed := by
      intro field mem failed
      obtain ⟨code, wrong⟩ := failing.mpr ⟨field, mem, failed⟩
      rw [emitted] at wrong
      cases wrong
    have single := runs_ordinary separates v empty
    have ordinary := fun field => runs_ordinary_fields separates [] v field (fun c inside => nomatch inside)
    unfold Kept
    rw [or_iff_right empty, and_iff_right settled]
    change words.headD [] = v ↔ _
    cases split : runs separates [] v with
    | nil =>
      rw [split] at emitted
      cases emitted
      refine iff_of_false (fun same => empty same.symm) ?_
      rintro (⟨outside, _⟩ | ⟨_, _, _, same, _⟩)
      · exact nomatch split.symm.trans (single outside)
      · cases same
    | cons field fields =>
      have mem : field ∈ runs separates [] v := by rw [split]; exact mem_cons_self
      rw [split] at emitted
      rcases all_words_first w system (fieldsWhole field mem) emitted with
        ⟨named, head⟩ | ⟨first, more, named, head⟩
      · rw [head]
        constructor
        · rintro rfl
          exact .inl ⟨ordinary field mem, named⟩
        · rintro (⟨outside, _⟩ | ⟨_, _, _, same, found⟩)
          · exact (List.cons.inj (split.symm.trans (single outside))).1
          · cases same
            rw [named] at found
            cases found
      · rw [head]
        constructor
        · rintro rfl
          exact .inr ⟨field, fields, more, rfl, named⟩
        · rintro (⟨outside, unnamed⟩ | ⟨_, _, _, same, found⟩)
          · rw [(List.cons.inj (split.symm.trans (single outside))).1, unnamed] at named
            cases named
          · cases same
            rw [named] at found
            cases found
            rfl

end

theorem state_bind {S α β : Type} (m : StateM S α) (f : α → StateM S β) (s : S) :
    (m >>= f) s = f (m s).1 (m s).2 := rfl

theorem namechar_unpatterned : ∀ c : UInt8, isNamechar c = true → isMeta c = false :=
  Ctype.forall_byte (by decide +kernel)

variable (s : Shell σ)
theorem split_assignment_dollar (x y : Bytes) (valid : IsName x) :
    splitAssignment w (x ++ ch '=' :: ch '$' :: y) s =
      (some (x, copied (ch '$' :: y) (wordexpSh w (ch '$' :: y) s).1), (wordexpSh w (ch '$' :: y) s).2) := by
  have outside : ∀ c ∈ x, decide (c ≠ ch '=') = true := by
    intro c mem
    rw [decide_eq_true_eq]
    rintro rfl
    exact absurd (valid.all _ mem) (by decide)
  unfold splitAssignment
  rw [takeWhile_append_of_pos outside, dropWhile_append_of_pos outside, takeWhile_cons_of_neg (by decide),
    dropWhile_cons_of_neg (by decide), append_nil]
  dsimp only
  rw [state_bind, ExceptT.run]
  rcases wordexpSh w (ch '$' :: y) s with ⟨_ | _, _⟩ <;> rfl

theorem wordexp_sh_name {y v : Bytes} (valid : IsName y) (short : y.length < 256)
    (value : s.env y = some v) (whole : 0 ∉ v) :
    wordexpSh w (ch '$' :: y) s = (allWords w s.system (runs (isSplitChar s.env) [] v), s) :=
  expand_alone w
    (alone_name w _ ⟨false, false⟩ true y v s valid short value whole)

theorem wordexp_sh_long_name (y : Bytes) (valid : IsName y) (long : 256 ≤ y.length) :
    wordexpSh w (ch '$' :: y) s = (.error .syntaxError, s) := by
  refine expand_failed w
    (name_parameter valid) ?_
  rw [expand_param_name w _ _ true s valid, expandNamed, (take_name valid.all).1, if_pos long]
  rfl

theorem exec_one (readonly : Bytes → Bool) {raw name value : Bytes} {s t : Shell σ}
    (split : splitAssignment w raw s = (some (name, value), t)) :
    (execAssignmentOnly w readonly [raw] s).2.env name = if readonly name then t.env name else some value := by
  rw [execAssignmentOnly, state_bind, split]
  dsimp only
  split
  · rfl
  · exact if_pos (beq_self_eq_true _)

theorem assignment_copies_iff (readonly : Bytes → Bool) (x y v : Bytes) (s : Shell σ) (target : IsName x)
    (source : IsName y) (value : s.env y = some v) (whole : 0 ∉ v) :
    (execAssignmentOnly w readonly [x ++ ch '=' :: ch '$' :: y] s).2.env x = some v ↔
      if readonly x then s.env x = some v
      else if y.length < 256 then Kept w s.system (isSplitChar s.env) v
      else v = ch '$' :: y := by
  have assigned := exec_one w readonly (split_assignment_dollar w s x y target)
  rw [assigned]
  by_cases short : y.length < 256
  · rw [wordexp_sh_name w s source short value whole]
    split
    · rfl
    · rw [Option.some.injEq]
      refine copied_iff w s.system (isSplitChar s.env) whole fun c mem => ?_
      rcases mem_cons.mp mem with rfl | inside
      · decide
      · exact namechar_unpatterned c (source.all c inside)
  · rw [wordexp_sh_long_name w s y source (Nat.not_lt.mp short)]
    split
    · rfl
    · rw [Option.some.injEq]
      exact eq_comm

theorem assignment_copies_word :
    (execAssignmentOnly bare (fun _ => false) [text "x=$y"] (holding (text ":") (text "a b"))).2.env (text "x") =
      some (text "a b") :=
  (assignment_copies_iff bare (fun _ => false) (text "x") (text "y") (text "a b") (holding (text ":") (text "a b"))
    ⟨by decide, by decide⟩ ⟨by decide, by decide⟩ rfl (by decide)).mpr
    (.inr ⟨by decide, .inl ⟨by decide, by decide⟩⟩)

theorem assignment_cut :
    (execAssignmentOnly bare (fun _ => false) [text "x=$y"] (holding (text " ") (text "a b"))).2.env (text "x") =
      some (text "a") := by
  have split := split_assignment_dollar bare (holding (text " ") (text "a b")) (text "x") (text "y")
    ⟨by decide, by decide⟩
  rw [wordexp_sh_name bare _ ⟨by decide, by decide⟩ (by decide) rfl (by decide)] at split
  exact exec_one bare (fun _ => false) split

end Spicule.Wordexp
