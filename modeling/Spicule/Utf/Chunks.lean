import Spicule.Utf.Mbrtowc

namespace Spicule.Utf
open List Nat Utf8

def packed (cp need seen : Nat) : Nat := cp <<< 8 ||| need <<< 4 ||| seen

def Held (st : Mbstate) : Prop :=
  st.opaque1 = 0 ∨ ∃ cp need seen, 0 < need ∧ need + seen ≤ 4 ∧ st.opaque1 = packed cp need seen

def later (k : Nat) (answer : Answer) : Answer :=
  match answer.ret with
  | .used n => { answer with ret := .used (n + k) }
  | _ => answer

theorem packed_eq (cp need seen : Nat) (need_small : need < 16) (seen_small : seen < 16) :
    packed cp need seen = (cp * 16 + need) * 16 + seen := by
  have high : cp <<< 8 ||| need <<< 4 = (cp * 16 + need) <<< 4 := by
    have room : need <<< 4 < 2 ^ 8 := by
      rw [shiftLeft_eq]
      omega
    rw [← shiftLeft_add_eq_or_of_lt room, shiftLeft_eq, shiftLeft_eq, shiftLeft_eq]
    omega
  rw [packed, high, ← shiftLeft_add_eq_or_of_lt seen_small, shiftLeft_eq]

theorem mbrtowc_resumed {cp : Nat} {need : Nat} {seen : Nat} (due : 0 < need) (small : need + seen ≤ 4) (c : UInt8) (p : List UInt8) :
    mbrtowc (c :: p) { opaque1 := packed cp need seen, opaque2 := 0 } = sequence need cp seen 0 (c :: p) := by
  have plain := packed_eq cp need seen (by omega) (by omega)
  have four (n : Nat) : n &&& 0xf = n % 16 := and_two_pow_sub_one_eq_mod n 4
  have need_back : packed cp need seen >>> 4 &&& 0xf = need := by
    rw [four, shiftRight_eq_div_pow, plain]
    omega
  have cp_back : packed cp need seen >>> 8 = cp := by
    rw [shiftRight_eq_div_pow, plain]
    omega
  have seen_back : packed cp need seen &&& 0xf = seen := by
    rw [four, plain]
    omega
  rw [mbrtowc, if_neg (not_not.mpr rfl)]
  simp only
  rw [if_pos (by omega), need_back, cp_back, seen_back]

theorem sequence_later (need cp seen used k : Nat) (p : List UInt8) :
    sequence need cp seen (used + k) p = later k (sequence need cp seen used p) := by
  induction need generalizing cp seen used p with
  | zero =>
    unfold sequence finish
    repeat' split
    all_goals rfl
  | succ need ih =>
    cases p with
    | nil => rfl
    | cons c p =>
      rw [sequence, sequence]
      split
      · rfl
      · simp only
        split
        · rfl
        · rw [Nat.add_right_comm]
          exact ih _ _ _ p

variable (need cp seen used : Nat) (p q : List UInt8)
theorem sequence_append :
    (sequence need cp seen used p).ret ≠ .incomplete ∧ sequence need cp seen used (p ++ q) = sequence need cp seen used p ∨
      ∃ cp' need' seen', 0 < need' ∧ need' + seen' = need + seen ∧
        sequence need cp seen used p = { ret := .incomplete, wc := none, st := { opaque1 := packed cp' need' seen', opaque2 := 0 } } ∧
        sequence need cp seen used (p ++ q) = sequence need' cp' seen' (used + p.length) q := by
  induction need generalizing cp seen used p with
  | zero =>
    left
    refine ⟨?_, rfl⟩
    unfold sequence finish
    repeat' split
    all_goals simp [ilseq]
  | succ need ih =>
    cases p with
    | nil => exact Or.inr ⟨cp, need + 1, seen, succ_pos _, rfl, rfl, rfl⟩
    | cons c p =>
      rw [cons_append, sequence, sequence]
      split
      · exact Or.inl ⟨by simp [ilseq], rfl⟩
      · simp only
        split
        · exact Or.inl ⟨by simp [ilseq], rfl⟩
        · rcases ih (cp <<< 6 ||| (c &&& 0x3f).toNat) (seen + 1) (used + 1) p with done | ⟨cp', need', seen', due, sum, held, taken⟩
          · exact Or.inl done
          · refine Or.inr ⟨cp', need', seen', due, by omega, held, ?_⟩
            rw [taken, length_cons, Nat.add_assoc, Nat.add_comm 1]

theorem later_zero (answer : Answer) : later 0 answer = answer := by
  unfold later
  split
  · rename_i n used
    rw [Nat.add_zero, ← used]
  · rfl

theorem sequence_used (p : List UInt8) (n : Nat) (ret : (sequence need cp seen used p).ret = .used n) :
    n = used + need ∧ need ≤ p.length := by
  induction need generalizing cp seen used p with
  | zero =>
    refine ⟨?_, Nat.zero_le _⟩
    unfold sequence finish at ret
    repeat' split at ret
    · cases ret
    · exact (Ret.used.inj ret).symm
    · exact (Ret.used.inj ret).symm
  | succ need ih =>
    cases p with
    | nil => cases ret
    | cons c p =>
      rw [sequence] at ret
      split at ret
      · cases ret
      · simp only at ret
        split at ret
        · cases ret
        · obtain ⟨count, room⟩ := ih _ _ _ p ret
          rw [length_cons]
          omega

theorem resumed_append (small : need + seen ≤ 4) :
    (sequence need cp seen used p).ret ≠ .incomplete ∧ sequence need cp seen used (p ++ q) = sequence need cp seen used p ∨
      (sequence need cp seen used p).ret = .incomplete ∧ Held (sequence need cp seen used p).st ∧
        (sequence need cp seen used p).st.opaque2 = 0 ∧
        (∀ n, (mbrtowc q (sequence need cp seen used p).st).ret = .used n → 1 ≤ n) ∧
        sequence need cp seen used (p ++ q) = later (used + p.length) (mbrtowc q (sequence need cp seen used p).st) := by
  rcases sequence_append need cp seen used p q with done | ⟨cp', need', seen', due, sum, held, taken⟩
  · exact Or.inl done
  · right
    rw [held]
    refine ⟨rfl, Or.inr ⟨cp', need', seen', due, by omega, rfl⟩, rfl, ?_⟩
    cases q with
    | nil =>
      obtain ⟨n, rfl⟩ := Nat.exists_eq_add_one.mpr due
      rw [taken]
      refine ⟨fun n ret => ?_, rfl⟩
      cases ret
    | cons c q =>
      rw [taken, mbrtowc_resumed due (by omega), ← sequence_later, Nat.zero_add]
      refine ⟨fun n ret => ?_, rfl⟩
      obtain ⟨count, _⟩ := sequence_used need' cp' seen' 0 (c :: q) n ret
      omega

theorem sequence_held (p : List UInt8) (small : need + seen ≤ 4) : Held (sequence need cp seen used p).st := by
  induction need generalizing cp seen used p with
  | zero =>
    unfold sequence finish
    repeat' split
    all_goals exact Or.inl rfl
  | succ need ih =>
    cases p with
    | nil => exact Or.inr ⟨cp, need + 1, seen, succ_pos _, small, rfl⟩
    | cons c p =>
      rw [sequence]
      split
      · exact Or.inl rfl
      · simp only
        split
        · exact Or.inl rfl
        · exact ih _ _ _ p (by omega)

inductive Calls (c : UInt8) (st : Mbstate) : (List UInt8 → Answer) → Prop where
  | at_once (answer : Answer) (done : answer.ret ≠ .incomplete) (left : Held answer.st)
      (one : ∀ n, answer.ret = .used n → n ≤ 1) : Calls c st fun _ => answer
  | lead (need cp : Nat) (small : need + 1 ≤ 4) : Calls c st fun p => sequence need cp 1 1 p
  | resumed (need cp seen : Nat) (due : 0 < need) (small : need + seen ≤ 4) : Calls c st fun p => sequence need cp seen 0 (c :: p)

theorem mbrtowc_calls (c : UInt8) {st : Mbstate} (held : Held st) (quiet : st.opaque2 = 0) :
    Calls c st fun p => mbrtowc (c :: p) st := by
  obtain ⟨opaque1, opaque2⟩ := st
  obtain rfl : opaque2 = 0 := quiet
  rcases held with fresh | ⟨cp, need, seen, due, small, same⟩
  · obtain rfl : opaque1 = 0 := fresh
    have lead := mbrtowc_lead c
    simp only [Mbstate.init] at lead
    simp only [lead]
    cases starts : announced c with
    | none => exact .at_once ilseq (by simp [ilseq]) (Or.inl rfl) (by simp [ilseq])
    | some n =>
      cases n with
      | zero =>
        refine .at_once _ (by simp) (Or.inl rfl) fun n used => ?_
        rw [← Ret.used.inj used]
        split <;> omega
      | succ n => exact .lead (n + 1) _ (by have most := announced_le c _ starts; omega)
  · obtain rfl : opaque1 = packed cp need seen := same
    simp only [mbrtowc_resumed due small]
    exact .resumed need cp seen due small

variable (s : List UInt8)
theorem mbrtowc_pending (st : Mbstate) (pending : st.opaque2 ≠ 0) :
    mbrtowc s st = { ret := .fromState, wc := some (UInt16.ofNat st.opaque2), st := { st with opaque2 := 0 } } := by
  unfold mbrtowc
  rw [if_pos pending]

variable (st : Mbstate)
theorem mbrtowc_empty (quiet : st.opaque2 = 0) : mbrtowc [] st = { ret := .incomplete, wc := none, st } := by
  rw [mbrtowc, if_neg (not_not.mpr quiet)]

theorem mbrtowc_append {st : Mbstate} (held : Held st) (quiet : st.opaque2 = 0) :
    (mbrtowc p st).ret ≠ .incomplete ∧ mbrtowc (p ++ q) st = mbrtowc p st ∨
      (mbrtowc p st).ret = .incomplete ∧ Held (mbrtowc p st).st ∧ (mbrtowc p st).st.opaque2 = 0 ∧
        (p ≠ [] → ∀ n, (mbrtowc q (mbrtowc p st).st).ret = .used n → 1 ≤ n) ∧
        mbrtowc (p ++ q) st = later p.length (mbrtowc q (mbrtowc p st).st) := by
  cases p with
  | nil =>
    rw [mbrtowc_empty st quiet]
    exact Or.inr ⟨rfl, held, quiet, fun some_byte => absurd rfl some_byte, (later_zero _).symm⟩
  | cons c p =>
    have calls := mbrtowc_calls c held quiet
    generalize call_is : (fun p => mbrtowc (c :: p) st) = call at calls
    have each (p : List UInt8) : mbrtowc (c :: p) st = call p := congrFun call_is p
    rw [cons_append, each, each]
    cases calls with
    | at_once answer done left one => exact Or.inl ⟨done, rfl⟩
    | lead need cp small =>
      rw [length_cons, Nat.add_comm]
      rcases resumed_append need cp 1 1 p q small with done | ⟨ret, left, still, more, taken⟩
      · exact Or.inl done
      · exact Or.inr ⟨ret, left, still, fun _ => more, taken⟩
    | resumed need cp seen due small =>
      rcases resumed_append need cp seen 0 (c :: p) q small with done | ⟨ret, left, still, more, taken⟩
      · exact Or.inl done
      · rw [Nat.zero_add] at taken
        exact Or.inr ⟨ret, left, still, fun _ => more, taken⟩

theorem mbrtowc_held {st : Mbstate} (held : Held st) : Held (mbrtowc s st).st := by
  by_cases quiet : st.opaque2 = 0
  · cases s with
    | nil =>
      rw [mbrtowc_empty st quiet]
      exact held
    | cons c p =>
      have calls := mbrtowc_calls c held quiet
      generalize call_is : (fun p => mbrtowc (c :: p) st) = call at calls
      rw [show mbrtowc (c :: p) st = call p from congrFun call_is p]
      cases calls with
      | at_once answer done left one => exact left
      | lead need cp small => exact sequence_held need cp 1 1 p small
      | resumed need cp seen due small => exact sequence_held need cp seen 0 (c :: p) small
  · rw [mbrtowc_pending s st quiet]
    exact held

theorem sequence_ret (p : List UInt8) : (sequence need cp seen used p).ret ≠ .fromState := by
  induction need generalizing cp seen used p with
  | zero =>
    unfold sequence finish
    repeat' split
    all_goals simp [ilseq]
  | succ need ih =>
    cases p with
    | nil => simp [sequence]
    | cons c p =>
      rw [sequence]
      split
      · simp [ilseq]
      · simp only
        split
        · simp [ilseq]
        · exact ih _ _ _ p

theorem from_state_pending {st : Mbstate} (ret : (mbrtowc s st).ret = .fromState) : st.opaque2 ≠ 0 := by
  intro quiet
  cases s with
  | nil =>
    rw [mbrtowc_empty st quiet] at ret
    cases ret
  | cons c p =>
    rw [mbrtowc, if_neg (not_not.mpr quiet)] at ret
    repeat' split at ret
    all_goals first | exact sequence_ret _ _ _ _ _ ret | cases ret

theorem used_nonempty (n : Nat) : (mbrtowc [] st).ret ≠ .used n := by
  by_cases quiet : st.opaque2 = 0
  · rw [mbrtowc_empty st quiet]
    simp
  · rw [mbrtowc_pending [] st quiet]
    simp

-- A caller that asks until its bytes are spent: its units and its state, none after an
-- EILSEQ. A 0 stands for the byte of a null.
def feed (st : Mbstate) (s : List UInt8) : List UInt16 × Option Mbstate :=
  match _ret : (mbrtowc s st).ret with
  | .ilseq => ([], none)
  | .incomplete => ([], some (mbrtowc s st).st)
  | .fromState =>
    let after := feed (mbrtowc s st).st s
    ((mbrtowc s st).wc.toList ++ after.1, after.2)
  | .used n =>
    let after := feed (mbrtowc s st).st (s.drop (max n 1))
    ((mbrtowc s st).wc.toList ++ after.1, after.2)
termination_by 2 * s.length + if st.opaque2 = 0 then 0 else 1
decreasing_by
  · have pending := from_state_pending s _ret
    rw [mbrtowc_pending s st pending, if_pos rfl, if_neg pending]
    exact lt_succ_self _
  · cases s with
    | nil => exact absurd _ret (used_nonempty st n)
    | cons c p =>
      rw [length_drop, length_cons]
      split <;> split <;> omega

def feedAll (st : Mbstate) : List (List UInt8) → List UInt16 × Option Mbstate
  | [] => ([], some st)
  | chunk :: chunks =>
    match feed st chunk with
    | (units, none) => (units, none)
    | (units, some st') => (units ++ (feedAll st' chunks).1, (feedAll st' chunks).2)

theorem used_within {st : Mbstate} (held : Held st) (quiet : st.opaque2 = 0) {n : Nat}
    (ret : (mbrtowc s st).ret = .used n) : max n 1 ≤ s.length := by
  cases s with
  | nil => exact absurd ret (used_nonempty st n)
  | cons c p =>
    have calls := mbrtowc_calls c held quiet
    generalize call_is : (fun p => mbrtowc (c :: p) st) = call at calls
    rw [show mbrtowc (c :: p) st = call p from congrFun call_is p] at ret
    rw [length_cons]
    cases calls with
    | at_once answer done left one =>
      have small := one n ret
      omega
    | lead need cp small =>
      obtain ⟨count, room⟩ := sequence_used need cp 1 1 p n ret
      omega
    | resumed need cp seen due small =>
      obtain ⟨count, room⟩ := sequence_used need cp seen 0 (c :: p) n ret
      rw [length_cons] at room
      omega

theorem feed_ilseq {s : List UInt8} (ret : (mbrtowc s st).ret = .ilseq) : feed st s = ([], none) := by
  rw [feed]
  split <;> simp_all

theorem feed_incomplete {s : List UInt8} (ret : (mbrtowc s st).ret = .incomplete) :
    feed st s = ([], some (mbrtowc s st).st) := by
  rw [feed]
  split <;> simp_all

theorem feed_from_state {s : List UInt8} (ret : (mbrtowc s st).ret = .fromState) :
    feed st s = ((mbrtowc s st).wc.toList ++ (feed (mbrtowc s st).st s).1, (feed (mbrtowc s st).st s).2) := by
  rw [feed]
  split <;> simp_all

theorem feed_used {s : List UInt8} {n : Nat} (ret : (mbrtowc s st).ret = .used n) :
    feed st s = ((mbrtowc s st).wc.toList ++ (feed (mbrtowc s st).st (s.drop (max n 1))).1,
      (feed (mbrtowc s st).st (s.drop (max n 1))).2) := by
  rw [feed]
  split <;> simp_all

def followed (first : List UInt16 × Option Mbstate) (next : Mbstate → List UInt16 × Option Mbstate) : List UInt16 × Option Mbstate :=
  match first.2 with
  | none => (first.1, none)
  | some st => (first.1 ++ (next st).1, (next st).2)

theorem followed_append (units : List UInt16) (first : List UInt16 × Option Mbstate) (next : Mbstate → List UInt16 × Option Mbstate) :
    followed (units ++ first.1, first.2) next = (units ++ (followed first next).1, (followed first next).2) := by
  unfold followed
  cases first.2 with
  | none => rfl
  | some st => simp only [append_assoc]

theorem later_ret (k : Nat) (answer : Answer) (other : ∀ n, answer.ret ≠ .used n) : later k answer = answer := by
  unfold later
  split
  · rename_i n used
    exact absurd used (other n)
  · rfl

theorem quiet_of_ret (st : Mbstate) (ret : (mbrtowc s st).ret ≠ .fromState) : st.opaque2 = 0 := by
  by_contra pending
  rw [mbrtowc_pending s st pending] at ret
  exact ret rfl

theorem feed_incomplete_append (s q : List UInt8) (held : Held st) (ret : (mbrtowc s st).ret = .incomplete) :
    feed st (s ++ q) = feed (mbrtowc s st).st q := by
  have quiet := quiet_of_ret s st (by rw [ret]; simp)
  rcases mbrtowc_append s q held quiet with ⟨done, _⟩ | ⟨_, _, still, some_more, taken⟩
  · exact absurd ret done
  · cases s with
    | nil => rw [mbrtowc_empty st quiet, nil_append]
    | cons c p =>
      cases answer : (mbrtowc q (mbrtowc (c :: p) st).st).ret with
      | ilseq =>
        rw [later_ret _ _ (by simp [answer])] at taken
        rw [feed_ilseq _ answer, feed_ilseq _ (by rw [taken, answer])]
      | incomplete =>
        rw [later_ret _ _ (by simp [answer])] at taken
        rw [feed_incomplete _ answer, feed_incomplete _ (by rw [taken, answer]), taken]
      | fromState => exact absurd still (from_state_pending _ answer)
      | used n =>
        have some_byte := some_more (cons_ne_nil c p) n answer
        have ret' : (mbrtowc (c :: p ++ q) st).ret = .used (n + (c :: p).length) := by
          rw [taken, later, answer]
        have wc : (mbrtowc (c :: p ++ q) st).wc = (mbrtowc q (mbrtowc (c :: p) st).st).wc := by
          rw [taken, later, answer]
        have left : (mbrtowc (c :: p ++ q) st).st = (mbrtowc q (mbrtowc (c :: p) st).st).st := by
          rw [taken, later, answer]
        have count : max (n + (c :: p).length) 1 = (c :: p).length + max n 1 := by
          rw [length_cons]
          omega
        rw [feed_used _ ret', feed_used _ answer, wc, left, count, ← drop_drop, drop_left]

theorem feed_append (s q : List UInt8) (held : Held st) : feed st (s ++ q) = followed (feed st s) fun st' => feed st' q := by
  induction st, s using feed.induct with
  | case1 st s ret =>
    have quiet := quiet_of_ret s st (by rw [ret]; simp)
    rcases mbrtowc_append s q held quiet with ⟨_, same⟩ | ⟨stopped, _⟩
    · rw [feed_ilseq st ret, feed_ilseq st (by rw [same, ret])]
      rfl
    · rw [ret] at stopped
      cases stopped
  | case2 st s ret =>
    rw [feed_incomplete st ret, feed_incomplete_append st s q held ret]
    rfl
  | case3 st s ret ih =>
    have pending := from_state_pending s ret
    have same : mbrtowc (s ++ q) st = mbrtowc s st := by
      rw [mbrtowc_pending _ st pending, mbrtowc_pending s st pending]
    rw [feed_from_state st ret, feed_from_state st (by rw [same, ret]), same, ih (mbrtowc_held s held), followed_append]
  | case4 st s n ret ih =>
    have quiet := quiet_of_ret s st (by rw [ret]; simp)
    rcases mbrtowc_append s q held quiet with ⟨_, same⟩ | ⟨stopped, _⟩
    · have room := used_within s held quiet ret
      rw [feed_used st ret, feed_used st (by rw [same, ret]), same, drop_append_of_le_length room,
        ih (mbrtowc_held s held), followed_append]
    · rw [ret] at stopped
      cases stopped

theorem feed_left {s : List UInt8} (held : Held st) {st' : Mbstate} (left : (feed st s).2 = some st') :
    Held st' ∧ st'.opaque2 = 0 := by
  induction st, s using feed.induct with
  | case1 st s ret =>
    rw [feed_ilseq st ret] at left
    cases left
  | case2 st s ret =>
    have quiet := quiet_of_ret s st (by rw [ret]; simp)
    rw [feed_incomplete st ret] at left
    rcases mbrtowc_append s [] held quiet with ⟨done, _⟩ | ⟨_, still_held, still_quiet, _⟩
    · exact absurd ret done
    · rw [← Option.some.inj left]
      exact ⟨still_held, still_quiet⟩
  | case3 st s ret ih =>
    rw [feed_from_state st ret] at left
    exact ih (mbrtowc_held s held) left
  | case4 st s n ret ih =>
    rw [feed_used st ret] at left
    exact ih (mbrtowc_held s held) left

theorem feed_all_followed (chunk : List UInt8) (chunks : List (List UInt8)) :
    feedAll st (chunk :: chunks) = followed (feed st chunk) fun st' => feedAll st' chunks := by
  rw [feedAll]
  unfold followed
  cases feed st chunk with
  | mk units stop =>
    cases stop with
    | none | some => rfl

theorem feed_all_flatten {chunks : List (List UInt8)} (held : Held st) (quiet : st.opaque2 = 0) :
    feedAll st chunks = feed st chunks.flatten := by
  induction chunks generalizing st with
  | nil =>
    rw [flatten_nil, feed_incomplete st (by rw [mbrtowc_empty st quiet]), mbrtowc_empty st quiet]
    rfl
  | cons chunk chunks ih =>
    rw [feed_all_followed, flatten_cons, feed_append st chunk _ held]
    unfold followed
    cases left : (feed st chunk).2 with
    | none => rfl
    | some st' =>
      obtain ⟨held', quiet'⟩ := feed_left st held left
      simp only [ih st' held' quiet']

-- The units and the place of a failure do not depend on where the string is cut.
theorem chunks_alike (chunks : List (List UInt8)) : feedAll .init chunks = feedAll .init [chunks.flatten] := by
  rw [feed_all_flatten .init (Or.inl rfl) rfl, feed_all_flatten .init (Or.inl rfl) rfl, flatten_singleton]

end Spicule.Utf
