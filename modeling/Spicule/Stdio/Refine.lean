import Spicule.Stdio.Ideal

namespace Spicule.Stdio
open List Overwrite

structure Setup (f : File) (i : Ideal) : Prop where
  valid : f.src.Valid
  readable : f.readable = i.readable
  writable : f.writable = i.writable
  append : f.src.append = i.append
  cap : f.src.cap = i.cap
  sized : ∀ cells, f.buf = some cells → cells.length = f.bufsz ∧ 0 < f.bufsz
  narrow : f.bufmode = .unbuffered → ∀ cells, f.buf = some cells → f.bufsz = 1

-- Nothing is pending; the buffer may hold bytes before the source's position.
structure Reading (f : File) (i : Ideal) : Prop where
  written : f.wpos = 0
  order : f.rpos ≤ f.rend
  held : f.rend ≤ f.cells.length
  allowed : f.rpos < f.rend → f.readable = true
  behind : f.rend - f.rpos ≤ f.src.offset
  ahead : f.unread = (f.src.contents.drop (f.src.offset - (f.rend - f.rpos))).take (f.rend - f.rpos)
  bytes : i.bytes = f.src.contents
  pos : i.pos = f.src.offset - (f.rend - f.rpos)

-- Nothing is read ahead; the buffer may hold bytes still to be written.
structure Poised (f : File) (i : Ideal) : Prop where
  caught : f.rpos = f.rend
  held : f.rend ≤ f.cells.length
  inside : f.wpos ≤ f.cells.length
  buffered : f.bufmode = .unbuffered → f.wpos = 0
  allowed : 0 < f.wpos → f.writable = true ∧ f.src.Room f.wpos
  bytes : i.bytes = overwrite 0 f.src.contents f.src.base f.pending
  pos : i.pos = if f.wpos = 0 then f.src.offset else f.src.base + f.wpos

def Refines (f : File) (i : Ideal) : Prop :=
  Setup f i ∧ (Reading f i ∧ (f.bufmode = .unbuffered → f.rpos = f.rend) ∨
    Poised f i ∧ 0 < f.wpos ∧ f.wpos < f.cells.length)

section
variable {f : File} {i : Ideal}
theorem Setup.cells_le (setup : Setup f i) : f.cells.length ≤ f.bufsz := by
  unfold File.cells
  cases held : f.buf with
  | none => exact Nat.zero_le _
  | some cells => exact Nat.le_of_eq (setup.sized cells held).1

theorem Reading.poised (reading : Reading f i) (caught : f.rpos = f.rend) : Poised f i := by
  have empty : f.pending = [] := by rw [File.pending, reading.written, take_zero]
  have position := reading.pos
  rw [caught, Nat.sub_self, Nat.sub_zero] at position
  refine ⟨caught, reading.held, ?_, fun _ => reading.written, fun some_pending => ?_, ?_, ?_⟩
  · rw [reading.written]
    exact Nat.zero_le _
  · exact absurd reading.written (Nat.pos_iff_ne_zero.mp some_pending)
  · rw [empty, overwrite_nil]
    exact reading.bytes
  · rw [if_pos reading.written]
    exact position

theorem settled (setup : Setup f i) (t : Source) (kind : Source.SameKind f.src t) (valid : t.Valid)
    (bytes : i.bytes = t.contents) (pos : i.pos = t.offset) (r : Nat) (held : r ≤ f.cells.length) :
    Setup { f with src := t, wpos := 0, rpos := r, rend := r } i ∧
      Reading { f with src := t, wpos := 0, rpos := r, rend := r } i := by
  refine ⟨{ setup with valid := valid, append := kind.append.trans setup.append, cap := kind.cap.trans setup.cap }, ⟨rfl, Nat.le_refl r, held, fun ahead => absurd ahead (Nat.lt_irrefl r), ?_, ?_, bytes, ?_⟩⟩
  · rw [Nat.sub_self]
    exact Nat.zero_le _
  · simp [File.unread]
  · rw [Nat.sub_self]
    exact pos

theorem Poised.reading (poised : Poised f i) (empty : f.wpos = 0) : Reading f i := by
  have position := poised.pos
  have contents := poised.bytes
  rw [if_pos empty] at position
  rw [File.pending, empty, take_zero, overwrite_nil] at contents
  have none_ahead : f.rend - f.rpos = 0 := by rw [poised.caught, Nat.sub_self]
  refine ⟨empty, Nat.le_of_eq poised.caught, poised.held, fun ahead => ?_, ?_, ?_, contents, ?_⟩
  · exact absurd ahead (poised.caught ▸ Nat.lt_irrefl _)
  · rw [none_ahead]
    exact Nat.zero_le _
  · rw [File.unread, none_ahead, take_zero, take_zero]
  · rw [none_ahead]
    exact position

theorem Poised.base (setup : Setup f i) (poised : Poised f i) : i.base = f.src.base + f.wpos := by
  have same := setup.append
  have contents := poised.bytes
  have position := poised.pos
  unfold Ideal.base
  rw [← same]
  cases appends : f.src.append with
  | false =>
    rw [if_neg Bool.false_ne_true, position]
    split
    · rename_i none_pending
      rw [none_pending, Nat.add_zero, Source.base, appends, if_neg Bool.false_ne_true]
    · rfl
  | true =>
    have start : f.src.base = f.src.contents.length := by rw [Source.base, appends, if_pos rfl]
    rw [if_pos rfl, contents, start, overwrite_end, length_append, File.pending, length_take,
      Nat.min_eq_left poised.inside]

end

theorem resync_caught (f : File) (caught : f.rpos = f.rend) :
    ∃ r ≤ f.rend, resync f = (true, { f with src := memPublish f.src, rpos := r, rend := r }) := by
  unfold resync
  split
  · rw [if_neg (by omega)]
    exact ⟨0, Nat.zero_le _, rfl⟩
  · refine ⟨f.rend, Nat.le_refl _, ?_⟩
    rw [← caught]

theorem offset_le {s : Source} (valid : s.Valid) : s.offset ≤ llongMax := by
  cases s with
  | fd d => exact valid.1
  | mem m => exact valid.2.2.1

theorem offset_capped (s : Source) (valid : s.Valid) (p : Nat) (low : p ≤ s.offset) : s.cap.any (· < p) = false := by
  cases s with
  | fd d => rfl
  | mem m =>
    obtain ⟨_, _, _, rest⟩ := valid
    change p ≤ m.pos at low
    change Option.any _ (if m.dynamic then none else some m.buf.length) = false
    cases kind : m.dynamic with
    | true => rfl
    | false =>
      rw [kind, if_neg Bool.false_ne_true] at rest
      rw [if_neg Bool.false_ne_true, Option.any_some, decide_eq_false_iff_not]
      omega

theorem seek_back {s : Source} (valid : s.Valid) (k : Nat) (behind : k ≤ s.offset) :
    ∃ t, fileSeek s (-(k : Int)) .cur = (some (s.offset - k), t) ∧ s.Moved t (s.offset - k) := by
  have bound := offset_le valid
  have reached : target s.offset s.contents.length (-(k : Int)) .cur = some (s.offset - k) := by
    unfold target
    rw [seekBase, Option.bind_some, if_pos (by omega)]
    congr 1
    omega
  exact Source.file_seek_moved valid reached (offset_capped s valid _ (Nat.sub_le _ _))

section
variable {f : File} {i : Ideal}
theorem flush_poised (setup : Setup f i) (poised : Poised f i) : ∃ g, fflushLocked f = (true, g) ∧ Setup g i ∧
    Reading g i ∧ g.rpos = g.rend ∧ f.src.SameKind g.src := by
  unfold fflushLocked
  by_cases some_pending : 0 < f.wpos
  · obtain ⟨writable, room⟩ := poised.allowed some_pending
    have length : f.pending.length = f.wpos := by rw [File.pending, length_take, Nat.min_eq_left poised.inside]
    have filled : f.pending ≠ [] := length_pos_iff.mp (by omega)
    obtain ⟨t, ran, wrote⟩ := Source.write_all_spec f.wpos f.src f.pending (Nat.le_of_eq length) setup.valid filled
      (by rw [length]; exact room)
    have fits : ¬ f.bufsz < f.wpos := Nat.not_lt.mpr (Nat.le_trans poised.inside setup.cells_le)
    rw [if_pos ⟨writable, some_pending⟩, if_neg fits, ran]
    dsimp only
    obtain ⟨r, low, synced⟩ := resync_caught { f with src := t, wpos := 0 } poised.caught
    have published := Source.publish_moved wrote.valid
    rw [synced]
    have position := poised.pos
    rw [if_neg (by omega)] at position
    have result := settled setup (memPublish t) (wrote.kind.trans published.kind) published.valid
      (by rw [published.contents, wrote.contents]; exact poised.bytes)
      (by rw [published.offset, wrote.offset, length]; exact position) r (Nat.le_trans low poised.held)
    exact ⟨_, rfl, result.1, result.2, rfl, wrote.kind.trans published.kind⟩
  · have empty : f.wpos = 0 := by omega
    rw [if_neg (fun both => some_pending both.2)]
    obtain ⟨r, low, synced⟩ := resync_caught { f with wpos := 0 } poised.caught
    have published := Source.publish_moved setup.valid
    have reading := poised.reading empty
    have position := poised.pos
    rw [if_pos empty] at position
    rw [synced]
    have result := settled setup (memPublish f.src) published.kind published.valid
      (by rw [published.contents]; exact reading.bytes) (by rw [published.offset]; exact position) r
      (Nat.le_trans low poised.held)
    exact ⟨_, rfl, result.1, result.2, rfl, published.kind⟩

theorem flush_reading (setup : Setup f i) (reading : Reading f i)
    (kept : f.src.isMem = true → f.readable = true → f.rpos = f.rend) : ∃ g, fflushLocked f = (true, g) ∧ Setup g i ∧
      Reading g i ∧ g.rpos = g.rend ∧ f.src.SameKind g.src := by
  by_cases caught : f.rpos = f.rend
  · exact flush_poised setup (reading.poised caught)
  · have ahead : f.rpos < f.rend := by have order := reading.order; omega
    have readable := reading.allowed ahead
    have descriptor : f.src.isMem = false := Bool.eq_false_iff.mpr fun isMem => caught (kept isMem readable)
    obtain ⟨t, sought, moved⟩ := seek_back setup.valid (f.rend - f.rpos) reading.behind
    have published := Source.publish_moved moved.valid
    have empty := reading.written
    have result := settled setup (memPublish t) (moved.kind.trans published.kind) published.valid
      (by rw [published.contents, moved.contents]; exact reading.bytes)
      (by rw [published.offset, moved.offset]; exact reading.pos) 0 (Nat.zero_le _)
    refine ⟨_, ?_, result.1, result.2, rfl, moved.kind.trans published.kind⟩
    unfold fflushLocked resync
    rw [if_neg (by omega)]
    dsimp only
    rw [if_pos readable, if_pos ⟨ahead, descriptor⟩, sought]

theorem toread_spec (refines : Refines f i) : ∃ g, toread f = (true, g) ∧ Setup g i ∧ Reading g i ∧
    (g.bufmode = .unbuffered → g.rpos = g.rend) := by
  obtain ⟨setup, ⟨reading, direct⟩ | ⟨poised, pending, _⟩⟩ := refines
  · refine ⟨f, ?_, setup, reading, direct⟩
    rw [toread, if_neg (by rw [reading.written]; exact Nat.lt_irrefl 0)]
  · obtain ⟨g, flushed, after, reading, caught, _⟩ := flush_poised setup poised
    refine ⟨g, ?_, after, reading, fun _ => caught⟩
    rw [toread, if_pos pending]
    exact flushed

theorem towrite_spec (refines : Refines f i) : ∃ g, towrite f = (true, g) ∧ Setup g i ∧ Poised g i ∧
    (g.wpos = 0 ∨ g.wpos < g.cells.length) ∧ f.src.SameKind g.src ∧ g.src.cell = f.src.cell := by
  obtain ⟨setup, ⟨reading, _⟩ | ⟨poised, _, room⟩⟩ := refines
  · by_cases ahead : f.rpos < f.rend
    · obtain ⟨t, sought, moved⟩ := seek_back setup.valid (f.rend - f.rpos) reading.behind
      have result := settled setup t moved.kind moved.valid (by rw [moved.contents]; exact reading.bytes)
        (by rw [moved.offset]; exact reading.pos) 0 (Nat.zero_le _)
      refine ⟨_, ?_, result.1, result.2.poised rfl, .inl rfl, moved.kind, moved.cell⟩
      rw [towrite, if_pos ahead, sought, reading.written]
    · have order := reading.order
      refine ⟨f, ?_, setup, reading.poised (by omega), .inl reading.written, Source.SameKind.refl _, rfl⟩
      rw [towrite, if_neg ahead]
  · refine ⟨f, ?_, setup, poised, .inr room, Source.SameKind.refl _, rfl⟩
    rw [towrite, if_neg (by rw [poised.caught]; exact Nat.lt_irrefl _)]

end

section
variable {f : File} {i : Ideal}
theorem ensure_cases (setup : Setup f i) : ∃ cells sz, ensureBuf f = { f with buf := some cells, bufsz := sz } ∧
    cells.length = sz ∧ 0 < sz ∧ (f.bufmode = .unbuffered → sz = 1) ∧ (f.cells = cells ∨ f.cells = []) := by
  unfold ensureBuf
  cases held : f.buf with
  | some cells =>
    obtain ⟨length, some_size⟩ := setup.sized cells held
    refine ⟨cells, f.bufsz, congrArg (fun buf => { f with buf := buf }) held, length, some_size,
      fun direct => setup.narrow direct cells held, ?_⟩
    rw [File.cells, held]
    exact .inl rfl
  | none =>
    refine ⟨_, _, rfl, length_replicate, ?_, fun direct => if_pos direct, ?_⟩
    · split
      · exact Nat.one_pos
      · split
        · exact Nat.zero_lt_succ _
        · omega
    · rw [File.cells, held]
      exact .inr rfl

theorem ensure_setup (setup : Setup f i) : Setup (ensureBuf f) i := by
  obtain ⟨cells, sz, made, length, some_size, narrow, _⟩ := ensure_cases setup
  rw [made]
  refine { setup with sized := ?_, narrow := ?_ }
  · intro other same
    cases same
    exact ⟨length, some_size⟩
  · exact fun direct _ _ => narrow direct

theorem ensure_poised (setup : Setup f i) (poised : Poised f i) : Poised (ensureBuf f) i := by
  obtain ⟨cells, sz, made, length, some_size, narrow, same⟩ := ensure_cases setup
  have held := poised.held
  have inside := poised.inside
  have contents := poised.bytes
  have longer : f.cells.length ≤ cells.length := by
    rcases same with same | same
    · exact Nat.le_of_eq (congrArg List.length same)
    · rw [same]
      exact Nat.zero_le _
  have pending : f.pending = cells.take f.wpos := by
    rw [File.pending]
    rcases same with same | same
    · rw [same]
    · rw [same, length_nil] at inside
      rw [same, Nat.le_zero.mp inside, take_zero, take_zero]
  rw [made]
  refine { poised with held := Nat.le_trans held longer, inside := Nat.le_trans inside longer, bytes := ?_ }
  rw [contents, pending]
  rfl

theorem ensure_reading (setup : Setup f i) (reading : Reading f i) (caught : f.rpos = f.rend) :
    Reading (ensureBuf f) i := by
  have poised := ensure_poised setup (reading.poised caught)
  obtain ⟨cells, sz, made, _⟩ := ensure_cases setup
  rw [made] at poised ⊢
  exact poised.reading reading.written

theorem Reading.next (reading : Reading f i) : f.unread = (i.bytes.drop i.pos).take (f.rend - f.rpos) := by
  rw [reading.bytes, reading.pos]
  exact reading.ahead

theorem Reading.unread_length (reading : Reading f i) : f.unread.length = f.rend - f.rpos := by
  have held := reading.held
  rw [File.unread, length_take, length_drop]
  omega

theorem Reading.consume (setup : Setup f i) (reading : Reading f i) (n : Nat) (inside : n ≤ f.rend - f.rpos) :
    (f.cells.drop f.rpos).take n = (i.bytes.drop i.pos).take n ∧ n ≤ (i.bytes.drop i.pos).length ∧
      Setup { f with rpos := f.rpos + n } { i with pos := i.pos + n } ∧
      Reading { f with rpos := f.rpos + n } { i with pos := i.pos + n } := by
  have order := reading.order
  have behind := reading.behind
  have next := reading.next
  have length := reading.unread_length
  have position := reading.pos
  have taken : ∀ xs : Bytes, xs.take n = (xs.take (f.rend - f.rpos)).take n := by
    intro xs
    rw [take_take, Nat.min_eq_left inside]
  refine ⟨?_, ?_, { setup with }, ?_⟩
  · rw [taken, taken (i.bytes.drop i.pos), ← next]
    rfl
  · rw [next, length_take] at length
    omega
  · have left : f.rend - (f.rpos + n) = f.rend - f.rpos - n := by omega
    refine ⟨reading.written, by dsimp only; omega, reading.held, fun more => reading.allowed ?_, ?_, ?_, reading.bytes, ?_⟩
    · dsimp only at more
      omega
    · dsimp only
      omega
    · change (f.cells.drop (f.rpos + n)).take (f.rend - (f.rpos + n)) =
        (f.src.contents.drop (f.src.offset - (f.rend - (f.rpos + n)))).take (f.rend - (f.rpos + n))
      have start : f.src.offset - (f.rend - f.rpos - n) = f.src.offset - (f.rend - f.rpos) + n := by omega
      have dropped : ∀ xs : Bytes, (xs.drop n).take (f.rend - f.rpos - n) = (xs.take (f.rend - f.rpos)).drop n :=
        fun xs => drop_take.symm
      rw [left, start, ← drop_drop, ← drop_drop, dropped, dropped, ← reading.ahead]
      rfl
    · dsimp only
      omega

theorem Setup.flagged (setup : Setup f i) (eof err : Bool) : Setup { f with eof := eof, err := err } i :=
  { setup with }

theorem Reading.flagged (reading : Reading f i) (eof err : Bool) : Reading { f with eof := eof, err := err } i :=
  ⟨reading.written, reading.order, reading.held, reading.allowed, reading.behind, reading.ahead, reading.bytes, reading.pos⟩

theorem filled_spec (setup : Setup f i) (reading : Reading f i) (caught : f.rpos = f.rend) (readable : f.readable = true)
    (cells : Bytes) (held : f.buf = some cells) {data : Bytes} {t : Source} (fits : data.length ≤ f.bufsz)
    (read : data = (f.src.contents.drop f.src.offset).take data.length) (moved : f.src.Moved t (f.src.offset + data.length)) :
    Setup { f with src := t, buf := some (data ++ f.cells.drop data.length), rpos := 0, rend := data.length } i ∧
      Reading { f with src := t, buf := some (data ++ f.cells.drop data.length), rpos := 0, rend := data.length } i := by
  obtain ⟨length, some_size⟩ := setup.sized cells held
  have same : f.cells = cells := by rw [File.cells, held]; rfl
  have position := reading.pos
  rw [caught, Nat.sub_self, Nat.sub_zero] at position
  refine ⟨⟨moved.valid, setup.readable, setup.writable, moved.kind.append.trans setup.append,
    moved.kind.cap.trans setup.cap, ?_, fun direct _ _ => setup.narrow direct cells held⟩,
    ⟨reading.written, Nat.zero_le _, ?_, fun _ => readable, ?_, ?_, ?_, ?_⟩⟩
  · intro other made
    cases made
    refine ⟨?_, some_size⟩
    rw [length_append, length_drop, same]
    dsimp only
    omega
  · change data.length ≤ (data ++ f.cells.drop data.length).length
    rw [length_append]
    exact Nat.le_add_right _ _
  · change data.length - 0 ≤ t.offset
    rw [moved.offset]
    omega
  · change ((data ++ f.cells.drop data.length).drop 0).take (data.length - 0) =
      (t.contents.drop (t.offset - (data.length - 0))).take (data.length - 0)
    rw [Nat.sub_zero, drop_zero, take_left, moved.contents, moved.offset, Nat.add_sub_cancel, ← read]
  · rw [moved.contents]
    exact reading.bytes
  · change i.pos = t.offset - (data.length - 0)
    rw [moved.offset, Nat.sub_zero, Nat.add_sub_cancel]
    exact position

theorem fill_spec (setup : Setup f i) (reading : Reading f i) (caught : f.rpos = f.rend) (readable : f.readable = true) :
    ∃ more g, fill f = (more, g) ∧ Setup g i ∧ Reading g i ∧ (more = true → g.rpos < g.rend) ∧
      (more = false → g.rpos = g.rend ∧ i.bytes.length ≤ i.pos) ∧
      (g.bufmode = .unbuffered → g.rend - g.rpos ≤ 1) ∧ g.bufmode = f.bufmode := by
  have made := ensure_cases setup
  have after := ensure_setup setup
  have clean := ensure_reading setup reading caught
  unfold fill
  dsimp only
  generalize ensureBuf f = e at *
  obtain ⟨cells, sz, rfl, length, some_size, narrow, _⟩ := made
  obtain ⟨k, t, read, short, some_read, moved⟩ := Source.file_read_spec setup.valid sz
  have some_moved := some_read some_size
  have position := clean.pos
  dsimp only at position ⊢
  rw [caught, Nat.sub_self, Nat.sub_zero] at position
  rw [read]
  cases shape : (f.src.contents.drop f.src.offset).take k with
  | nil =>
    rw [shape, length_nil, Nat.add_zero] at moved
    have result := settled after t moved.kind moved.valid (by rw [moved.contents]; exact clean.bytes)
      (by rw [moved.offset]; exact position) 0 (Nat.zero_le _)
    refine ⟨false, _, rfl, ?_, ?_, nofun, fun _ => ⟨rfl, ?_⟩, fun _ => Nat.zero_le 1, rfl⟩
    · rw [reading.written]
      exact result.1.flagged true f.err
    · rw [reading.written]
      exact result.2.flagged true f.err
    · have past : f.src.contents.drop f.src.offset = [] :=
        (take_eq_nil_iff.mp shape).resolve_left (Nat.pos_iff_ne_zero.mp some_moved)
      rw [reading.bytes, position]
      exact drop_eq_nil_iff.mp past
  | cons c data =>
    have whole : c :: data = (f.src.contents.drop f.src.offset).take (c :: data).length := by
      rw [← shape]
      exact prefix_iff_eq_take.mp (List.take_prefix k _)
    have fits : (c :: data).length ≤ sz := by
      rw [← shape, length_take]
      omega
    rw [shape] at moved
    have result := filled_spec after clean caught readable cells rfl fits whole moved
    refine ⟨true, _, rfl, result.1, result.2, fun _ => Nat.zero_lt_succ _, nofun, fun direct => ?_, rfl⟩
    rw [narrow direct] at fits
    exact fits

end

section
variable {f : File} {i : Ideal} (want : Nat)
theorem read_split {i : Ideal} (k : Nat) (short : k ≤ want) (held : k ≤ (i.bytes.drop i.pos).length) :
    i.read want = ((i.bytes.drop i.pos).take k ++ (Ideal.read { i with pos := i.pos + k } (want - k)).1,
      (Ideal.read { i with pos := i.pos + k } (want - k)).2) := by
  have parts : (i.bytes.drop i.pos).take want =
      (i.bytes.drop i.pos).take k ++ (i.bytes.drop (i.pos + k)).take (want - k) := by
    conv_lhs => rw [← Nat.add_sub_of_le short]
    rw [take_add, drop_drop]
  unfold Ideal.read
  dsimp only
  rw [parts, length_append, length_take, Nat.min_eq_left held, Nat.add_assoc]

theorem read_none {i : Ideal} (past : i.bytes.length ≤ i.pos) : i.read want = ([], i) := by
  unfold Ideal.read
  rw [drop_eq_nil_of_le past, take_nil]
  rfl

theorem read_zero (i : Ideal) : i.read 0 = ([], i) := by
  unfold Ideal.read
  rw [take_zero]
  rfl

theorem direct_read (setup : Setup f i) (reading : Reading f i) (caught : f.rpos = f.rend) (n : Nat) (some_asked : 0 < n) :
    ∃ data t, fileRead f.src n = (data, t) ∧ data = (i.bytes.drop i.pos).take data.length ∧ data.length ≤ n ∧
      (data = [] → i.bytes.length ≤ i.pos) ∧ Setup { f with src := t } { i with pos := i.pos + data.length } ∧
      Reading { f with src := t } { i with pos := i.pos + data.length } := by
  obtain ⟨k, t, read, short, some_read, moved⟩ := Source.file_read_spec setup.valid n
  have position := reading.pos
  rw [caught, Nat.sub_self, Nat.sub_zero] at position
  have none_ahead : f.rend - f.rpos = 0 := by rw [caught, Nat.sub_self]
  rw [← position, ← reading.bytes] at moved
  refine ⟨_, t, read, ?_, ?_, ?_, ?_, ?_⟩
  · rw [reading.bytes, position]
    exact prefix_iff_eq_take.mp (List.take_prefix k _)
  · rw [length_take]
    omega
  · intro empty
    have past := (take_eq_nil_iff.mp empty).resolve_left (Nat.pos_iff_ne_zero.mp (some_read some_asked))
    rw [reading.bytes, position]
    exact drop_eq_nil_iff.mp past
  · exact { setup with valid := moved.valid, append := moved.kind.append.trans setup.append, cap := moved.kind.cap.trans setup.cap }
  · refine ⟨reading.written, reading.order, reading.held, reading.allowed, ?_, ?_, ?_, ?_⟩
    · dsimp only
      rw [none_ahead]
      exact Nat.zero_le _
    · rw [File.unread]
      dsimp only
      rw [none_ahead, take_zero, take_zero]
    · rw [moved.contents]
      exact reading.bytes
    · dsimp only
      rw [none_ahead, Nat.sub_zero, moved.offset, position, reading.bytes]

theorem fread_loop_zero (fuel : Nat) (got : Bytes) (f : File) : freadLoop fuel 0 got f = (got, f) := by
  cases fuel <;> rfl

theorem fread_loop_spec (fuel : Nat) (got : Bytes) (setup : Setup f i) (reading : Reading f i)
    (readable : f.readable = true) (direct : f.bufmode = .unbuffered → f.rend - f.rpos ≤ want)
    (enough : 2 * want + (if f.rpos < f.rend then 0 else 1) ≤ fuel) :
    ∃ g, freadLoop fuel want got f = (got ++ (i.read want).1, g) ∧ Setup g (i.read want).2 ∧ Reading g (i.read want).2 ∧
      (g.bufmode = .unbuffered → g.rpos = g.rend) := by
  induction fuel generalizing f i want got with
  | zero =>
    have nothing : want = 0 := by omega
    subst nothing
    rw [read_zero, append_nil]
    refine ⟨f, rfl, setup, reading, fun unbuffered => ?_⟩
    have left := direct unbuffered
    have order := reading.order
    omega
  | succ fuel ih =>
    have order := reading.order
    by_cases nothing : want = 0
    · subst nothing
      rw [read_zero, append_nil, fread_loop_zero]
      refine ⟨f, rfl, setup, reading, fun unbuffered => ?_⟩
      have left := direct unbuffered
      omega
    · rw [freadLoop, if_neg nothing]
      by_cases ahead : f.rpos < f.rend
      · -- Some bytes are in the buffer: take what is wanted of them.
        have inside : min want (f.rend - f.rpos) ≤ f.rend - f.rpos := Nat.min_le_right _ _
        obtain ⟨same, held, after, onward⟩ := Reading.consume setup reading _ inside
        rw [if_pos ahead] at enough ⊢
        dsimp only
        have progress : 2 * (want - min want (f.rend - f.rpos)) + 1 ≤ fuel := by omega
        obtain ⟨g, ran, rest⟩ := ih (want - min want (f.rend - f.rpos))
          (got ++ (f.cells.drop f.rpos).take (min want (f.rend - f.rpos))) after onward readable
          (fun unbuffered => by have left := direct unbuffered; dsimp only; omega)
          (by split <;> omega)
        rw [read_split want _ (Nat.min_le_left _ _) held]
        rw [same, append_assoc] at ran
        rw [same]
        exact ⟨g, ran, rest⟩
      · have caught : f.rpos = f.rend := by omega
        rw [if_neg ahead] at enough ⊢
        by_cases large : (if f.bufsz = 0 then bufsiz else f.bufsz) ≤ want
        · -- The request is at least a buffer long: read past the buffer.
          rw [if_pos large]
          obtain ⟨data, t, read, whole, short, past, after, onward⟩ :=
            direct_read setup reading caught want (Nat.pos_of_ne_zero nothing)
          rw [read]
          cases data with
          | nil =>
            rw [read_none want (past rfl), append_nil]
            exact ⟨_, rfl, after.flagged true f.err, onward.flagged true f.err, fun _ => caught⟩
          | cons c data =>
            have held : (c :: data).length ≤ (i.bytes.drop i.pos).length := by
              rw [whole, length_take]
              exact Nat.min_le_right _ _
            have some_read : 0 < (c :: data).length := Nat.zero_lt_succ _
            obtain ⟨g, ran, rest⟩ := ih (want - (c :: data).length) (got ++ c :: data) after onward readable
              (fun _ => by dsimp only; omega) (by rw [if_neg ahead]; omega)
            rw [read_split want _ short held, ← whole]
            rw [append_assoc] at ran
            exact ⟨g, ran, rest⟩
        · obtain ⟨more, g, filled, after, onward, some_left, none_left, narrow, _⟩ := fill_spec setup reading caught readable
          rw [if_neg large, filled]
          cases more with
          | false =>
            obtain ⟨empty, past⟩ := none_left rfl
            rw [read_none want past, append_nil]
            exact ⟨g, rfl, after, onward, fun _ => empty⟩
          | true =>
            have ready := some_left rfl
            exact ih want got after onward (onward.allowed ready)
              (fun unbuffered => Nat.le_trans (narrow unbuffered) (Nat.pos_of_ne_zero nothing))
              (by rw [if_pos ready]; omega)

theorem Poised.flagged (poised : Poised f i) (eof err : Bool) : Poised { f with eof := eof, err := err } i :=
  { poised with }

theorem Refines.flagged (refines : Refines f i) (eof err : Bool) : Refines { f with eof := eof, err := err } i := by
  obtain ⟨setup, ⟨reading, direct⟩ | ⟨poised, pending, room⟩⟩ := refines
  · exact ⟨setup.flagged eof err, .inl ⟨reading.flagged eof err, direct⟩⟩
  · exact ⟨setup.flagged eof err, .inr ⟨poised.flagged eof err, pending, room⟩⟩

def Simulates (f : File) (i : Ideal) (op : Op) : Prop :=
  ∃ g, step f op = ((i.step op).1, g) ∧ Refines g (i.step op).2

theorem take_buffered (setup : Setup f i) (reading : Reading f i) (ahead : f.rpos < f.rend)
    (buffered : f.bufmode ≠ .unbuffered) :
    f.cells[f.rpos]? = (i.read 1).1.head? ∧ Refines { f with rpos := f.rpos + 1 } (i.read 1).2 := by
  obtain ⟨same, held, after, onward⟩ := Reading.consume setup reading 1 (by omega)
  have single := read_split 1 1 (Nat.le_refl 1) held
  rw [Nat.sub_self, read_zero, append_nil] at single
  rw [single]
  refine ⟨?_, after, .inl ⟨onward, fun unbuffered => absurd unbuffered buffered⟩⟩
  dsimp only
  rw [← same, head?_take, if_neg Nat.one_ne_zero, head?_drop]

theorem fgetc_spec (refines : Refines f i) (readable : f.readable = true) :
    ∃ g, fgetc f = ((i.read 1).1.head?, g) ∧ Refines g (i.read 1).2 := by
  obtain ⟨g, turned, setup, reading, direct⟩ := toread_spec refines
  have stillReadable : g.readable = true := setup.readable.trans (refines.1.readable.symm.trans readable)
  rw [fgetc, if_pos readable, turned]
  dsimp only
  by_cases unbuffered : g.bufmode = .unbuffered
  · have caught := direct unbuffered
    obtain ⟨data, t, read, whole, short, past, after, onward⟩ := direct_read setup reading caught 1 Nat.one_pos
    rw [if_pos unbuffered, read]
    cases data with
    | nil =>
      rw [read_none 1 (past rfl)]
      exact ⟨_, rfl, after.flagged true g.err, .inl ⟨onward.flagged true g.err, fun _ => caught⟩⟩
    | cons c data =>
      have last : data = [] := length_eq_zero_iff.mp (by rw [length_cons] at short; omega)
      subst last
      have held : 1 ≤ (i.bytes.drop i.pos).length := by
        have length := congrArg List.length whole
        rw [length_take, length_singleton] at length
        omega
      have single := read_split 1 1 (Nat.le_refl 1) held
      rw [Nat.sub_self, read_zero, append_nil] at single
      rw [length_singleton] at whole
      rw [single, ← whole]
      exact ⟨_, rfl, after, .inl ⟨onward, fun _ => caught⟩⟩
  · rw [if_neg unbuffered]
    by_cases ahead : g.rpos < g.rend
    · obtain ⟨same, further⟩ := take_buffered setup reading ahead unbuffered
      rw [if_pos ahead, same]
      exact ⟨_, rfl, further⟩
    · have order := reading.order
      obtain ⟨more, e, filled, after, onward, some_left, none_left, _, buffered⟩ :=
        fill_spec setup reading (by omega) stillReadable
      rw [if_neg ahead, filled]
      cases more with
      | false =>
        obtain ⟨empty, past⟩ := none_left rfl
        rw [read_none 1 past]
        exact ⟨e, rfl, after, .inl ⟨onward, fun _ => empty⟩⟩
      | true =>
        obtain ⟨same, further⟩ := take_buffered after onward (some_left rfl) (buffered ▸ unbuffered)
        dsimp only
        rw [same]
        exact ⟨_, rfl, further⟩

theorem fgetc_simulates (refines : Refines f i) : Simulates f i .fgetc := by
  have allowed := refines.1.readable
  change ∃ g, (Answer.char (fgetc f).1, (fgetc f).2) = _ ∧ _
  rw [Ideal.step, ← allowed]
  by_cases readable : f.readable = true
  · obtain ⟨g, read, further⟩ := fgetc_spec refines readable
    rw [if_pos readable, read]
    exact ⟨g, rfl, further⟩
  · rw [if_neg readable, fgetc, if_neg readable]
    exact ⟨_, rfl, refines.flagged f.eof true⟩

theorem product_fits {size nmemb : Nat} (some_size : size ≠ 0) (small : size * nmemb ≤ sizeMax) : ¬ sizeMax / size < nmemb := by
  rwa [Nat.not_lt, Nat.le_div_iff_mul_le (by omega), Nat.mul_comm]

theorem fread_simulates (refines : Refines f i) {size nmemb : Nat} (small : size * nmemb ≤ sizeMax) :
    Simulates f i (.fread size nmemb) := by
  have allowed := refines.1.readable
  change ∃ g, (Answer.block (fread size nmemb f).1.1 (fread size nmemb f).1.2, (fread size nmemb f).2) = _ ∧ _
  rw [Ideal.step, ← allowed]
  by_cases nothing : size = 0 ∨ nmemb = 0
  · have zero : size * nmemb = 0 := Nat.mul_eq_zero.mpr nothing
    rw [fread, if_pos nothing, zero, read_zero]
    dsimp only
    rw [length_nil, Nat.zero_div]
    split <;> exact ⟨f, rfl, refines⟩
  · have product := product_fits (fun none => nothing (.inl none)) small
    rw [fread, if_neg nothing, if_neg product]
    by_cases readable : f.readable = true
    · obtain ⟨g, turned, setup, reading, direct⟩ := toread_spec refines
      have stillReadable : g.readable = true := setup.readable.trans (allowed.symm.trans readable)
      obtain ⟨e, ran, after, onward, caught⟩ := fread_loop_spec (size * nmemb) (2 * (size * nmemb) + 1) [] setup reading
        stillReadable (fun unbuffered => by rw [direct unbuffered, Nat.sub_self]; exact Nat.zero_le _)
        (by split <;> omega)
      rw [if_pos readable, if_pos readable, turned]
      dsimp only
      rw [ran, nil_append]
      exact ⟨e, rfl, after, .inl ⟨onward, caught⟩⟩
    · rw [if_neg readable, if_neg readable]
      exact ⟨_, rfl, refines.flagged f.eof true⟩

end
end Spicule.Stdio
