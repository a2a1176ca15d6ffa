import Spicule.Stdio.Refine

namespace Spicule.Stdio
open List Overwrite

structure Fits (s : Source) (i : Ideal) (n : Nat) : Prop where
  fits : i.base + n ≤ s.limit
  gap : ∀ j, i.bytes.length ≤ j → j < i.base → s.cell j = 0

section
variable {f : File} {i : Ideal} {s t : Source} {n : Nat}
theorem Fits.kind (fits : Fits s i n) (kind : s.SameKind t) (cells : t.cell = s.cell) : Fits t i n :=
  ⟨by rw [kind.limit]; exact fits.fits, by rw [cells]; exact fits.gap⟩

theorem Fits.fewer {m : Nat} (fits : Fits s i n) (less : m ≤ n) : Fits s i m :=
  ⟨Nat.le_trans (Nat.add_le_add_left less _) fits.fits, fits.gap⟩

theorem Fits.later {data : Bytes} (fits : Fits s i (data.length + n)) (filled : data ≠ []) (kind : s.SameKind t) :
    Fits t (i.put data) n := by
  have enough := fits.fits
  have moved := put_base i data
  refine ⟨by rw [kind.limit]; omega, fun j past below => ?_⟩
  rw [Ideal.put, if_neg filled] at past
  dsimp only at past
  rw [overwrite_length 0 _ _ _ filled] at past
  omega

variable (data : Bytes)
theorem clip_fits (setup : Setup f i) (fits : Fits f.src i data.length) : i.clip data = data := by
  have enough := fits.fits
  have same := setup.cap
  unfold Ideal.clip
  cases held : i.cap with
  | none => rfl
  | some cap =>
    have limited : f.src.limit = cap := by
      rw [held] at same
      unfold Source.cap at same
      unfold Source.limit
      cases src : f.src with
      | fd d =>
        rw [src] at same
        cases same
      | mem m =>
        rw [src] at same
        dsimp only at same ⊢
        split at same
        · cases same
        · rename_i fixed
          rw [if_neg fixed]
          exact Option.some.inj same
    exact take_of_length_le (by omega)

theorem Poised.room (setup : Setup f i) (poised : Poised f i) (fits : Fits f.src i n) : f.src.Room (f.wpos + n) := by
  have start := poised.base setup
  have enough := fits.fits
  refine ⟨by omega, ?_⟩
  by_cases pending : 0 < f.wpos
  · exact (poised.allowed pending).2.gap
  · have empty : f.wpos = 0 := by omega
    have clear := fits.gap
    rw [start, empty, Nat.add_zero, (poised.reading empty).bytes] at clear
    exact clear

theorem direct_write (setup : Setup f i) (poised : Poised f i) (empty : f.wpos = 0) (filled : data ≠ [])
    (fits : Fits f.src i data.length) : ∃ n t, fileWrite f.src data = (some (n + 1), t) ∧ n + 1 ≤ data.length ∧
      f.src.SameKind t ∧ Setup { f with src := t } (i.put (data.take (n + 1))) ∧
      Poised { f with src := t } (i.put (data.take (n + 1))) := by
  have start := poised.base setup
  have room := poised.room setup fits
  rw [empty, Nat.add_zero] at start
  rw [empty, Nat.zero_add] at room
  obtain ⟨n, t, written, short, wrote⟩ := Source.file_write_spec f.src data setup.valid filled room
  have some_data : data.take (n + 1) ≠ [] := by
    intro none_left
    rw [take_eq_nil_iff] at none_left
    exact none_left.elim (Nat.succ_ne_zero n) filled
  have contents := (poised.reading empty).bytes
  have none_pending : ({ f with src := t } : File).pending = [] := by
    rw [File.pending]
    dsimp only
    rw [empty, take_zero]
  refine ⟨n, t, written, short, wrote.kind, ?_⟩
  unfold Ideal.put
  rw [if_neg some_data]
  refine ⟨{ setup with valid := wrote.valid, append := wrote.kind.append.trans setup.append, cap := wrote.kind.cap.trans setup.cap },
    { poised with allowed := fun pending => ?_, bytes := ?_, pos := ?_ }⟩
  · exact absurd empty (Nat.pos_iff_ne_zero.mp pending)
  · rw [none_pending, overwrite_nil, wrote.contents, start, contents]
  · dsimp only
    rw [if_pos empty, wrote.offset, start]

theorem push_buffer (setup : Setup f i) (poised : Poised f i) {cells : Bytes} (held : f.buf = some cells)
    (filled : data ≠ []) (inside : f.wpos + data.length ≤ cells.length) (writable : f.writable = true)
    (buffered : f.bufmode ≠ .unbuffered) (fits : Fits f.src i data.length) :
    Setup { f with buf := some (f.cells.take f.wpos ++ data ++ f.cells.drop (f.wpos + data.length)),
                   wpos := f.wpos + data.length } (i.put data) ∧
      Poised { f with buf := some (f.cells.take f.wpos ++ data ++ f.cells.drop (f.wpos + data.length)),
                      wpos := f.wpos + data.length } (i.put data) := by
  have same : f.cells = cells := by rw [File.cells, held]; rfl
  obtain ⟨size, some_size⟩ := setup.sized cells held
  have start := poised.base setup
  have room := poised.room setup fits
  have some_data := length_pos_iff.mpr filled
  have front : (f.cells.take f.wpos ++ data).length = f.wpos + data.length := by
    rw [length_append, length_take, same, Nat.min_eq_left (by omega)]
  have whole : (f.cells.take f.wpos ++ data ++ f.cells.drop (f.wpos + data.length)).length = cells.length := by
    rw [length_append, front, length_drop, same]
    omega
  have pendingLength : f.pending.length = f.wpos := by
    rw [File.pending, length_take, same, Nat.min_eq_left (by omega)]
  have contents := poised.bytes
  unfold Ideal.put
  rw [if_neg filled]
  refine ⟨{ setup with sized := ?_, narrow := fun unbuffered => absurd unbuffered buffered },
    ⟨poised.caught, ?_, ?_, fun unbuffered => absurd unbuffered buffered, fun _ => ⟨writable, room⟩, ?_, ?_⟩⟩
  · intro other made
    cases made
    rw [whole]
    exact ⟨size, some_size⟩
  · change f.rend ≤ (f.cells.take f.wpos ++ data ++ f.cells.drop (f.wpos + data.length)).length
    rw [whole, ← same]
    exact poised.held
  · change f.wpos + data.length ≤ (f.cells.take f.wpos ++ data ++ f.cells.drop (f.wpos + data.length)).length
    rw [whole]
    exact inside
  · change overwrite 0 i.bytes i.base data = overwrite 0 f.src.contents f.src.base
      ((f.cells.take f.wpos ++ data ++ f.cells.drop (f.wpos + data.length)).take (f.wpos + data.length))
    rw [take_left' front, contents, start, ← pendingLength, overwrite_append, pendingLength]
    rfl
  · dsimp only
    rw [if_neg (by omega), start, Nat.add_assoc]

end

section
variable {f : File} {i : Ideal}
theorem Poised.refines (setup : Setup f i) (poised : Poised f i) (room : f.wpos = 0 ∨ f.wpos < f.cells.length) :
    Refines f i := by
  refine ⟨setup, ?_⟩
  by_cases empty : f.wpos = 0
  · exact .inl ⟨poised.reading empty, fun _ => poised.caught⟩
  · exact .inr ⟨poised, Nat.pos_of_ne_zero empty, room.resolve_left empty⟩

theorem flush_when_full (setup : Setup f i) (poised : Poised f i) : ∃ g, fflushLocked f = (true, g) ∧ Setup g i ∧
    Poised g i ∧ g.wpos = 0 ∧ f.src.SameKind g.src := by
  obtain ⟨g, flushed, after, reading, caught, kind⟩ := flush_poised setup poised
  exact ⟨g, flushed, after, reading.poised caught, reading.written, kind⟩

theorem ensured_room (setup : Setup f i) (room : f.wpos = 0 ∨ f.wpos < f.cells.length) :
    ∃ cells, (ensureBuf f).buf = some cells ∧ cells.length = (ensureBuf f).bufsz ∧
      (ensureBuf f).wpos < (ensureBuf f).bufsz := by
  obtain ⟨cells, sz, made, length, some_size, _, same⟩ := ensure_cases setup
  rw [made]
  refine ⟨cells, rfl, length, ?_⟩
  dsimp only
  rcases room with empty | inside
  · rw [empty]
    exact some_size
  · rcases same with same | same
    · rwa [same, length] at inside
    · rw [same] at inside
      exact absurd inside (Nat.not_lt_zero _)

theorem ensured_source (setup : Setup f i) : (ensureBuf f).src = f.src ∧ (ensureBuf f).writable = f.writable ∧
    (ensureBuf f).bufmode = f.bufmode ∧ ((ensureBuf f).bufmode = .unbuffered → (ensureBuf f).bufsz = 1) := by
  obtain ⟨cells, sz, made, _, _, narrow, _⟩ := ensure_cases setup
  rw [made]
  exact ⟨rfl, rfl, rfl, narrow⟩

theorem fputc_spec (refines : Refines f i) (writable : f.writable = true) (c : UInt8) (fits : Fits f.src i 1) :
    ∃ g, fputc c f = (some c, g) ∧ Refines g (i.put [c]) := by
  obtain ⟨g, turned, setup, poised, room, kind, cells⟩ := towrite_spec refines
  have stillWritable : g.writable = true := setup.writable.trans (refines.1.writable.symm.trans writable)
  rw [fputc, if_pos writable, turned]
  dsimp only
  by_cases unbuffered : g.bufmode = .unbuffered
  · have empty := poised.buffered unbuffered
    obtain ⟨n, t, written, short, _, after, onward⟩ :=
      direct_write [c] setup poised empty (cons_ne_nil _ _) (fits.kind kind cells)
    have whole : [c].take (n + 1) = [c] := take_of_length_le (Nat.le_add_left _ _)
    rw [whole] at after onward
    rw [if_pos unbuffered, written]
    exact ⟨_, rfl, Poised.refines after onward (.inl empty)⟩
  · have fits := fits.kind kind cells
    rw [if_neg unbuffered]
    obtain ⟨cells, held, length, inside⟩ := ensured_room setup room
    obtain ⟨source, allowed, mode, _⟩ := ensured_source setup
    have after := ensure_setup setup
    have onward := ensure_poised setup poised
    rw [← source] at fits
    rw [← allowed] at stillWritable
    rw [← mode] at unbuffered
    generalize ensureBuf g = e at *
    have same : e.cells = cells := by rw [File.cells, held]; rfl
    obtain ⟨pushed, ready⟩ := push_buffer [c] after onward held (cons_ne_nil _ _)
      (by rw [length_singleton]; omega) stillWritable unbuffered fits
    have stored : e.cells.take e.wpos ++ [c] ++ e.cells.drop (e.wpos + 1) = e.cells.set e.wpos c := by
      rw [set_eq_take_append_cons_drop, if_pos (by rw [same]; omega), append_assoc]
      rfl
    rw [length_singleton, stored] at pushed ready
    split
    · obtain ⟨h, flushed, cleaned, done, empty, _⟩ := flush_when_full pushed ready
      rw [flushed]
      exact ⟨h, rfl, Poised.refines cleaned done (.inl empty)⟩
    · rename_i free
      refine ⟨_, rfl, Poised.refines pushed ready (.inr ?_)⟩
      change e.wpos + 1 < (e.cells.set e.wpos c).length
      rw [length_set, same]
      omega

theorem fputc_simulates (refines : Refines f i) (c : UInt8) (fits : i.writable = true → Fits f.src i 1) :
    Simulates f i (.fputc c) := by
  have allowed := refines.1.writable
  change ∃ g, (Answer.char (fputc c f).1, (fputc c f).2) = _ ∧ _
  rw [Ideal.step]
  by_cases writable : i.writable = true
  · have room := fits writable
    obtain ⟨g, wrote, further⟩ := fputc_spec refines (allowed.trans writable) c room
    rw [if_pos writable, wrote, clip_fits [c] refines.1 room]
    exact ⟨g, rfl, further⟩
  · rw [if_neg writable, fputc, if_neg (by rw [allowed]; exact writable)]
    exact ⟨_, rfl, refines.flagged f.eof true⟩

theorem fwrite_loop_spec (fuel : Nat) (data : Bytes) (put : Nat) (setup : Setup f i) (poised : Poised f i)
    (room : f.wpos = 0 ∨ f.wpos < f.cells.length) (writable : f.writable = true) (fits : Fits f.src i data.length)
    (enough : data.length ≤ fuel) :
    ∃ g, fwriteLoop fuel data put f = (put + data.length, g) ∧ Refines g (i.put data) := by
  induction fuel generalizing f i data put with
  | zero =>
    have nothing : data = [] := length_eq_zero_iff.mp (Nat.le_zero.mp enough)
    subst nothing
    exact ⟨f, rfl, Poised.refines setup poised room⟩
  | succ fuel ih =>
    by_cases nothing : data = []
    · subst nothing
      exact ⟨f, rfl, Poised.refines setup poised room⟩
    have some_data := length_pos_iff.mpr nothing
    obtain ⟨cells, held, length, inside⟩ := ensured_room setup room
    obtain ⟨source, allowed, mode, narrow⟩ := ensured_source setup
    have after := ensure_setup setup
    have onward := ensure_poised setup poised
    rw [fwriteLoop, if_neg nothing]
    rw [← source] at fits
    rw [← allowed] at writable
    clear source allowed mode poised setup
    generalize ensureBuf f = e at *
    dsimp only
    have parts : ∀ k ≤ data.length, (data.take k).length = k ∧ (data.take k).length + (data.drop k).length = data.length := by
      intro k short
      rw [length_take, length_drop, Nat.min_eq_left short]
      omega
    have joined : ∀ k, (i.put (data.take k)).put (data.drop k) = i.put data := by
      intro k
      rw [put_append, take_append_drop]
    by_cases direct : e.wpos = 0 ∧ e.bufsz ≤ data.length
    · obtain ⟨n, t, written, short, kind, moved, ready⟩ := direct_write data after onward direct.1 nothing fits
      obtain ⟨front, total⟩ := parts (n + 1) short
      rw [if_pos direct, written]
      dsimp only
      have rest : Fits t (i.put (data.take (n + 1))) (data.drop (n + 1)).length :=
        (fits.fewer (Nat.le_of_eq total)).later (length_pos_iff.mp (by omega)) kind
      obtain ⟨g, ran, further⟩ := ih (data.drop (n + 1)) (put + (n + 1)) moved ready (.inl direct.1) writable rest (by omega)
      rw [joined] at further
      refine ⟨g, ?_, further⟩
      rw [ran]
      congr 1
      omega
    · rw [if_neg direct]
      have buffered : e.bufmode ≠ .unbuffered := by
        intro unbuffered
        have single := narrow unbuffered
        have empty := onward.buffered unbuffered
        exact direct ⟨empty, by omega⟩
      have short : min data.length (e.bufsz - e.wpos) ≤ data.length := Nat.min_le_left _ _
      have most : min data.length (e.bufsz - e.wpos) ≤ e.bufsz - e.wpos := Nat.min_le_right _ _
      have some_taken : 0 < min data.length (e.bufsz - e.wpos) := by omega
      generalize min data.length (e.bufsz - e.wpos) = n at *
      obtain ⟨front, total⟩ := parts n short
      have taken : data.take n ≠ [] := length_pos_iff.mp (by omega)
      obtain ⟨pushed, ready⟩ := push_buffer (data.take n) after onward held taken (by omega) writable buffered
        (fits.fewer (by omega))
      rw [front] at pushed ready
      have rest : ∀ t, e.src.SameKind t → Fits t (i.put (data.take n)) (data.drop n).length :=
        fun _ => (fits.fewer (Nat.le_of_eq total)).later taken
      split
      · obtain ⟨h, flushed, cleaned, done, empty, kind⟩ := flush_when_full pushed ready
        have stillWritable : h.writable = true := cleaned.writable.trans (pushed.writable.symm.trans writable)
        obtain ⟨g, ran, further⟩ := ih (data.drop n) (put + n) cleaned done (.inl empty) stillWritable (rest _ kind)
          (by omega)
        rw [joined] at further
        refine ⟨g, ?_, further⟩
        rw [flushed]
        dsimp only
        rw [ran]
        congr 1
        omega
      · rename_i free
        have size := (pushed.sized _ rfl).1
        have below : e.wpos + n < (e.cells.take e.wpos ++ data.take n ++ e.cells.drop (e.wpos + n)).length := by
          dsimp only at size
          omega
        obtain ⟨g, ran, further⟩ := ih (data.drop n) (put + n) pushed ready (.inr below) writable
          (rest _ (Source.SameKind.refl _)) (by omega)
        rw [joined] at further
        refine ⟨g, ?_, further⟩
        rw [ran]
        congr 1
        omega

theorem fwrite_simulates (refines : Refines f i) {data : Bytes} {size nmemb : Nat} (small : size * nmemb ≤ sizeMax)
    (fits : i.writable = true → size * nmemb ≠ 0 → Fits f.src i (data.take (size * nmemb)).length) :
    Simulates f i (.fwrite data size nmemb) := by
  have allowed := refines.1.writable
  change ∃ g, (Answer.count (fwrite data size nmemb f).1, (fwrite data size nmemb f).2) = _ ∧ _
  rw [Ideal.step]
  by_cases nothing : size = 0 ∨ nmemb = 0
  · have zero : size * nmemb = 0 := Nat.mul_eq_zero.mpr nothing
    have none_kept : i.clip [] = [] := by
      unfold Ideal.clip
      split
      · rfl
      · exact take_nil
    rw [fwrite, if_pos nothing, zero, take_zero, none_kept]
    dsimp only
    rw [length_nil, Nat.zero_div]
    split <;> exact ⟨f, rfl, refines⟩
  · have product := product_fits (fun none => nothing (.inl none)) small
    have some_asked : size * nmemb ≠ 0 := fun zero => nothing (Nat.mul_eq_zero.mp zero)
    rw [fwrite, if_neg nothing, if_neg product]
    by_cases writable : i.writable = true
    · have room := fits writable some_asked
      obtain ⟨g, turned, setup, poised, free, kind, cells⟩ := towrite_spec refines
      have stillWritable : g.writable = true := setup.writable.trans writable
      obtain ⟨e, ran, further⟩ := fwrite_loop_spec (size * nmemb) (data.take (size * nmemb)) 0 setup poised free
        stillWritable (room.kind kind cells) (by rw [length_take]; exact Nat.min_le_left _ _)
      rw [if_pos writable, if_pos (allowed.trans writable), turned, clip_fits _ refines.1 room]
      dsimp only
      rw [ran, Nat.zero_add]
      exact ⟨e, rfl, further⟩
    · rw [if_neg writable, if_neg (by rw [allowed]; exact writable)]
      exact ⟨_, rfl, refines.flagged f.eof true⟩

end

section
variable {f : File} {i : Ideal}
theorem fflush_simulates (refines : Refines f i) (kept : f.src.isMem = true → f.readable = true → f.rpos = f.rend) :
    Simulates f i .fflush := by
  change ∃ g, (Answer.done (fflushLocked f).1, (fflushLocked f).2) = _ ∧ _
  obtain ⟨setup, ⟨reading, _⟩ | ⟨poised, _, _⟩⟩ := refines
  · obtain ⟨g, flushed, after, onward, caught, _⟩ := flush_reading setup reading kept
    rw [flushed]
    exact ⟨g, rfl, after, .inl ⟨onward, fun _ => caught⟩⟩
  · obtain ⟨g, flushed, after, onward, caught, _⟩ := flush_poised setup poised
    rw [flushed]
    exact ⟨g, rfl, after, .inl ⟨onward, fun _ => caught⟩⟩

theorem target_adjusted {position unread : Nat} (length : Nat) (off : Int) (behind : unread ≤ position)
    (bound : position ≤ llongMax) :
    target position length (off - unread) .cur = target (position - unread) length off .cur := by
  have same : ((position : Int) + (off - unread)) = ((position - unread : Nat) : Int) + off := by omega
  unfold target
  rw [seekBase, seekBase, Option.bind_some, Option.bind_some, same]
  congr 1
  rw [eq_iff_iff]
  constructor
  · exact fun bounds => ⟨by omega, bounds.2⟩
  · exact fun bounds => ⟨bound, bounds.2⟩

theorem seek_to_spec (setup : Setup f i) (reading : Reading f i) (direct : f.bufmode = .unbuffered → f.rpos = f.rend)
    {off moved : Int} {whence : Whence}
    (same : target f.src.offset f.src.contents.length moved whence = target i.pos i.bytes.length off whence) :
    ∃ g, seekTo f moved whence = ((i.seek off whence).1, g) ∧ Refines g (i.seek off whence).2 := by
  have capped := setup.cap
  unfold seekTo Ideal.seek
  rw [← same]
  cases reached : target f.src.offset f.src.contents.length moved whence with
  | none =>
    rw [Source.file_seek_refused setup.valid (by rw [reached]; exact nofun)]
    exact ⟨_, rfl, setup, .inl ⟨reading, direct⟩⟩
  | some p =>
    by_cases past : i.cap.any (· < p) = true
    · rw [Source.file_seek_refused setup.valid (by rw [reached, capped]; rintro q ⟨⟩; exact past)]
      dsimp only
      rw [if_pos past]
      exact ⟨_, rfl, setup, .inl ⟨reading, direct⟩⟩
    · obtain ⟨t, sought, landed⟩ :=
        Source.file_seek_moved setup.valid reached (by rw [capped]; exact Bool.eq_false_iff.mpr past)
      have target : Setup f { i with pos := p } := { setup with }
      have result := settled target t landed.kind landed.valid (by rw [landed.contents]; exact reading.bytes)
        landed.offset.symm 0 (Nat.zero_le _)
      rw [sought]
      dsimp only
      rw [if_neg past]
      refine ⟨_, rfl, ?_, .inl ⟨?_, fun _ => rfl⟩⟩
      · rw [reading.written]
        exact result.1.flagged false f.err
      · rw [reading.written]
        exact result.2.flagged false f.err

theorem fseeko_clean_spec (setup : Setup f i) (reading : Reading f i) (direct : f.bufmode = .unbuffered → f.rpos = f.rend)
    (off : Int) (whence : Whence) :
    ∃ g, fseekoClean f off whence = ((i.seek off whence).1, g) ∧ Refines g (i.seek off whence).2 := by
  have behind := reading.behind
  have bound := offset_le setup.valid
  have position := reading.pos
  unfold fseekoClean
  by_cases relative : whence = .cur
  · rw [if_pos relative]
    dsimp only
    by_cases overflows : llongMax < f.rend - f.rpos ∨ off < -2 ^ 63 + ((f.rend - f.rpos : Nat) : Int)
    · have lost : target i.pos i.bytes.length off .cur = none := by
        have small : (llongMax : Int) = 2 ^ 63 - 1 := by decide
        unfold target
        rw [seekBase, Option.bind_some, if_neg (by omega)]
      rw [if_pos overflows, relative, Ideal.seek, lost]
      exact ⟨f, rfl, setup, .inl ⟨reading, direct⟩⟩
    · rw [if_neg overflows]
      refine seek_to_spec setup reading direct ?_
      rw [relative, target_adjusted _ _ behind bound, position, reading.bytes]
  · rw [if_neg relative]
    refine seek_to_spec setup reading direct ?_
    rw [reading.bytes]
    unfold target
    cases whence with
    | cur => exact absurd rfl relative
    | set | fromEnd | invalid => rfl

theorem fseeko_simulates (refines : Refines f i) {off : Int} {whence : Whence} (low : -2 ^ 63 ≤ off) :
    Simulates f i (.fseeko off whence) := by
  change ∃ g, (Answer.done (fseeko f off whence).1, (fseeko f off whence).2) =
    (Answer.done (i.seek off whence).1, _) ∧ Refines g (i.seek off whence).2
  unfold fseeko
  obtain ⟨setup, ⟨reading, direct⟩ | ⟨poised, pending, _⟩⟩ := refines
  · obtain ⟨g, ran, further⟩ := fseeko_clean_spec setup reading direct off whence
    rw [if_neg (by rw [reading.written]; exact Nat.lt_irrefl 0), ran]
    exact ⟨g, rfl, further⟩
  · obtain ⟨e, flushed, after, onward, caught, _⟩ := flush_poised setup poised
    obtain ⟨g, ran, further⟩ := fseeko_clean_spec after onward (fun _ => caught) off whence
    rw [if_pos pending, flushed]
    dsimp only
    rw [ran]
    exact ⟨g, rfl, further⟩

theorem limit_le {s : Source} (valid : s.Valid) : s.limit ≤ llongMax := by
  cases s with
  | fd d => exact Nat.le_refl _
  | mem m =>
    unfold Source.limit
    dsimp only
    split
    · exact Nat.sub_le _ _
    · exact valid.2.1

theorem Refines.moved (refines : Refines f i) (t : Source) (moved : f.src.Moved t f.src.offset) :
    Refines { f with src := t } i := by
  obtain ⟨setup, phase⟩ := refines
  have sameBase : t.base = f.src.base := by
    unfold Source.base
    rw [moved.kind.append, moved.contents, moved.offset]
  refine ⟨{ setup with valid := moved.valid, append := moved.kind.append.trans setup.append, cap := moved.kind.cap.trans setup.cap }, ?_⟩
  rcases phase with ⟨reading, direct⟩ | ⟨poised, pending, free⟩
  · refine .inl ⟨⟨reading.written, reading.order, reading.held, reading.allowed, ?_, ?_, ?_, ?_⟩, direct⟩
    · rw [moved.offset]
      exact reading.behind
    · rw [moved.contents, moved.offset]
      exact reading.ahead
    · rw [moved.contents]
      exact reading.bytes
    · rw [moved.offset]
      exact reading.pos
  · refine .inr ⟨{ poised with allowed := fun some_pending => ?_, bytes := ?_, pos := ?_ }, pending, free⟩
    · obtain ⟨writable, room⟩ := poised.allowed some_pending
      refine ⟨writable, ⟨?_, ?_⟩⟩
      · rw [sameBase, moved.kind.limit]
        exact room.fits
      · rw [sameBase, moved.contents, moved.cell]
        exact room.gap
    · rw [moved.contents, sameBase]
      exact poised.bytes
    · rw [moved.offset, sameBase]
      exact poised.pos

theorem ftello_simulates (refines : Refines f i) (straight : 0 < f.wpos → f.src.base = f.src.offset) :
    Simulates f i .ftello := by
  change ∃ g, (Answer.position (ftello f).1, (ftello f).2) = (Answer.position (some i.pos), g) ∧ Refines g i
  obtain ⟨t, sought, moved⟩ := seek_back refines.1.valid 0 (Nat.zero_le _)
  rw [Nat.sub_zero] at sought moved
  have further := refines.moved t moved
  have bound := offset_le refines.1.valid
  refine ⟨{ f with src := t }, ?_, further⟩
  unfold ftello
  change fileSeek f.src 0 .cur = (some f.src.offset, t) at sought
  rw [sought]
  dsimp only
  obtain ⟨setup, ⟨reading, _⟩ | ⟨poised, pending, _⟩⟩ := refines
  · rw [if_neg (Nat.not_lt.mpr reading.behind), reading.written, if_neg (Nat.not_lt_zero _), reading.pos, Nat.add_zero]
  · have position := poised.pos
    have room := (poised.allowed pending).2.fits
    have limit := limit_le setup.valid
    rw [if_neg (by omega), straight pending] at position
    rw [straight pending] at room
    rw [poised.caught, Nat.sub_self, Nat.sub_zero, if_neg (Nat.not_lt_zero _), if_neg (by omega), position]

end
end Spicule.Stdio
