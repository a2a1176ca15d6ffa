import Spicule.Stdio.Writes

namespace Spicule.Stdio

def fresh (src : Source) (readable writable : Bool) (bufmode : BufMode) : File where
  src := src
  readable := readable
  writable := writable
  bufmode := bufmode
  buf := none
  bufsz := 0
  rpos := 0
  rend := 0
  wpos := 0
  eof := false
  err := false

def setvbuf (f : File) (buf : Option Bytes) (mode : BufMode) (size : Nat) : Bool × File :=
  match fflush f with
  | (false, f) => (false, f)
  | (true, f) =>
    let f := { f with buf := none, bufsz := 0, rpos := 0, rend := 0, wpos := 0, bufmode := mode }
    if mode = .unbuffered then (true, f)
    else (true, { f with buf := buf, bufsz := if size = 0 then bufsiz else size })

structure Opened (f : File) : Prop where
  caught : f.rpos = 0 ∧ f.rend = 0
  written : f.wpos = 0
  sized : ∀ cells, f.buf = some cells → cells.length = f.bufsz ∧ 0 < f.bufsz
  narrow : f.bufmode = .unbuffered → f.buf = none

theorem fresh_opened {src : Source} {readable writable : Bool} {bufmode : BufMode} :
    Opened (fresh src readable writable bufmode) :=
  ⟨⟨rfl, rfl⟩, rfl, nofun, fun _ => rfl⟩

theorem setvbuf_opened (f : File) (opened : Opened f) (buf : Option Bytes) (mode : BufMode) (size : Nat)
    (given : ∀ cells, buf = some cells → cells.length = if size = 0 then bufsiz else size) :
    (setvbuf f buf mode size).1 = true ∧ Opened (setvbuf f buf mode size).2 := by
  have empty : ¬ (f.writable = true ∧ 0 < f.wpos) := by rw [opened.written]; exact fun both => Nat.lt_irrefl 0 both.2
  obtain ⟨r, _, synced⟩ := resync_caught { f with wpos := 0 } (opened.caught.1.trans opened.caught.2.symm)
  unfold setvbuf fflush fflushLocked
  rw [if_neg empty, synced]
  dsimp only
  split
  · exact ⟨rfl, ⟨rfl, rfl⟩, rfl, nofun, fun _ => rfl⟩
  · rename_i buffered
    refine ⟨rfl, ⟨rfl, rfl⟩, rfl, fun cells held => ⟨given cells held, ?_⟩, fun unbuffered => absurd unbuffered buffered⟩
    dsimp only
    split
    · exact Nat.zero_lt_succ _
    · exact Nat.pos_of_ne_zero (by assumption)

def array (f : File) : Ideal where
  bytes := f.src.contents
  pos := f.src.offset
  cap := f.src.cap
  append := f.src.append
  readable := f.readable
  writable := f.writable

theorem opened_refines (f : File) (opened : Opened f) (valid : f.src.Valid) : Refines f (array f) := by
  obtain ⟨⟨rpos, rend⟩, written, sized, narrow⟩ := opened
  have none_ahead : f.rend - f.rpos = 0 := by rw [rpos, rend]
  refine ⟨⟨valid, rfl, rfl, rfl, rfl, sized, fun unbuffered cells held => ?_⟩,
    .inl ⟨⟨written, Nat.le_of_eq (rpos.trans rend.symm), ?_, fun ahead => ?_, ?_, ?_, rfl, ?_⟩, fun _ => rpos.trans rend.symm⟩⟩
  · rw [narrow unbuffered] at held
    cases held
  · rw [rend]
    exact Nat.zero_le _
  · rw [rend] at ahead
    exact absurd ahead (Nat.not_lt_zero _)
  · rw [none_ahead]
    exact Nat.zero_le _
  · rw [File.unread, none_ahead, List.take_zero, List.take_zero]
  · rw [none_ahead]
    rfl

section
variable (s : Source)

@[grind =] theorem file_read_isMem (n : Nat) : (fileRead s n).2.isMem = s.isMem := by cases s <;> rfl

@[grind =] theorem file_write_isMem (data : Bytes) : (fileWrite s data).2.isMem = s.isMem := by cases s <;> rfl

@[grind =] theorem file_seek_isMem (off : Int) (whence : Whence) :
    (fileSeek s off whence).2.isMem = s.isMem := by cases s <;> rfl

@[grind =] theorem publish_isMem : (memPublish s).isMem = s.isMem := by cases s <;> rfl

@[grind =] theorem write_all_isMem (fuel : Nat) (s : Source) (data : Bytes) : (writeAll fuel s data).2.isMem = s.isMem := by
  induction fuel generalizing s data with
  | zero => rfl
  | succ fuel ih => grind [writeAll]

variable (f : File)

@[grind =] theorem resync_isMem : (resync f).2.src.isMem = f.src.isMem := by grind [resync]

@[grind =] theorem flush_isMem : (fflushLocked f).2.src.isMem = f.src.isMem := by grind [fflushLocked]

@[grind =] theorem toread_isMem : (toread f).2.src.isMem = f.src.isMem := by grind [toread]

@[grind =] theorem towrite_isMem : (towrite f).2.src.isMem = f.src.isMem := by grind [towrite]

@[grind =] theorem ensure_isMem : (ensureBuf f).src = f.src := by grind [ensureBuf]

@[grind =] theorem fill_isMem : (fill f).2.src.isMem = f.src.isMem := by grind [fill]

@[grind =] theorem fgetc_isMem : (fgetc f).2.src.isMem = f.src.isMem := by grind [fgetc]

@[grind =] theorem fputc_isMem (c : UInt8) (f : File) : (fputc c f).2.src.isMem = f.src.isMem := by grind [fputc]

@[grind =] theorem fread_loop_isMem (fuel want : Nat) (got : Bytes) (f : File) :
    (freadLoop fuel want got f).2.src.isMem = f.src.isMem := by
  induction fuel generalizing want got f with
  | zero => rfl
  | succ fuel ih => grind [freadLoop]

@[grind =] theorem fwrite_loop_isMem (fuel : Nat) (data : Bytes) (put : Nat) (f : File) :
    (fwriteLoop fuel data put f).2.src.isMem = f.src.isMem := by
  induction fuel generalizing data put f with
  | zero => rfl
  | succ fuel ih => grind [fwriteLoop]

theorem step_isMem (op : Op) : (step f op).2.src.isMem = f.src.isMem := by
  cases op with
  | fgetc => exact fgetc_isMem f
  | fread size nmemb => grind [step, fread]
  | fputc c => exact fputc_isMem c f
  | fwrite data size nmemb => grind [step, fwrite]
  | fflush => exact flush_isMem f
  | fseeko off whence => grind [step, fseeko, fseekoClean, seekTo]
  | ftello => grind [step, ftello]

end

def Allowed (f : File) (i : Ideal) : Op → Prop
  | .fgetc => True
  | .fread size nmemb => size * nmemb ≤ sizeMax
  | .fputc _ => i.writable = true → Fits f.src i 1
  | .fwrite data size nmemb => size * nmemb ≤ sizeMax ∧
      (i.writable = true → size * nmemb ≠ 0 → Fits f.src i (data.take (size * nmemb)).length)
  | .fflush => f.src.isMem = true → f.readable = true → f.rpos = f.rend
  | .fseeko off _ => -2 ^ 63 ≤ off ∧ off < 2 ^ 63
  | .ftello => 0 < f.wpos → f.src.base = f.src.offset

variable (f : File) (i : Ideal)
theorem step_simulates {op : Op} (refines : Refines f i) (allowed : Allowed f i op) : Simulates f i op := by
  cases op with
  | fgetc => exact fgetc_simulates refines
  | fread size nmemb => exact fread_simulates refines allowed
  | fputc c => exact fputc_simulates refines c allowed
  | fwrite data size nmemb => exact fwrite_simulates refines allowed.1 allowed.2
  | fflush => exact fflush_simulates refines allowed
  | fseeko off whence => exact fseeko_simulates refines allowed.1
  | ftello => exact ftello_simulates refines allowed

def SafeRun : File → Ideal → List Op → Prop
  | _, _, [] => True
  | f, i, op :: ops => Allowed f i op ∧ SafeRun (step f op).2 (i.step op).2 ops

theorem safe_run {ops : List Op} (refines : Refines f i) (safe : SafeRun f i ops) :
    ∃ g, run f ops = ((i.run ops).1, g) ∧ Refines g (i.run ops).2 ∧ g.src.isMem = f.src.isMem := by
  induction ops generalizing f i with
  | nil => exact ⟨f, rfl, refines, rfl⟩
  | cons op ops ih =>
    obtain ⟨first, rest⟩ := safe
    obtain ⟨g, stepped, further⟩ := step_simulates f i refines first
    have kind := step_isMem f op
    rw [stepped] at kind rest
    obtain ⟨h, ran, final, same⟩ := ih g (i.step op).2 further rest
    refine ⟨h, ?_, final, same.trans kind⟩
    rw [run, stepped]
    dsimp only
    rw [ran]
    rfl

theorem flushed (refines : Refines f i) (kept : f.src.isMem = true → f.readable = true → f.rpos = f.rend) :
    ∃ g, fflush f = (true, g) ∧ g.src.Valid ∧ g.src.contents = i.bytes ∧ g.src.offset = i.pos := by
  obtain ⟨setup, phase⟩ := refines
  have settled : ∃ g, fflushLocked f = (true, g) ∧ Setup g i ∧ Reading g i ∧ g.rpos = g.rend ∧ f.src.SameKind g.src := by
    rcases phase with ⟨reading, _⟩ | ⟨poised, _, _⟩
    · exact flush_reading setup reading kept
    · exact flush_poised setup poised
  obtain ⟨g, ran, after, reading, caught, _⟩ := settled
  refine ⟨g, ran, after.valid, reading.bytes.symm, ?_⟩
  rw [reading.pos, caught, Nat.sub_self, Nat.sub_zero]

section

def Ideal.Legal (i : Ideal) : Op → Prop
  | .fgetc => True
  | .fread size nmemb => size * nmemb ≤ sizeMax
  | .fputc _ => i.pos + 1 ≤ llongMax
  | .fwrite _ size nmemb => size * nmemb ≤ sizeMax ∧ i.pos + size * nmemb ≤ llongMax
  | .fflush => True
  | .fseeko off _ => -2 ^ 63 ≤ off ∧ off < 2 ^ 63
  | .ftello => True

def Ideal.LegalRun (i : Ideal) : List Op → Prop
  | [] => True
  | op :: ops => i.Legal op ∧ (i.step op).2.LegalRun ops

instance (i : Ideal) : (op : Op) → Decidable (i.Legal op)
  | .fgetc | .fflush | .ftello => isTrue trivial
  | .fread _ _ | .fputc _ => inferInstanceAs (Decidable (_ ≤ _))
  | .fwrite _ _ _ | .fseeko _ _ => inferInstanceAs (Decidable (_ ∧ _))

instance Ideal.decidableLegalRun (i : Ideal) : (ops : List Op) → Decidable (i.LegalRun ops)
  | [] => isTrue trivial
  | op :: ops => @instDecidableAnd _ _ _ ((i.step op).2.decidableLegalRun ops)

theorem descriptor_fits {f : File} {i : Ideal} (setup : Setup f i) (descriptor : f.src.isMem = false) (n : Nat)
    (short : i.pos + n ≤ llongMax) : Fits f.src i n := by
  have same := setup.append
  cases src : f.src with
  | mem m =>
    rw [src] at descriptor
    cases descriptor
  | fd d =>
    rw [src] at same
    have straight : i.append = false := same.symm
    refine ⟨?_, fun _ _ _ => rfl⟩
    rw [Ideal.base, straight, if_neg Bool.false_ne_true]
    exact short

theorem legal_allowed (op : Op) (setup : Setup f i) (descriptor : f.src.isMem = false)
    (legal : i.Legal op) : Allowed f i op := by
  cases op with
  | fgetc => trivial
  | fread | fseeko => exact legal
  | fputc c => exact fun _ => descriptor_fits setup descriptor 1 legal
  | fwrite data size nmemb =>
    refine ⟨legal.1, fun _ _ => descriptor_fits setup descriptor _ ?_⟩
    have short : (data.take (size * nmemb)).length ≤ size * nmemb := by
      rw [List.length_take]
      exact Nat.min_le_left _ _
    exact Nat.le_trans (Nat.add_le_add_left short _) legal.2
  | fflush =>
    intro isMem
    rw [descriptor] at isMem
    cases isMem
  | ftello =>
    intro _
    cases src : f.src with
    | mem m =>
      rw [src] at descriptor
      cases descriptor
    | fd d => rfl

theorem legal_safe (ops : List Op) (refines : Refines f i) (descriptor : f.src.isMem = false)
    (legal : i.LegalRun ops) : SafeRun f i ops := by
  induction ops generalizing f i with
  | nil => trivial
  | cons op ops ih =>
    have allowed := legal_allowed f i op refines.1 descriptor legal.1
    obtain ⟨g, stepped, further⟩ := step_simulates f i refines allowed
    have kind := step_isMem f op
    refine ⟨allowed, ?_⟩
    rw [stepped] at kind ⊢
    exact ih g _ further (kind.trans descriptor) legal.2

theorem buffered_stream (f : File) (d : Descriptor) (ops : List Op) (opened : Opened f) (source : f.src = .fd d)
    (range : d.offset ≤ llongMax ∧ d.contents.length ≤ llongMax) (legal : (array f).LegalRun ops) :
    ∃ g e d', run f ops = (((array f).run ops).1, g) ∧ fflush g = (true, e) ∧ e.src = .fd d' ∧
      d'.contents = ((array f).run ops).2.bytes ∧ d'.offset = ((array f).run ops).2.pos := by
  have descriptor : f.src.isMem = false := by rw [source]; rfl
  have refines := opened_refines f opened (by rw [source]; exact range)
  obtain ⟨g, ran, final, same⟩ := safe_run f (array f) refines (legal_safe f _ ops refines descriptor legal)
  have still := same.trans descriptor
  obtain ⟨e, done, _, contents, offset⟩ := flushed g _ final (by rw [still]; exact nofun)
  have kind := flush_isMem g
  change (fflush g).2.src.isMem = g.src.isMem at kind
  rw [done, still] at kind
  dsimp only at kind
  cases src : e.src with
  | mem m =>
    rw [src] at kind
    cases kind
  | fd d' =>
    rw [src] at contents offset
    exact ⟨g, e, d', ran, done, src, contents, offset⟩

def hello : File := (setvbuf (fresh (.fd ⟨[104, 101, 108, 108, 111], 0, fun _ => 0, 0⟩) true true .full) none .full 2).2

theorem buffered_stream_mixed : ∃ g e d',
    run hello [.fgetc, .fputc 65, .ftello, .fseeko (-1) .cur, .fread 1 9, .fseeko 7 .set, .fwrite [66, 67] 2 1, .fflush] =
      ([.char (some 104), .char (some 65), .position (some 2), .done true, .block [65, 108, 108, 111] 4, .done true,
        .count 1, .done true], g) ∧
      fflush g = (true, e) ∧ e.src = .fd d' ∧ d'.contents = [104, 65, 108, 108, 111, 0, 0, 66, 67] ∧ d'.offset = 9 :=
  buffered_stream hello ⟨[104, 101, 108, 108, 111], 0, fun _ => 0, 0⟩ _
    (setvbuf_opened _ (fresh_opened) none .full 2 nofun).2 rfl (by decide) (by decide)

end

-- Whether a mode reads and writes; the letters for files only are left out.
def fmodeflags : Bytes → Option (Bool × Bool)
  | [] => none
  | c :: rest =>
    if c = 114 then some (true, rest.contains 43)
    else if c = 119 ∨ c = 97 then some (rest.contains 43, true)
    else none

def fmemopen (block : Bytes) (owned : Bool) (mode : Bytes) : Option File :=
  match fmodeflags mode with
  | none => none
  | some (readable, writable) =>
    if block = [] then none
    else
      let buf := if owned then block.set 0 0 else block
      let append : Bool := mode.head? = some 97
      let len := if append then (buf.takeWhile (· ≠ 0)).length else if mode.head? = some 114 then buf.length else 0
      some (fresh (.mem ⟨buf, if append then len else 0, len, false, append, fun _ => 0, 0⟩) readable writable .full)

def openMemstream (heap : Nat → UInt8) : File := fresh (.mem ⟨[0], 0, 0, true, false, heap, 0⟩) false true .full

-- No object is larger than PTRDIFF_MAX.
inductive MemStream : File → Prop where
  | fixed {block : Bytes} {owned : Bool} {mode : Bytes} {f : File} (made : fmemopen block owned mode = some f)
      (small : block.length ≤ llongMax) : MemStream f
  | growing (heap : Nat → UInt8) : MemStream (openMemstream heap)

theorem mem_stream_opened (f : File) (stream : MemStream f) : Opened f ∧ f.src.Valid ∧ f.src.isMem = true := by
  cases stream with
  | growing heap => exact ⟨fresh_opened, ⟨Nat.zero_le 1, (by decide : 1 ≤ llongMax), Nat.zero_le _, rfl⟩, rfl⟩
  | @fixed block owned mode f made small =>
    unfold fmemopen at made
    split at made
    · cases made
    · split at made
      · cases made
      · have size : (if owned then block.set 0 0 else block).length = block.length := by
          split
          · exact List.length_set
          · rfl
        cases made
        refine ⟨fresh_opened, ?_, rfl⟩
        generalize (if owned then block.set 0 0 else block) = buf at *
        have short : (buf.takeWhile (· ≠ 0)).length ≤ buf.length := (List.takeWhile_sublist _).length_le
        refine ⟨?_, Nat.le_trans (Nat.le_of_eq size) small, ?_, ?_⟩
        · dsimp only
          repeat' split
          all_goals omega
        · dsimp only
          repeat' split
          all_goals omega
        · change (if decide (mode.head? = some 97) = true then _ else 0) ≤ buf.length
          repeat' split
          all_goals omega

theorem flush_published (f g : File) (ran : fflushLocked f = (true, g)) : ∃ s, g.src = memPublish s := by
  grind [fflushLocked, resync]

def Published (m : Mem) : Prop := m.dynamic = true → m.outSize = min m.len m.pos ∧ m.buf[m.len]? = some 0

theorem published (s : Source) (m : Mem) (valid : s.Valid) (source : s = .mem m) (made : ∃ t, s = memPublish t) :
    Published m := by
  intro dynamic
  subst source
  obtain ⟨t, same⟩ := made
  refine ⟨?_, ?_⟩
  · cases t with
    | fd d => cases same
    | mem p =>
      cases same
      rw [publish_dynamic] at dynamic
      rw [Mem.publish, if_pos dynamic]
      exact Nat.min_comm _ _
  · have closed := valid.2.2.2
    rwa [if_pos dynamic] at closed

theorem memory_stream (f : File) (ops : List Op) (stream : MemStream f) (safe : SafeRun f (array f) ops) :
    ∃ g, run f ops = (((array f).run ops).1, g) ∧ (Allowed g ((array f).run ops).2 .fflush →
      ∃ e m, fflush g = (true, e) ∧ e.src = .mem m ∧ m.buf.take m.len = ((array f).run ops).2.bytes ∧
        m.pos = ((array f).run ops).2.pos ∧ Published m) := by
  obtain ⟨opened, valid, isMem⟩ := mem_stream_opened f stream
  obtain ⟨g, ran, final, kind⟩ := safe_run f (array f) (opened_refines f opened valid) safe
  refine ⟨g, ran, fun kept => ?_⟩
  obtain ⟨e, done, after, contents, offset⟩ := flushed g _ final kept
  have still := flush_isMem g
  change (fflush g).2.src.isMem = g.src.isMem at still
  rw [done, kind, isMem] at still
  dsimp only at still
  cases source : e.src with
  | fd d =>
    rw [source] at still
    cases still
  | mem m =>
    have seen := published e.src m after source (flush_published g e done)
    rw [source] at contents offset
    exact ⟨e, m, done, source, contents, offset, seen⟩

theorem memory_stream_gap : ∃ g e m, run (openMemstream fun _ => 255) [.fputc 97, .fseeko 2 .set, .fputc 98, .fseeko 1 .set] =
      ([.char (some 97), .done true, .char (some 98), .done true], g) ∧
    fflush g = (true, e) ∧ e.src = .mem m ∧ m.buf.take m.len = [97, 0, 98] ∧ m.pos = 1 ∧ Published m := by
  have first : Fits (openMemstream fun _ => 255).src (array (openMemstream fun _ => 255)) 1 :=
    ⟨by decide, fun j _ below => absurd below (Nat.not_lt_zero j)⟩
  have second : Fits (run (openMemstream fun _ => 255) [.fputc 97, .fseeko 2 .set]).2.src
      ((array (openMemstream fun _ => 255)).run [.fputc 97, .fseeko 2 .set]).2 1 := by
    refine ⟨by decide, fun j past below => ?_⟩
    obtain rfl : j = 1 := Nat.le_antisymm (Nat.le_of_lt_succ below) past
    rfl
  obtain ⟨g, ran, flush⟩ := memory_stream (openMemstream fun _ => 255) [.fputc 97, .fseeko 2 .set, .fputc 98, .fseeko 1 .set]
    (.growing _) ⟨fun _ => first, ⟨by decide, by decide⟩, fun _ => second, ⟨by decide, by decide⟩, trivial⟩
  cases ran
  obtain ⟨e, m, seen⟩ := flush fun _ readable => nomatch readable
  exact ⟨_, e, m, rfl, seen⟩

theorem memory_stream_differs :
    (∃ f, fmemopen [97, 98, 99] false [114] = some f ∧
      (run f [.fgetc, .fflush, .fgetc]).1 = [.char (some 97), .done true, .char none] ∧
      ((array f).run [.fgetc, .fflush, .fgetc]).1 = [.char (some 97), .done true, .char (some 98)]) ∧
    ∃ m, (fflush (run (openMemstream fun _ => 255) [.fputc 97, .fseeko 4 .set, .fputc 98]).2).2.src = .mem m ∧
      m.buf.take m.len = [97, 0, 255, 255, 98] :=
  ⟨⟨_, rfl, rfl, rfl⟩, _, rfl, rfl⟩

end Spicule.Stdio
