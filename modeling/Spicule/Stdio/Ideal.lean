import Spicule.Stdio.File

namespace Spicule.Stdio
open List Overwrite

-- `cap` is the room of an array that cannot grow.
structure Ideal where
  bytes : Bytes
  pos : Nat
  cap : Option Nat
  append : Bool
  readable : Bool
  writable : Bool

def Ideal.base (i : Ideal) : Nat := if i.append then i.bytes.length else i.pos

def Ideal.put (i : Ideal) (data : Bytes) : Ideal :=
  if data = [] then i else { i with bytes := overwrite 0 i.bytes i.base data, pos := i.base + data.length }

def Ideal.clip (i : Ideal) (data : Bytes) : Bytes :=
  match i.cap with
  | none => data
  | some cap => data.take (cap - i.base)

def Ideal.read (i : Ideal) (n : Nat) : Bytes × Ideal :=
  let data := (i.bytes.drop i.pos).take n
  (data, { i with pos := i.pos + data.length })

def Ideal.seek (i : Ideal) (off : Int) (whence : Whence) : Bool × Ideal :=
  match target i.pos i.bytes.length off whence with
  | none => (false, i)
  | some position => if i.cap.any (· < position) then (false, i) else (true, { i with pos := position })

def Ideal.step (i : Ideal) : Op → Answer × Ideal
  | .fgetc => if i.readable then (.char (i.read 1).1.head?, (i.read 1).2) else (.char none, i)
  | .fread size nmemb =>
    if i.readable then
      let (data, i) := i.read (size * nmemb)
      (.block data (data.length / size), i)
    else (.block [] 0, i)
  | .fputc c => if i.writable then (.char (i.clip [c]).head?, i.put (i.clip [c])) else (.char none, i)
  | .fwrite data size nmemb =>
    if i.writable then
      let kept := i.clip (data.take (size * nmemb))
      (.count (kept.length / size), i.put kept)
    else (.count 0, i)
  | .fflush => (.done true, i)
  | .fseeko off whence => let (r, i) := i.seek off whence; (.done r, i)
  | .ftello => (.position (some i.pos), i)

def Ideal.run (i : Ideal) : List Op → List Answer × Ideal
  | [] => ([], i)
  | op :: ops =>
    let (answer, i) := i.step op
    let (answers, i) := i.run ops
    (answer :: answers, i)

theorem put_base (i : Ideal) (data : Bytes) : (i.put data).base = i.base + data.length := by
  unfold Ideal.put
  split
  · rename_i empty
    rw [empty, length_nil, Nat.add_zero]
  · rename_i filled
    unfold Ideal.base
    cases appends : i.append with
    | false => simp
    | true => simp [overwrite_end]

theorem put_append (i : Ideal) (front back : Bytes) : (i.put front).put back = i.put (front ++ back) := by
  by_cases first : front = []
  · rw [first, nil_append]
    rfl
  by_cases second : back = []
  · rw [second, append_nil]
    rfl
  have both : front ++ back ≠ [] := fun empty => first (append_eq_nil_iff.mp empty).1
  have moved := put_base i front
  rw [Ideal.put, if_neg second, moved, Ideal.put, if_neg first, Ideal.put, if_neg both, overwrite_append,
    length_append, Nat.add_assoc]

namespace Source

def contents : Source → Bytes
  | .fd d => d.contents
  | .mem m => m.buf.take m.len

def offset : Source → Nat
  | .fd d => d.offset
  | .mem m => m.pos

def append : Source → Bool
  | .fd _ => false
  | .mem m => m.append

def cap : Source → Option Nat
  | .fd _ => none
  | .mem m => if m.dynamic then none else some m.buf.length

def limit : Source → Nat
  | .fd _ => llongMax
  | .mem m => if m.dynamic then llongMax - 1 else m.buf.length

def base (s : Source) : Nat := if s.append then s.contents.length else s.offset

-- What the place j of a gap would hold: the kernel clears it, memory is as it was.
def cell : Source → Nat → UInt8
  | .fd _, _ => 0
  | .mem m, j => m.buf.getD j (m.heap j)

-- The block of memory holds its contents and, if it grows, the NUL after them.
def Valid : Source → Prop
  | .fd d => d.offset ≤ llongMax ∧ d.contents.length ≤ llongMax
  | .mem m => m.len ≤ m.buf.length ∧ m.buf.length ≤ llongMax ∧ m.pos ≤ llongMax ∧
      if m.dynamic then m.buf[m.len]? = some 0 else m.pos ≤ m.buf.length

structure SameKind (s t : Source) : Prop where
  isMem : t.isMem = s.isMem
  append : t.append = s.append
  cap : t.cap = s.cap
  limit : t.limit = s.limit

theorem SameKind.refl (s : Source) : SameKind s s := ⟨rfl, rfl, rfl, rfl⟩

theorem SameKind.trans {s t u : Source} (first : SameKind s t) (second : SameKind t u) : SameKind s u :=
  ⟨second.isMem.trans first.isMem, second.append.trans first.append, second.cap.trans first.cap,
    second.limit.trans first.limit⟩

structure Moved (s t : Source) (position : Nat) : Prop where
  kind : SameKind s t
  valid : t.Valid
  contents : t.contents = s.contents
  cell : t.cell = s.cell
  offset : t.offset = position

structure Wrote (s t : Source) (data : Bytes) : Prop where
  kind : SameKind s t
  valid : t.Valid
  contents : t.contents = overwrite 0 s.contents s.base data
  offset : t.offset = s.base + data.length

structure Room (s : Source) (n : Nat) : Prop where
  fits : s.base + n ≤ s.limit
  gap : ∀ j, s.contents.length ≤ j → j < s.base → s.cell j = 0

variable (m : Mem)
theorem mem_contents_length (inside : m.len ≤ m.buf.length) : (contents (.mem m)).length = m.len := by
  rw [contents, length_take, Nat.min_eq_left inside]

variable {s t u : Source} {data : Bytes}
theorem Wrote.base (wrote : Wrote s t data) : t.base = s.base + data.length := by
  have kind := wrote.kind.append
  have written := wrote.contents
  have moved := wrote.offset
  unfold Source.base at *
  rw [kind]
  cases appends : s.append with
  | false =>
    rw [appends] at moved
    simpa using moved
  | true =>
    rw [appends, if_pos rfl, overwrite_end] at written
    rw [if_pos rfl, if_pos rfl, written, length_append]

theorem Wrote.trans {back : Bytes} (first : Wrote s t data) (second : Wrote t u back) : Wrote s u (data ++ back) := by
  refine ⟨first.kind.trans second.kind, second.valid, ?_, ?_⟩
  · rw [second.contents, first.contents, first.base, overwrite_append]
  · rw [second.offset, first.base, length_append, Nat.add_assoc]

theorem Wrote.room {n : Nat} (wrote : Wrote s t data) (filled : data ≠ []) (room : Room s (data.length + n)) : Room t n := by
  have enough := room.fits
  refine ⟨?_, fun j past below => ?_⟩
  · rw [wrote.base, wrote.kind.limit]
    omega
  · rw [wrote.contents, overwrite_length 0 _ _ _ filled] at past
    rw [wrote.base] at below
    omega

theorem file_read_spec {s : Source} (valid : s.Valid) (n : Nat) : ∃ k t,
    fileRead s n = ((s.contents.drop s.offset).take k, t) ∧ k ≤ n ∧ (0 < n → 0 < k) ∧
      Moved s t (s.offset + ((s.contents.drop s.offset).take k).length) := by
  cases s with
  | fd d =>
    have short : d.moves n ≤ n := Nat.min_le_left _ _
    have some_moved : 0 < n → 0 < d.moves n := by
      intro some_asked
      unfold Descriptor.moves
      omega
    refine ⟨d.moves n, .fd (d.read n).2, rfl, short, some_moved, ⟨⟨rfl, rfl, rfl, rfl⟩, ⟨?_, valid.2⟩, rfl, rfl, rfl⟩⟩
    change d.offset + ((d.contents.drop d.offset).take (d.moves n)).length ≤ llongMax
    rw [length_take, length_drop]
    obtain ⟨inside, long⟩ := valid
    omega
  | mem m =>
    obtain ⟨inside, large, reach, rest⟩ := valid
    have same : (m.read n).1 = ((contents (.mem m)).drop m.pos).take n := by
      change (m.buf.drop m.pos).take (min n (m.len - m.pos)) = ((m.buf.take m.len).drop m.pos).take n
      rw [drop_take, take_take]
    have length : (((contents (.mem m)).drop m.pos).take n).length = min n (m.len - m.pos) := by
      rw [length_take, length_drop, mem_contents_length m inside]
    refine ⟨n, .mem (m.read n).2, ?_, Nat.le_refl n, fun some_asked => some_asked, ⟨⟨rfl, rfl, rfl, rfl⟩, ?_, rfl, rfl, ?_⟩⟩
    · exact congrArg (fun data => (data, Source.mem (m.read n).2)) same
    · refine ⟨inside, large, ?_, ?_⟩
      · change m.pos + min n (m.len - m.pos) ≤ llongMax
        omega
      · change if m.dynamic then m.buf[m.len]? = some 0 else m.pos + min n (m.len - m.pos) ≤ m.buf.length
        split
        · rwa [if_pos (by assumption)] at rest
        · rw [if_neg (by assumption)] at rest
          omega
    · exact congrArg (m.pos + ·) length.symm

variable {whence : Whence} {off : Int} {p : Nat}
theorem target_le {position length : Nat}
    (reached : target position length off whence = some p) : p ≤ llongMax := by
  obtain ⟨base, _, landed⟩ := Option.bind_eq_some_iff.mp reached
  split at landed
  · rename_i bounds
    cases landed
    omega
  · cases landed

theorem file_seek_refused {s : Source} (inside : s.Valid) {off : Int} {whence : Whence}
    (refused : ∀ p, target s.offset s.contents.length off whence = some p → s.cap.any (· < p) = true) :
    fileSeek s off whence = (none, s) := by
  cases s with
  | fd d =>
    cases reached : target d.offset d.contents.length off whence with
    | none => simp only [fileSeek, Descriptor.lseek, reached]
    | some p => exact absurd (refused p reached) Bool.false_ne_true
  | mem m =>
    rw [mem_contents_length m inside.1] at refused
    cases reached : target m.pos m.len off whence with
    | none => simp only [fileSeek, Mem.seek, reached]
    | some p =>
      have past := refused p reached
      have fixed : m.dynamic = false ∧ m.buf.length < p := by
        unfold cap at past
        cases kind : m.dynamic <;> simp_all
      simp only [fileSeek, Mem.seek, reached, if_pos fixed]

theorem file_seek_moved {s : Source} (inside : s.Valid)
    (reached : target s.offset s.contents.length off whence = some p) (allowed : s.cap.any (· < p) = false) :
    ∃ t, fileSeek s off whence = (some p, t) ∧ Moved s t p := by
  have bound := target_le reached
  cases s with
  | fd d =>
    refine ⟨.fd { d with offset := p }, ?_, ⟨rfl, rfl, rfl, rfl⟩, ⟨bound, inside.2⟩, rfl, rfl, rfl⟩
    change target d.offset d.contents.length off whence = some p at reached
    simp only [fileSeek, Descriptor.lseek, reached]
  | mem m =>
    obtain ⟨held, large, _, rest⟩ := inside
    rw [mem_contents_length m held] at reached
    change target m.pos m.len off whence = some p at reached
    have within : ¬ (m.dynamic = false ∧ m.buf.length < p) := by
      rintro ⟨fixed, past⟩
      unfold cap at allowed
      simp [fixed] at allowed
      omega
    refine ⟨.mem { m with pos := p }, ?_, ⟨rfl, rfl, rfl, rfl⟩, ⟨held, large, bound, ?_⟩, rfl, rfl, rfl⟩
    · simp only [fileSeek, Mem.seek, reached, if_neg within]
    · dsimp only
      split
      · rwa [if_pos (by assumption)] at rest
      · rename_i fixed
        exact Nat.not_lt.mp fun past => within ⟨Bool.eq_false_iff.mpr fixed, past⟩

theorem publish_moved {s : Source} (valid : s.Valid) : Moved s (memPublish s) s.offset := by
  cases s with
  | fd d => exact ⟨SameKind.refl _, valid, rfl, rfl, rfl⟩
  | mem m =>
    change Moved (.mem m) (.mem m.publish) m.pos
    unfold Mem.publish
    split
    · exact ⟨⟨rfl, rfl, rfl, rfl⟩, valid, rfl, rfl, rfl⟩
    · exact ⟨SameKind.refl _, valid, rfl, rfl, rfl⟩

theorem new_size_spec (fuel ns : Nat) {need : Nat} (some_size : 0 < ns) (enough : need ≤ ns + fuel) (small : ns ≤ llongMax)
    (fits : need ≤ llongMax) : need ≤ newSize fuel ns need ∧ newSize fuel ns need ≤ llongMax := by
  induction fuel generalizing ns with
  | zero => exact ⟨enough, small⟩
  | succ fuel ih =>
    unfold newSize
    split
    · split
      · exact ⟨Nat.le_refl need, fits⟩
      · exact ih (ns * 2) (by omega) (by omega) (by omega)
    · exact ⟨by omega, small⟩

theorem reserve_spec (n : Nat) (large : m.buf.length ≤ llongMax) (fits : m.pos + n + 1 ≤ llongMax) :
    ∃ extra, m.reserve n = some { m with buf := m.buf ++ extra } ∧ m.pos + n < (m.buf ++ extra).length ∧
      (m.buf ++ extra).length ≤ llongMax ∧ ∀ j < (m.buf ++ extra).length, (m.buf ++ extra)[j]? = some (m.buf.getD j (m.heap j)) := by
  have wide : llongMax < sizeMax - 1 := by decide
  unfold Mem.reserve
  rw [if_neg (by omega), if_neg (by omega)]
  dsimp only
  rw [if_neg (by omega)]
  split
  · have least : 128 ≤ llongMax := by decide
    obtain ⟨low, high⟩ := new_size_spec (m.pos + n + 1) (if m.buf.length = 0 then 128 else m.buf.length)
      (by split <;> omega) (by omega) (by split <;> omega) fits
    generalize newSize (m.pos + n + 1) (if m.buf.length = 0 then 128 else m.buf.length) (m.pos + n + 1) = size at *
    refine ⟨(List.range (size - m.buf.length)).map fun i => m.heap (m.buf.length + i), rfl, ?_, ?_, fun j below => ?_⟩
    · rw [length_append, length_map, length_range]
      omega
    · rw [length_append, length_map, length_range]
      omega
    · rw [length_append, length_map, length_range] at below
      rw [List.getElem?_append]
      split
      · rename_i inside
        rw [getD_eq_getElem _ _ inside, List.getElem?_eq_getElem inside]
      · rw [List.getElem?_map, List.getElem?_range (by omega), getD_eq_default _ _ (by omega), Option.map_some,
          Nat.add_sub_of_le (by omega)]
  · refine ⟨[], ?_, ?_, ?_, fun j below => ?_⟩
    · rw [append_nil]
    · rw [append_nil]
      omega
    · rwa [append_nil]
    · rw [append_nil] at below ⊢
      rw [getD_eq_getElem _ _ below, List.getElem?_eq_getElem below]

def stored (m : Mem) (data : Bytes) : Bytes := m.buf.take m.pos ++ data ++ m.buf.drop (m.pos + data.length)

theorem stored_length (data : Bytes) (fits : m.pos + data.length ≤ m.buf.length) :
    (stored m data).length = m.buf.length := by
  rw [stored, length_append, length_append, length_take, length_drop]
  omega

theorem store_spec {data : Bytes} (filled : data ≠ []) (held : m.len ≤ m.buf.length)
    (fits : m.pos + data.length ≤ m.buf.length) (gap : ∀ j, m.len ≤ j → j < m.pos → m.buf[j]? = some 0) : ∃ t, m.store data = (data.length, t) ∧ t.buf.length = m.buf.length ∧
      t.len = max m.len (m.pos + data.length) ∧ t.pos = m.pos + data.length ∧ t.dynamic = m.dynamic ∧
      t.append = m.append ∧ t.buf.take t.len = overwrite 0 (m.buf.take m.len) m.pos data ∧
      (t.len < t.buf.length → t.buf[t.len]? = some 0) := by
  have whole : min data.length (m.buf.length - m.pos) = data.length := by omega
  have size := stored_length m data fits
  have kept := overwrite_block 0 filled held (by omega) gap
  unfold Mem.store
  rw [whole]
  dsimp only
  rw [take_length]
  refine ⟨_, rfl, ?_, publish_len _, publish_pos _, publish_dynamic _, publish_append _, ?_, ?_⟩
  · rw [publish_buf]
    dsimp only
    split
    · rw [length_set]
      exact size
    · exact size
  · rw [publish_buf, publish_len]
    dsimp only
    split
    · rw [take_set_of_le (Nat.le_refl _)]
      exact kept
    · exact kept
  · rw [publish_buf, publish_len]
    dsimp only
    split
    · rename_i below
      intro _
      exact List.getElem?_set_self below
    · rename_i below
      exact fun inside => absurd inside below

theorem to_end_spec (held : m.len ≤ m.buf.length) : m.toEnd.pos = base (.mem m) ∧ m.toEnd.buf = m.buf ∧
    m.toEnd.len = m.len ∧ m.toEnd.dynamic = m.dynamic ∧ m.toEnd.append = m.append ∧ m.toEnd.heap = m.heap := by
  unfold Mem.toEnd Source.base
  rw [mem_contents_length m held]
  change _ = (if m.append then m.len else m.pos) ∧ _
  cases appends : m.append <;> exact ⟨rfl, rfl, rfl, rfl, by first | rfl | exact appends, rfl⟩

theorem store_wrote (b : Mem) (data : Bytes) (filled : data ≠ []) (position : b.pos = base (.mem m)) (lengths : b.len = m.len)
    (kind : b.dynamic = m.dynamic) (appends : b.append = m.append) (held : m.len ≤ b.buf.length)
    (large : b.buf.length ≤ llongMax) (same : b.buf.take m.len = m.buf.take m.len)
    (size : if m.dynamic then m.len < b.buf.length ∧ b.pos + data.length < b.buf.length else b.buf.length = m.buf.length)
    (fits : b.pos + data.length ≤ b.buf.length) (gap : ∀ j, m.len ≤ j → j < b.pos → b.buf[j]? = some 0) :
    ∃ t, b.store data = (data.length, t) ∧ Wrote (.mem m) (.mem t) data := by
  rw [← lengths] at held gap same
  obtain ⟨t, ran, wide, long, moved, grows, ends, written, closed⟩ := store_spec b filled held fits gap
  refine ⟨t, ran, ⟨⟨rfl, ends.trans appends, ?_, ?_⟩, ⟨by omega, by omega, by omega, ?_⟩, ?_, ?_⟩⟩
  · simp only [cap, grows, kind, wide]
    split
    · rfl
    · rename_i fixed
      rw [if_neg fixed] at size
      rw [size]
  · simp only [limit, grows, kind, wide]
    split
    · rfl
    · rename_i fixed
      rw [if_neg fixed] at size
      exact size
  · rw [grows, kind]
    split
    · rename_i growing
      rw [if_pos growing] at size
      exact closed (by omega)
    · omega
  · rw [lengths] at written same
    rw [contents, contents, written, ← same, position]
  · rw [← position]
    exact moved

theorem mem_write_spec (data : Bytes) (filled : data ≠ []) (inside : (Source.mem m).Valid)
    (room : (Source.mem m).Room data.length) : ∃ t, m.write data = (some data.length, t) ∧ Wrote (.mem m) (.mem t) data := by
  obtain ⟨held, large, reach, rest⟩ := inside
  obtain ⟨position, block, lengths, kind, appends, heap⟩ := to_end_spec m held
  have fits := room.fits
  have gap := room.gap
  rw [mem_contents_length m held, ← position] at gap
  rw [← position, limit] at fits
  unfold Mem.write
  dsimp only
  generalize m.toEnd = a at *
  rw [kind]
  cases growing : m.dynamic with
  | true =>
    rw [growing, if_pos rfl] at rest fits
    have ended : m.len < m.buf.length := (List.getElem?_eq_some_iff.mp rest).1
    obtain ⟨extra, reserved, wide, small, cells⟩ := reserve_spec a data.length (by rw [block]; exact large) (by omega)
    rw [block] at wide small reserved cells
    rw [heap] at cells
    have zeroed : ∀ j, m.len ≤ j → j < a.pos → (m.buf ++ extra)[j]? = some 0 := by
      intro j past below
      rw [cells j (by omega)]
      exact congrArg some (gap j past below)
    rw [length_append] at wide small
    have kept : (m.buf ++ extra).take m.len = m.buf.take m.len := take_append_of_le_length held
    obtain ⟨t, ran, wrote⟩ := store_wrote m { a with buf := m.buf ++ extra } data filled position lengths kind appends
      (by rw [length_append]; omega) (by rw [length_append]; omega) kept
      (by rw [growing, if_pos rfl, length_append]; exact ⟨by omega, wide⟩)
      (by rw [length_append]; exact Nat.le_of_lt wide) zeroed
    rw [if_pos rfl, reserved]
    dsimp only
    rw [ran]
    exact ⟨t, rfl, wrote⟩
  | false =>
    rw [growing, if_neg Bool.false_ne_true] at rest fits
    have zeroed : ∀ j, m.len ≤ j → j < a.pos → a.buf[j]? = some 0 := by
      intro j past below
      have inside : j < m.buf.length := by omega
      have zero : m.buf.getD j (m.heap j) = 0 := gap j past below
      rw [getD_eq_getElem _ _ inside] at zero
      rw [block, List.getElem?_eq_getElem inside, zero]
    obtain ⟨t, ran, wrote⟩ := store_wrote m a data filled position lengths kind appends (by rw [block]; exact held)
      (by rw [block]; exact large) (by rw [block]) (by rw [growing, if_neg Bool.false_ne_true, block])
      (by rw [block]; exact fits) zeroed
    rw [if_neg Bool.false_ne_true]
    dsimp only
    rw [ran]
    exact ⟨t, rfl, wrote⟩

theorem file_write_spec (s : Source) (data : Bytes) (inside : s.Valid) (filled : data ≠ []) (room : s.Room data.length) :
    ∃ n t, fileWrite s data = (some (n + 1), t) ∧ n + 1 ≤ data.length ∧ Wrote s t (data.take (n + 1)) := by
  have some_data := length_pos_iff.mpr filled
  cases s with
  | fd d =>
    have fits := room.fits
    obtain ⟨n, moved⟩ : ∃ n, d.moves data.length = n + 1 := Nat.exists_eq_succ_of_ne_zero (by
      unfold Descriptor.moves
      omega)
    have short : d.moves data.length ≤ data.length := Nat.min_le_left _ _
    rw [moved] at short
    refine ⟨n, .fd (d.write data).2, ?_, short, ⟨⟨rfl, rfl, rfl, rfl⟩, ?_, ?_, ?_⟩⟩
    · simp only [fileWrite, Descriptor.write, moved]
    · change d.offset + data.length ≤ llongMax at fits
      refine ⟨?_, ?_⟩
      · simp only [Descriptor.write, moved]
        omega
      · simp only [Descriptor.write, moved]
        rw [overwrite_length 0 _ _ _ (by simpa using filled), length_take]
        have long := inside.2
        omega
    · simp only [Descriptor.write, moved, contents]
      rfl
    · simp only [Descriptor.write, moved, offset, length_take, Nat.min_eq_left short]
      rfl
  | mem m =>
    obtain ⟨t, wrote, spec⟩ := mem_write_spec m data filled inside room
    obtain ⟨n, size⟩ := Nat.exists_eq_succ_of_ne_zero (Nat.pos_iff_ne_zero.mp some_data)
    refine ⟨n, .mem t, ?_, Nat.le_of_eq size.symm, ?_⟩
    · simp only [fileWrite, wrote, size]
    · rw [take_of_length_le (Nat.le_of_eq size)]
      exact spec

theorem write_all_spec (fuel : Nat) (s : Source) (data : Bytes) (enough : data.length ≤ fuel) (inside : s.Valid)
    (filled : data ≠ []) (room : s.Room data.length) : ∃ t, writeAll fuel s data = (true, t) ∧ Wrote s t data := by
  induction fuel generalizing s data with
  | zero => exact absurd (length_eq_zero_iff.mp (Nat.le_zero.mp enough)) filled
  | succ fuel ih =>
    obtain ⟨n, t, wrote, short, spec⟩ := file_write_spec s data inside filled room
    have front : (data.take (n + 1)).length = n + 1 := by rw [length_take, Nat.min_eq_left short]
    have started : data.take (n + 1) ≠ [] := length_pos_iff.mp (by omega)
    rw [writeAll, if_neg filled, wrote]
    dsimp only
    rw [if_neg (by omega)]
    by_cases last : data.drop (n + 1) = []
    · have whole : data.take (n + 1) = data := take_of_length_le (drop_eq_nil_iff.mp last)
      rw [last]
      refine ⟨t, ?_, whole ▸ spec⟩
      cases fuel <;> rfl
    · have rest : (data.take (n + 1)).length + (data.drop (n + 1)).length = data.length := by
        rw [← length_append, take_append_drop]
      obtain ⟨u, ran, wroteRest⟩ := ih t (data.drop (n + 1)) (by omega) spec.valid last (spec.room started (by rw [rest]; exact room))
      refine ⟨u, ran, ?_⟩
      have joined := spec.trans wroteRest
      rwa [take_append_drop] at joined

end Source
end Spicule.Stdio
