import Spicule.Lib.Overwrite

-- A FILE over a descriptor or a block of memory; long long, size_t and pointers have 64 bits.
-- Allocation succeeds and nothing is pushed back.
namespace Spicule.Stdio
open Overwrite

abbrev Bytes := List UInt8

def llongMax : Nat := 2 ^ 63 - 1

def sizeMax : Nat := 2 ^ 64 - 1

def bufsiz : Nat := 4096

inductive Whence where
  | set
  | cur
  | fromEnd
  | invalid
deriving DecidableEq, Repr

def seekBase (position length : Nat) : Whence → Option Nat
  | .set => some 0
  | .cur => some position
  | .fromEnd => some length
  | .invalid => none

def target (position length : Nat) (off : Int) (whence : Whence) : Option Nat :=
  (seekBase position length whence).bind fun base =>
    if base ≤ llongMax ∧ 0 ≤ base + off ∧ base + off ≤ llongMax then some (base + off).toNat else none

-- A seekable file opened without O_APPEND; `grant`: how many bytes after the first the k-th
-- transfer moves at most.
structure Descriptor where
  contents : Bytes
  offset : Nat
  grant : Nat → Nat
  calls : Nat

def Descriptor.moves (d : Descriptor) (n : Nat) : Nat := min n (min (d.grant d.calls + 1) 0x7fffffff)

def Descriptor.read (d : Descriptor) (n : Nat) : Bytes × Descriptor :=
  let data := (d.contents.drop d.offset).take (d.moves n)
  (data, { d with offset := d.offset + data.length, calls := d.calls + 1 })

def Descriptor.write (d : Descriptor) (data : Bytes) : Nat × Descriptor :=
  let n := d.moves data.length
  (n, { d with contents := overwrite 0 d.contents d.offset (data.take n), offset := d.offset + n, calls := d.calls + 1 })

def Descriptor.lseek (d : Descriptor) (off : Int) (whence : Whence) : Option Nat × Descriptor :=
  match target d.offset d.contents.length off whence with
  | none => (none, d)
  | some position => (some position, { d with offset := position })

-- mem_size is the length of `buf`; `heap` is what a larger block holds behind it.
structure Mem where
  buf : Bytes
  pos : Nat
  len : Nat
  dynamic : Bool
  append : Bool
  heap : Nat → UInt8
  outSize : Nat

def Mem.read (m : Mem) (n : Nat) : Bytes × Mem :=
  let n := min n (m.len - m.pos)
  ((m.buf.drop m.pos).take n, { m with pos := m.pos + n })

def Mem.publish (m : Mem) : Mem := if m.dynamic then { m with outSize := min m.pos m.len } else m

section
variable (m : Mem)

@[simp] theorem publish_buf : m.publish.buf = m.buf := by unfold Mem.publish; split <;> rfl

@[simp] theorem publish_pos : m.publish.pos = m.pos := by unfold Mem.publish; split <;> rfl

@[simp] theorem publish_len : m.publish.len = m.len := by unfold Mem.publish; split <;> rfl

@[simp] theorem publish_dynamic : m.publish.dynamic = m.dynamic := by unfold Mem.publish; split <;> rfl

@[simp] theorem publish_append : m.publish.append = m.append := by unfold Mem.publish; split <;> rfl

end

def newSize : Nat → Nat → Nat → Nat
  | 0, ns, _ => ns
  | fuel + 1, ns, need =>
    if ns < need then (if llongMax / 2 < ns then need else newSize fuel (ns * 2) need) else ns

def realloc (m : Mem) (size : Nat) : Bytes :=
  m.buf ++ (List.range (size - m.buf.length)).map fun i => m.heap (m.buf.length + i)

def Mem.reserve (m : Mem) (n : Nat) : Option Mem :=
  if llongMax < m.pos ∨ llongMax - m.pos < n then none
  else if sizeMax - 1 < m.pos + n then none
  else
    let need := m.pos + n + 1
    if llongMax < need then none
    else if m.buf.length < need then
      some { m with buf := realloc m (newSize need (if m.buf.length = 0 then 128 else m.buf.length) need) }
    else some m

def Mem.store (m : Mem) (data : Bytes) : Nat × Mem :=
  let n := min data.length (m.buf.length - m.pos)
  let len := max m.len (m.pos + n)
  let buf := m.buf.take m.pos ++ data.take n ++ m.buf.drop (m.pos + n)
  (n, Mem.publish { m with buf := if len < buf.length then buf.set len 0 else buf, pos := m.pos + n, len := len })

-- Append mode writes at the end, wherever the last seek went.
def Mem.toEnd (m : Mem) : Mem := if m.append then { m with pos := m.len } else m

def Mem.write (m : Mem) (data : Bytes) : Option Nat × Mem :=
  let m := m.toEnd
  match if m.dynamic then m.reserve data.length else some m with
  | none => (none, m)
  | some m =>
    let (n, m) := m.store data
    (some n, m)

def Mem.seek (m : Mem) (off : Int) (whence : Whence) : Option Nat × Mem :=
  match target m.pos m.len off whence with
  | none => (none, m)
  | some position =>
    if m.dynamic = false ∧ m.buf.length < position then (none, m) else (some position, { m with pos := position })

inductive Source where
  | fd (d : Descriptor)
  | mem (m : Mem)

def Source.isMem : Source → Bool
  | .fd _ => false
  | .mem _ => true

def fileRead : Source → Nat → Bytes × Source
  | .fd d, n => ((d.read n).1, .fd (d.read n).2)
  | .mem m, n => ((m.read n).1, .mem (m.read n).2)

-- none is -1.
def fileWrite : Source → Bytes → Option Nat × Source
  | .fd d, data => (some (d.write data).1, .fd (d.write data).2)
  | .mem m, data => ((m.write data).1, .mem (m.write data).2)

def fileSeek : Source → Int → Whence → Option Nat × Source
  | .fd d, off, whence => ((d.lseek off whence).1, .fd (d.lseek off whence).2)
  | .mem m, off, whence => ((m.seek off whence).1, .mem (m.seek off whence).2)

def memPublish : Source → Source
  | .fd d => .fd d
  | .mem m => .mem m.publish

inductive BufMode where
  | full
  | line
  | unbuffered
deriving DecidableEq, Repr

structure File where
  src : Source
  readable : Bool
  writable : Bool
  bufmode : BufMode
  buf : Option Bytes
  bufsz : Nat
  rpos : Nat
  rend : Nat
  wpos : Nat
  eof : Bool
  err : Bool

def File.cells (f : File) : Bytes := f.buf.getD []

def File.unread (f : File) : Bytes := (f.cells.drop f.rpos).take (f.rend - f.rpos)

def File.pending (f : File) : Bytes := f.cells.take f.wpos

def ensureBuf (f : File) : File :=
  match f.buf with
  | some _ => f
  | none =>
    let sz := if f.bufmode = .unbuffered then 1 else if f.bufsz = 0 then bufsiz else f.bufsz
    { f with buf := some (List.replicate sz 0), bufsz := sz }

def writeAll : Nat → Source → Bytes → Bool × Source
  | 0, src, data => (data.isEmpty, src)
  | fuel + 1, src, data =>
    if data = [] then (true, src)
    else
      match fileWrite src data with
      | (some (n + 1), src) => if data.length < n + 1 then (false, src) else writeAll fuel src (data.drop (n + 1))
      | (_, src) => (false, src)

def resync (f : File) : Bool × File :=
  if f.readable then
    if f.rpos < f.rend ∧ f.src.isMem = false then
      match fileSeek f.src (-((f.rend - f.rpos : Nat) : Int)) .cur with
      | (none, src) => (false, { f with src := src, err := true })
      | (some _, src) => (true, { f with src := memPublish src, rpos := 0, rend := 0 })
    else (true, { f with src := memPublish f.src, rpos := 0, rend := 0 })
  else (true, { f with src := memPublish f.src })

def fflushLocked (f : File) : Bool × File :=
  if f.writable ∧ 0 < f.wpos then
    if f.bufsz < f.wpos then (false, { f with err := true, wpos := 0 })
    else
      match writeAll f.wpos f.src f.pending with
      | (false, src) => (false, { f with src := src, err := true, wpos := 0 })
      | (true, src) => resync { f with src := src, wpos := 0 }
  else resync { f with wpos := 0 }

def toread (f : File) : Bool × File := if 0 < f.wpos then fflushLocked f else (true, f)

def towrite (f : File) : Bool × File :=
  if f.rpos < f.rend then
    match fileSeek f.src (-((f.rend - f.rpos : Nat) : Int)) .cur with
    | (none, src) => (false, { f with src := src, rpos := 0, rend := 0, err := true })
    | (some _, src) => (true, { f with src := src, rpos := 0, rend := 0 })
  else (true, f)

-- false is the end of the file.
def fill (f : File) : Bool × File :=
  let f := ensureBuf f
  match fileRead f.src f.bufsz with
  | ([], src) => (false, { f with src := src, rpos := 0, rend := 0, eof := true })
  | (data, src) =>
    (true, { f with src := src, buf := some (data ++ f.cells.drop data.length), rpos := 0, rend := data.length })

-- none is EOF.
def fgetc (f : File) : Option UInt8 × File :=
  if f.readable then
    match toread f with
    | (false, f) => (none, f)
    | (true, f) =>
      if f.bufmode = .unbuffered then
        match fileRead f.src 1 with
        | ([], src) => (none, { f with src := src, eof := true })
        | (c :: _, src) => (some c, { f with src := src })
      else if f.rpos < f.rend then (f.cells[f.rpos]?, { f with rpos := f.rpos + 1 })
      else
        match fill f with
        | (false, f) => (none, f)
        | (true, f) => (f.cells[f.rpos]?, { f with rpos := f.rpos + 1 })
  else (none, { f with err := true })

def fputc (c : UInt8) (f : File) : Option UInt8 × File :=
  if f.writable then
    match towrite f with
    | (false, f) => (none, f)
    | (true, f) =>
      if f.bufmode = .unbuffered then
        match fileWrite f.src [c] with
        | (some (_ + 1), src) => (some c, { f with src := src })
        | (_, src) => (none, { f with src := src, err := true })
      else
        let f := ensureBuf f
        let f := { f with buf := some (f.cells.set f.wpos c), wpos := f.wpos + 1 }
        if f.bufsz ≤ f.wpos ∨ (f.bufmode = .line ∧ c = 10) then
          match fflushLocked f with
          | (false, f) => (none, f)
          | (true, f) => (some c, f)
        else (some c, f)
  else (none, { f with err := true })

def freadLoop : Nat → Nat → Bytes → File → Bytes × File
  | 0, _, got, f => (got, f)
  | fuel + 1, want, got, f =>
    if want = 0 then (got, f)
    else if f.rpos < f.rend then
      let n := min want (f.rend - f.rpos)
      freadLoop fuel (want - n) (got ++ (f.cells.drop f.rpos).take n) { f with rpos := f.rpos + n }
    else if (if f.bufsz = 0 then bufsiz else f.bufsz) ≤ want then
      match fileRead f.src want with
      | ([], src) => (got, { f with src := src, eof := true })
      | (data, src) => freadLoop fuel (want - data.length) (got ++ data) { f with src := src }
    else
      match fill f with
      | (false, f) => (got, f)
      | (true, f) => freadLoop fuel want got f

def fread (size nmemb : Nat) (f : File) : (Bytes × Nat) × File :=
  if size = 0 ∨ nmemb = 0 then (([], 0), f)
  else if sizeMax / size < nmemb then (([], 0), { f with err := true })
  else if f.readable then
    match toread f with
    | (false, f) => (([], 0), f)
    | (true, f) =>
      let (got, f) := freadLoop (2 * (size * nmemb) + 1) (size * nmemb) [] f
      ((got, got.length / size), f)
  else (([], 0), { f with err := true })

def fwriteLoop : Nat → Bytes → Nat → File → Nat × File
  | 0, _, put, f => (put, f)
  | fuel + 1, data, put, f =>
    if data = [] then (put, f)
    else
      let f := ensureBuf f
      if f.wpos = 0 ∧ f.bufsz ≤ data.length then
        match fileWrite f.src data with
        | (some (r + 1), src) => fwriteLoop fuel (data.drop (r + 1)) (put + (r + 1)) { f with src := src }
        | (_, src) => (put, { f with src := src, err := true })
      else
        let n := min data.length (f.bufsz - f.wpos)
        let nl := f.bufmode = .line ∧ (data.take n).contains 10 = true
        let f := { f with buf := some (f.cells.take f.wpos ++ data.take n ++ f.cells.drop (f.wpos + n)),
                          wpos := f.wpos + n }
        if f.bufsz ≤ f.wpos ∨ nl then
          match fflushLocked f with
          | (false, f) => (put + n, f)
          | (true, f) => fwriteLoop fuel (data.drop n) (put + n) f
        else fwriteLoop fuel (data.drop n) (put + n) f

def fwrite (data : Bytes) (size nmemb : Nat) (f : File) : Nat × File :=
  if size = 0 ∨ nmemb = 0 then (0, f)
  else if sizeMax / size < nmemb then (0, { f with err := true })
  else if f.writable then
    match towrite f with
    | (false, f) => (0, f)
    | (true, f) =>
      let (put, f) := fwriteLoop (size * nmemb) (data.take (size * nmemb)) 0 f
      (put / size, f)
  else (0, { f with err := true })

-- false is EOF.
def fflush (f : File) : Bool × File := fflushLocked f

def seekTo (f : File) (off : Int) (whence : Whence) : Bool × File :=
  match fileSeek f.src off whence with
  | (none, src) => (false, { f with src := src })
  | (some _, src) => (true, { f with src := src, rpos := 0, rend := 0, eof := false })

def fseekoClean (f : File) (off : Int) (whence : Whence) : Bool × File :=
  if whence = .cur then
    let adjust := f.rend - f.rpos
    if llongMax < adjust ∨ off < -2 ^ 63 + adjust then (false, f) else seekTo f (off - adjust) whence
  else seekTo f off whence

-- false is -1.
def fseeko (f : File) (off : Int) (whence : Whence) : Bool × File :=
  if 0 < f.wpos then
    match fflushLocked f with
    | (false, f) => (false, f)
    | (true, f) => fseekoClean f off whence
  else fseekoClean f off whence

-- none is -1.
def ftello (f : File) : Option Nat × File :=
  match fileSeek f.src 0 .cur with
  | (none, src) => (none, { f with src := src })
  | (some pos, src) =>
    let f := { f with src := src }
    let unread := f.rend - f.rpos
    if pos < unread then (none, f)
    else if llongMax - (pos - unread) < f.wpos then (none, f)
    else (some (pos - unread + f.wpos), f)

inductive Op where
  | fgetc
  | fread (size nmemb : Nat)
  | fputc (c : UInt8)
  | fwrite (data : Bytes) (size nmemb : Nat)
  | fflush
  | fseeko (off : Int) (whence : Whence)
  | ftello

inductive Answer where
  | char (c : Option UInt8)
  | block (bytes : Bytes) (count : Nat)
  | count (n : Nat)
  | done (success : Bool)
  | position (pos : Option Nat)
deriving DecidableEq, Repr

def step (f : File) : Op → Answer × File
  | .fgetc => let (c, f) := fgetc f; (.char c, f)
  | .fread size nmemb => let ((bytes, n), f) := fread size nmemb f; (.block bytes n, f)
  | .fputc c => let (c, f) := fputc c f; (.char c, f)
  | .fwrite data size nmemb => let (n, f) := fwrite data size nmemb f; (.count n, f)
  | .fflush => let (r, f) := fflush f; (.done r, f)
  | .fseeko off whence => let (r, f) := fseeko f off whence; (.done r, f)
  | .ftello => let (pos, f) := ftello f; (.position pos, f)

def run (f : File) : List Op → List Answer × File
  | [] => ([], f)
  | op :: ops =>
    let (answer, f) := step f op
    let (answers, f) := run f ops
    (answer :: answers, f)

end Spicule.Stdio
