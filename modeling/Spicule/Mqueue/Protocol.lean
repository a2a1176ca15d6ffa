import Spicule.Diff.Lines
import Spicule.Lib.Table
import Spicule.Lib.Crowd

namespace Spicule.Mqueue
open Nat
open Function
open Diff (Bytes)

inductive Errno where
  | ebadf | emsgsize | einval | eintr | eagain | etimedout | eio | ebusy
  -- what the platform call that failed has set
  | platform
deriving DecidableEq, Repr

def mqMagic : Nat := 0x4e544d51
def mqVersion : Nat := 2
def mqMaxmsgLimit : Nat := 256
def mqMsgsizeLimit : Nat := 65536
def mqPrioMax : Nat := 32768

structure MqHeader where
  magic : Nat
  version : Nat
  maxmsg : Nat
  msgsize : Nat
  curmsgs : Nat
  receiveWaiters : Nat
  sequence : Nat
  notifyActive : Nat
  notifyKind : Nat
  notifyPid : Nat
  notifyFd : Nat
  signo : Nat
  value : Nat
deriving DecidableEq, Repr

structure MqSlot where
  used : Nat
  priority : Nat
  length : Nat
  reserved : Nat
  sequence : Nat
deriving DecidableEq, Repr

def emptySlot : MqSlot := ⟨0, 0, 0, 0, 0⟩

-- A little-endian field after the first `moved` bytes of its new value are written.
def torn (width moved old new : Nat) : Nat :=
  if width ≤ moved then new else old / 256 ^ moved * 256 ^ moved + new % 256 ^ moved

def MqSlot.torn (moved : Nat) (old new : MqSlot) : MqSlot where
  used := Mqueue.torn 4 moved old.used new.used
  priority := Mqueue.torn 4 (moved - 4) old.priority new.priority
  length := Mqueue.torn 4 (moved - 8) old.length new.length
  reserved := Mqueue.torn 4 (moved - 12) old.reserved new.reserved
  sequence := Mqueue.torn 8 (moved - 16) old.sequence new.sequence

def MqHeader.torn (moved : Nat) (old new : MqHeader) : MqHeader where
  magic := Mqueue.torn 4 moved old.magic new.magic
  version := Mqueue.torn 4 (moved - 4) old.version new.version
  maxmsg := Mqueue.torn 4 (moved - 8) old.maxmsg new.maxmsg
  msgsize := Mqueue.torn 4 (moved - 12) old.msgsize new.msgsize
  curmsgs := Mqueue.torn 4 (moved - 16) old.curmsgs new.curmsgs
  receiveWaiters := Mqueue.torn 4 (moved - 20) old.receiveWaiters new.receiveWaiters
  sequence := Mqueue.torn 8 (moved - 24) old.sequence new.sequence
  notifyActive := Mqueue.torn 4 (moved - 32) old.notifyActive new.notifyActive
  notifyKind := Mqueue.torn 4 (moved - 36) old.notifyKind new.notifyKind
  notifyPid := Mqueue.torn 4 (moved - 40) old.notifyPid new.notifyPid
  notifyFd := Mqueue.torn 4 (moved - 44) old.notifyFd new.notifyFd
  signo := Mqueue.torn 4 (moved - 48) old.signo new.signo
  value := Mqueue.torn 8 (moved - 56) old.value new.value

theorem torn_same (width moved value : Nat) : torn width moved value value = value := by
  unfold torn
  split
  · rfl
  · exact div_add_mod' value (256 ^ moved)

theorem torn_zero {width : Nat} (wide : 0 < width) (old new : Nat) : torn width 0 old new = old := by
  unfold torn
  rw [if_neg (by omega), Nat.pow_zero, Nat.div_one, Nat.mul_one, Nat.mod_one, Nat.add_zero]

theorem torn_bit {width moved old new : Nat} (wide : 0 < moved) (oldBit : old ≤ 1) (newBit : new ≤ 1) :
    torn width moved old new = new := by
  unfold torn
  split
  · rfl
  · have large : 1 < 256 ^ moved := one_lt_pow (by omega) (by decide)
    rw [div_eq_of_lt (by omega), zero_mul, zero_add, mod_eq_of_lt (by omega)]

inductive Transfer where
  | complete
  | failed (moved : Nat) (error : Errno)
deriving DecidableEq, Repr

-- `raw_io`: what the calls of `__plat_thread_file_io` return; one that is not listed
-- transfers all that is left.
def rawIo : List Int → Nat → Transfer
  | [], _ => .complete
  | got :: rest, len =>
    if len = 0 then .complete
    else if got < 0 then .failed 0 .platform
    else if got = 0 then .failed 0 .eio
    else if len < got.toNat then .failed len .eio
    else
      match rawIo rest (len - got.toNat) with
      | .complete => .complete
      | .failed moved error => .failed (got.toNat + moved) error

structure Sem where
  count : Nat
  maximum : Nat
deriving DecidableEq, Repr

inductive WaitStatus where
  | ok | timeout | intr | error
deriving DecidableEq, Repr

-- `__plat_wait_one`; none: the wait goes on.
def waitOne (sem : Option Sem) : WaitStatus → Option (Option Sem)
  | .ok =>
    match sem with
    | some s => if 0 < s.count then some (some { s with count := s.count - 1 }) else none
    | none => none
  | _ => some sem

def Sem.post (s : Sem) : Sem := if s.count < s.maximum then { s with count := s.count + 1 } else s

-- A post past the maximum fails, and nobody looks.
def give (sem : Option Sem) : Option Sem := sem.map Sem.post

def createSem (sem : Option Sem) (initial maximum : Nat) : Option Sem :=
  match sem with
  | some s => some s
  | none => if initial ≤ maximum then some ⟨initial, maximum⟩ else none

structure Message where
  priority : Nat
  text : Bytes
deriving DecidableEq, Repr

structure Entry where
  tag : Nat
  message : Message
deriving DecidableEq, Repr

structure Delivery where
  entry : Entry
  present : List Entry
deriving DecidableEq, Repr

-- The backing file, the three semaphores (none: no such object) and the history, which the
-- code does not keep.
structure Queue where
  maxmsg : Nat
  msgsize : Nat
  header : MqHeader
  slot : Nat → MqSlot
  text : Nat → Bytes
  lock : Option Sem
  items : Option Sem
  spaces : Option Sem
  sent : List Message
  tag : Nat → Nat
  delivered : List Delivery
  returned : List Entry

def Queue.message (q : Queue) (i : Nat) : Message :=
  ⟨(q.slot i).priority, (q.text i).take (q.slot i).length⟩

def Queue.entry (q : Queue) (i : Nat) : Option Entry :=
  if (q.slot i).used = 0 then none else some ⟨q.tag i, q.message i⟩

def Queue.entries (q : Queue) : List Entry := Table.contents q.maxmsg q.entry

def Queue.used (q : Queue) : Nat := q.entries.length

def readable (q : Queue) (h : MqHeader) : Bool :=
  h.magic = mqMagic ∧ h.version = mqVersion ∧ h.maxmsg = q.maxmsg ∧ h.msgsize = q.msgsize

structure Timespec where
  sec : Int
  nsec : Int
deriving DecidableEq, Repr

structure Options where
  nonblock : Bool
  abstime : Option Timespec
deriving DecidableEq, Repr

def Options.badTime (o : Options) : Bool :=
  match o.abstime with
  | some t => decide (t.nsec < 0) || decide (1000000000 ≤ t.nsec)
  | none => false

def sigevSignal : Nat := 0
def sigevNone : Nat := 1

structure SigEvent where
  notify : Nat
  signo : Int
  value : Nat
deriving DecidableEq, Repr

def SigEvent.bad (e : SigEvent) : Bool :=
  (e.notify ≠ sigevSignal ∧ e.notify ≠ sigevNone) ∨ (e.notify = sigevSignal ∧ (e.signo < 0 ∨ 65 ≤ e.signo))

structure Notice where
  kind : Nat
  pid : Nat
  signo : Nat
  value : Nat
deriving DecidableEq, Repr

-- The header's changes that leave the messages alone. `leave`: how the wait ended, none
-- with the semaphore taken.
inductive Edit where
  | enroll (o : Options)
  | leave (outcome : Option Errno)
  | notify (event : Option SigEvent) (pid fd : Nat)
  | getattr
  | closing (pid fd : Nat)
deriving DecidableEq, Repr

inductive Result where
  | done
  | sent
  | received (got : Entry)
  | failed (error : Errno)
deriving DecidableEq, Repr

-- `closed` has no descriptor, `ready` is between two calls. A receive carries what it took;
-- the tag is of the history.
inductive Pc where
  | closed
  | openLock | openTake | openRead | openItems (h : MqHeader) | openSpaces (h : MqHeader) | openGive | openUndo
  | ready (last : Result)
  | sendProbe (m : Message) (o : Options) | sendWait (m : Message) (o : Options)
  | sendTake (m : Message) | sendRead (m : Message) | sendScan (m : Message) (h : MqHeader) (i : Nat)
  | sendText (m : Message) (h : MqHeader) (slot : Nat) | sendSlot (m : Message) (h : MqHeader) (slot : Nat)
  | sendCount (h : MqHeader) | sendGive (notice : Option Notice) | sendPost (notice : Option Notice)
  | sendUndo (error : Errno) | sendBack (error : Errno)
  | receiveProbe (o : Options) | receiveWait (o : Options)
  | receiveTake | receiveRead | receiveScan (h : MqHeader) (i : Nat) (best : MqSlot) (selected : Nat)
  | receiveText (h : MqHeader) (best : MqSlot) (selected : Nat)
  | receiveClear (h : MqHeader) (best : MqSlot) (selected : Nat) (text : Bytes)
  | receiveCount (h : MqHeader) (got : Entry) | receiveGive (got : Entry) | receivePost (got : Entry)
  | receiveUndo (error : Errno) | receiveBack (error : Errno)
  | editTake (e : Edit) | editRead (e : Edit) | editWrite (e : Edit) (h : MqHeader)
  | editGive (e : Edit) (failure : Option Errno)
  | closeSpaces | closeItems | closeLock
deriving DecidableEq, Repr

def Pc.inside : Pc → Bool
  | .openRead | .openItems _ | .openSpaces _ | .openGive | .openUndo => true
  | .sendRead _ | .sendScan _ _ _ | .sendText _ _ _ | .sendSlot _ _ _ | .sendCount _ | .sendGive _ | .sendUndo _ => true
  | .receiveRead | .receiveScan _ _ _ _ | .receiveText _ _ _ | .receiveClear _ _ _ _ | .receiveCount _ _
  | .receiveGive _ | .receiveUndo _ => true
  | .editRead _ | .editWrite _ _ | .editGive _ _ => true
  | _ => false

def Pc.hasLock : Pc → Bool
  | .closed | .openLock => false
  | _ => true

def Pc.hasItems : Pc → Bool
  | .closed | .openLock | .openTake | .openRead | .openItems _ | .openUndo | .closeLock => false
  | _ => true

def Pc.hasSpaces : Pc → Bool
  | .closed | .openLock | .openTake | .openRead | .openItems _ | .openSpaces _ | .openUndo | .closeItems | .closeLock => false
  | _ => true

def bump (counter : Nat) : Nat := if counter + 1 = 2 ^ 32 then 0 else counter + 1
def drop (counter : Nat) : Nat := if counter = 0 then 2 ^ 32 - 1 else counter - 1
def nextSequence (sequence : Nat) : Nat := if sequence + 1 = 2 ^ 64 then 0 else sequence + 1

def spare (h : MqHeader) : Nat :=
  if h.curmsgs ≤ h.maxmsg then h.maxmsg - h.curmsgs else h.maxmsg + 2 ^ 32 - h.curmsgs

-- none: nothing is written.
def Edit.rewrite : Edit → MqHeader → Except Errno (Option MqHeader)
  | .enroll _, h => .ok (some { h with receiveWaiters := bump h.receiveWaiters })
  | .leave _, h =>
    .ok (if h.receiveWaiters ≠ 0 then some { h with receiveWaiters := drop h.receiveWaiters } else none)
  | .notify none pid _, h =>
    .ok (some (if h.notifyActive ≠ 0 ∧ h.notifyPid = pid then { h with notifyActive := 0 } else h))
  | .notify (some event) pid fd, h =>
    if h.notifyActive ≠ 0 then .error .ebusy
    else
      let h := { h with notifyActive := 1, notifyKind := event.notify, notifyPid := pid, notifyFd := fd }
      .ok (some (if event.notify = sigevSignal then { h with signo := event.signo.toNat, value := event.value } else h))
  | .getattr, _ => .ok none
  | .closing pid fd, h =>
    .ok (if h.notifyActive ≠ 0 ∧ h.notifyPid = pid ∧ h.notifyFd = fd then some { h with notifyActive := 0 } else none)

def Edit.after : Edit → Option Errno → Pc
  | .enroll o, none => .receiveWait o
  | .enroll _, some e => .ready (.failed e)
  | .leave none, _ => .receiveTake
  | .leave (some e), _ => .ready (.failed e)
  | .notify _ _ _, none => .ready .done
  | .notify _ _ _, some e => .ready (.failed e)
  | .getattr, none => .ready .done
  | .getattr, some e => .ready (.failed e)
  | .closing _ _, _ => .closeSpaces

def headerSize : Nat := 400
def slotSize : Nat := 24

def Pc.ioSize (q : Queue) : Pc → Nat
  | .openRead | .sendRead _ | .sendCount _ | .receiveRead | .receiveCount _ _ | .editRead _ | .editWrite _ _ => headerSize
  | .sendScan _ _ i => if i < q.maxmsg then slotSize else 0
  | .receiveScan _ i _ _ => if i < q.maxmsg then slotSize else 0
  | .sendSlot _ _ _ | .receiveClear _ _ _ _ => slotSize
  | .sendText m _ _ => m.text.length
  | .receiveText _ best _ => best.length
  | _ => 0

structure Answer where
  status : WaitStatus
  caught : Bool
  expired : Bool
  gots : List Int
deriving DecidableEq, Repr

def takeLock (q : Queue) (status : WaitStatus) (yes no : Pc) : Option (Queue × Pc) :=
  (waitOne q.lock status).map fun lock => ({ q with lock := lock }, if status = .ok then yes else no)

def giveLock (q : Queue) (next : Pc) : Option (Queue × Pc) := some ({ q with lock := give q.lock }, next)

def probeNext (o : Options) (a : Answer) (yes blocked : Pc) : Pc :=
  match a.status with
  | .ok => yes
  | .error => .ready (.failed .platform)
  | _ =>
    if a.caught then .ready (.failed .eintr)
    else if o.nonblock then .ready (.failed .eagain)
    else if o.badTime then .ready (.failed .einval)
    else blocked

inductive Round where
  | ends (outcome : Option Errno)
  | again
deriving DecidableEq, Repr

def waitRound (o : Options) (a : Answer) (sem : Option Sem) : Option (Option Sem × Round) :=
  if a.caught then some (sem, .ends (some .eintr))
  else if o.abstime.isSome ∧ a.expired then some (sem, .ends (some .etimedout))
  else
    (waitOne sem a.status).map fun sem =>
      (sem, match a.status with
        | .ok => .ends none
        | .error => .ends (some .platform)
        | _ => .again)

def newSlot (m : Message) (h : MqHeader) : MqSlot := ⟨1, m.priority, m.text.length, 0, h.sequence⟩

def announce (h : MqHeader) : Option Notice :=
  if h.curmsgs = 0 ∧ h.notifyActive ≠ 0 ∧ h.receiveWaiters = 0 then
    some ⟨h.notifyKind, h.notifyPid, h.signo, h.value⟩
  else none

def countSent (h : MqHeader) : MqHeader :=
  { h with
    notifyActive := if (announce h).isSome then 0 else h.notifyActive
    curmsgs := bump h.curmsgs }

def countReceived (h : MqHeader) : MqHeader := { h with curmsgs := drop h.curmsgs }

def better (maxmsg selected : Nat) (s best : MqSlot) : Bool :=
  s.used ≠ 0 ∧ (selected = maxmsg ∨ best.priority < s.priority ∨
    (s.priority = best.priority ∧ s.sequence < best.sequence))

def sendStep (q : Queue) (a : Answer) (io : Transfer) : Pc → Option (Queue × Pc)
  | .sendProbe m o =>
    (waitOne q.spaces a.status).map fun spaces => ({ q with spaces := spaces }, probeNext o a (.sendTake m) (.sendWait m o))
  | .sendWait m o =>
    (waitRound o a q.spaces).map fun (spaces, round) =>
      ({ q with spaces := spaces }, match round with
        | .ends none => .sendTake m
        | .ends (some e) => .ready (.failed e)
        | .again => .sendWait m o)
  | .sendTake m => takeLock q a.status (.sendRead m) (.sendBack .platform)
  | .sendRead m =>
    match io with
    | .complete => some (q, if readable q q.header then .sendScan m q.header 0 else .sendUndo .eio)
    | .failed _ e => some (q, .sendUndo e)
  | .sendScan m h i =>
    if i < q.maxmsg then
      match io with
      | .complete => some (q, if (q.slot i).used = 0 then .sendText m h i else .sendScan m h (i + 1))
      | .failed _ e => some (q, .sendUndo e)
    else some (q, .sendUndo .eio)
  | .sendText m h slot =>
    match io with
    | .complete =>
      some ({ q with text := update q.text slot (m.text ++ (q.text slot).drop m.text.length) }, .sendSlot m h slot)
    | .failed moved e =>
      some ({ q with text := update q.text slot (m.text.take moved ++ (q.text slot).drop moved) }, .sendUndo e)
  | .sendSlot m h slot =>
    match io with
    | .complete =>
      some ({ q with
          slot := update q.slot slot (newSlot m h)
          sent := q.sent ++ [m]
          tag := update q.tag slot q.sent.length },
        .sendCount { h with sequence := nextSequence h.sequence })
    | .failed moved e =>
      some ({ q with slot := update q.slot slot ((q.slot slot).torn moved (newSlot m h)) }, .sendUndo e)
  | .sendCount h =>
    match io with
    | .complete => some ({ q with header := countSent h }, .sendGive (announce h))
    | .failed moved e => some ({ q with header := q.header.torn moved (countSent h) }, .sendUndo e)
  | .sendGive notice => giveLock q (.sendPost notice)
  | .sendPost _ => some ({ q with items := give q.items }, .ready .sent)
  | .sendUndo e => giveLock q (.sendBack e)
  | .sendBack e => some ({ q with spaces := give q.spaces }, .ready (.failed e))
  | _ => none

def receiveStep (q : Queue) (a : Answer) (io : Transfer) : Pc → Option (Queue × Pc)
  | .receiveProbe o =>
    (waitOne q.items a.status).map fun items => ({ q with items := items }, probeNext o a .receiveTake (.editTake (.enroll o)))
  | .receiveWait o =>
    (waitRound o a q.items).map fun (items, round) =>
      ({ q with items := items }, match round with
        | .ends outcome => .editTake (.leave outcome)
        | .again => .receiveWait o)
  | .receiveTake => takeLock q a.status .receiveRead (.receiveBack .platform)
  | .receiveRead =>
    match io with
    | .complete => some (q, if readable q q.header then .receiveScan q.header 0 emptySlot q.maxmsg else .receiveUndo .eio)
    | .failed _ e => some (q, .receiveUndo e)
  | .receiveScan h i best selected =>
    if i < q.maxmsg then
      match io with
      | .complete =>
        some (q, if better q.maxmsg selected (q.slot i) best then .receiveScan h (i + 1) (q.slot i) i
          else .receiveScan h (i + 1) best selected)
      | .failed _ e => some (q, .receiveUndo e)
    else
      some (q, if selected = q.maxmsg ∨ h.curmsgs = 0 ∨ q.msgsize < best.length then .receiveUndo .eio
        else .receiveText h best selected)
  | .receiveText h best selected =>
    match io with
    | .complete => some (q, .receiveClear h best selected ((q.text selected).take best.length))
    | .failed _ e => some (q, .receiveUndo e)
  | .receiveClear h best selected text =>
    match io with
    | .complete =>
      some ({ q with
          slot := update q.slot selected emptySlot
          delivered := q.delivered ++ [⟨⟨q.tag selected, ⟨best.priority, text⟩⟩, q.entries⟩] },
        .receiveCount h ⟨q.tag selected, ⟨best.priority, text⟩⟩)
    | .failed moved e =>
      some ({ q with slot := update q.slot selected ((q.slot selected).torn moved emptySlot) }, .receiveUndo e)
  | .receiveCount h got =>
    match io with
    | .complete => some ({ q with header := countReceived h }, .receiveGive got)
    | .failed moved e => some ({ q with header := q.header.torn moved (countReceived h) }, .receiveUndo e)
  | .receiveGive got => giveLock q (.receivePost got)
  | .receivePost got => some ({ q with spaces := give q.spaces, returned := q.returned ++ [got] }, .ready (.received got))
  | .receiveUndo e => giveLock q (.receiveBack e)
  | .receiveBack e => some ({ q with items := give q.items }, .ready (.failed e))
  | _ => none

def editStep (q : Queue) (a : Answer) (io : Transfer) : Pc → Option (Queue × Pc)
  | .editTake e => takeLock q a.status (.editRead e) (e.after (some .platform))
  | .editRead e =>
    match io with
    | .complete =>
      some (q, if readable q q.header then
          match e.rewrite q.header with
          | .ok (some h) => .editWrite e h
          | .ok none => .editGive e none
          | .error error => .editGive e (some error)
        else .editGive e (some .eio))
    | .failed _ error => some (q, .editGive e (some error))
  | .editWrite e h =>
    match io with
    | .complete => some ({ q with header := h }, .editGive e none)
    | .failed moved error => some ({ q with header := q.header.torn moved h }, .editGive e (some error))
  | .editGive e failure => giveLock q (e.after failure)
  | _ => none

def openStep (q : Queue) (a : Answer) (io : Transfer) : Pc → Option (Queue × Pc)
  | .openLock => some (if a.status = .ok then ({ q with lock := createSem q.lock 1 1 }, .openTake) else (q, .closed))
  | .openTake => takeLock q a.status .openRead .closed
  | .openRead =>
    match io with
    | .complete => some (q, .openItems q.header)
    | .failed _ _ => some (q, .openUndo)
  | .openItems h =>
    match createSem q.items h.curmsgs h.maxmsg with
    | some items => some (if a.status = .ok then ({ q with items := some items }, .openSpaces h) else (q, .openUndo))
    | none => some (q, .openUndo)
  | .openSpaces h =>
    match createSem q.spaces (spare h) h.maxmsg with
    | some spaces => some (if a.status = .ok then ({ q with spaces := some spaces }, .openGive) else (q, .openUndo))
    | none => some (q, .openUndo)
  | .openGive => giveLock q (.ready .done)
  | .openUndo => giveLock q .closed
  | .closeSpaces => some (q, .closeItems)
  | .closeItems => some (q, .closeLock)
  | .closeLock => some (q, .closed)
  | _ => none

def advance (q : Queue) (a : Answer) (pc : Pc) : Option (Queue × Pc) :=
  let io := rawIo a.gots (pc.ioSize q)
  (sendStep q a io pc).or ((receiveStep q a io pc).or ((editStep q a io pc).or (openStep q a io pc)))

inductive Label where
  | open
  | send (readOnly : Bool) (m : Message) (o : Options)
  | receive (writeOnly : Bool) (len : Nat) (o : Options)
  | notify (event : Option SigEvent) (pid fd : Nat)
  | getattr
  | close (pid fd : Nat)
  | go (a : Answer)
  | die
deriving DecidableEq, Repr

def act (q : Queue) : Pc → Label → Option (Queue × Pc)
  | pc, .go a => advance q a pc
  | pc, .die => if pc.inside then none else some (q, .closed)
  | .closed, .open => some (q, .openLock)
  | .ready _, .send readOnly m o =>
    some (q, if readOnly then .ready (.failed .ebadf)
      else if q.msgsize < m.text.length then .ready (.failed .emsgsize)
      else if mqPrioMax ≤ m.priority then .ready (.failed .einval)
      else .sendProbe m o)
  | .ready _, .receive writeOnly len o =>
    some (q, if writeOnly then .ready (.failed .ebadf)
      else if len < q.msgsize then .ready (.failed .emsgsize)
      else .receiveProbe o)
  | .ready _, .notify event pid fd =>
    some (q, if event.any SigEvent.bad then .ready (.failed .einval) else .editTake (.notify event pid fd))
  | .ready _, .getattr => some (q, .editTake .getattr)
  | .ready _, .close pid fd => some (q, .editTake (.closing pid fd))
  | _, _ => none

structure Sys where
  queue : Queue
  threads : List Pc

inductive Kind where
  | lock | items | spaces
deriving DecidableEq, Repr

-- A named semaphore goes away once no thread has a handle on it.
inductive Move where
  | thread (i : Nat) (label : Label)
  | vanish (kind : Kind)
deriving DecidableEq, Repr

def vanish (s : Sys) : Kind → Option Sys
  | .lock => if s.threads.any Pc.hasLock then none else some { s with queue := { s.queue with lock := none } }
  | .items => if s.threads.any Pc.hasItems then none else some { s with queue := { s.queue with items := none } }
  | .spaces => if s.threads.any Pc.hasSpaces then none else some { s with queue := { s.queue with spaces := none } }

def step (s : Sys) : Move → Option Sys
  | .thread i label => do
      let pc ← s.threads[i]?
      let (queue, next) ← act s.queue pc label
      return ⟨queue, s.threads.set i next⟩
  | .vanish kind => vanish s kind

def create (maxmsg msgsize threads : Nat) : Sys where
  queue :=
    { maxmsg := maxmsg
      msgsize := msgsize
      header := ⟨mqMagic, mqVersion, maxmsg, msgsize, 0, 0, 1, 0, 0, 0, 0, 0, 0⟩
      slot := fun _ => emptySlot
      text := fun _ => List.replicate msgsize 0
      lock := none
      items := none
      spaces := none
      sent := []
      tag := fun _ => 0
      delivered := []
      returned := [] }
  threads := List.replicate threads .closed

def attrValid (maxmsg msgsize : Nat) : Prop :=
  0 < maxmsg ∧ maxmsg ≤ mqMaxmsgLimit ∧ 0 < msgsize ∧ msgsize ≤ mqMsgsizeLimit

instance (maxmsg msgsize : Nat) : Decidable (attrValid maxmsg msgsize) :=
  inferInstanceAs (Decidable (_ ∧ _ ∧ _ ∧ _))

inductive Reach (condition : Sys → Move → Prop) (first : Sys) : Sys → Prop where
  | start : Reach condition first first
  | next {s t : Sys} (move : Move) :
      Reach condition first s → condition s move → step s move = some t → Reach condition first t

def runs (s : Sys) (moves : List Move) : Option Sys := moves.foldlM step s

theorem reach_runs {condition : Sys → Move → Prop} {first s t : Sys} {moves : List Move}
    (meets : ∀ s, ∀ move ∈ moves, condition s move) (reached : Reach condition first s) (ran : runs s moves = some t) :
    Reach condition first t := by
  induction moves generalizing s with
  | nil =>
    obtain rfl := Option.some.inj ran
    exact reached
  | cons move rest ih =>
    simp only [runs, List.foldlM_cons, bind, Option.bind_eq_some_iff] at ran
    obtain ⟨next, stepped, ran⟩ := ran
    exact ih (fun s move mem => meets s move (List.mem_cons_of_mem _ mem))
      (.next move reached (meets s move List.mem_cons_self) stepped) ran

end Spicule.Mqueue
