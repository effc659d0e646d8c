import Mathlib.Algebra.GroupWithZero.Nat
import BrbFramework.Lib.Runs

/-!
# The events of a TLS connection

Each direction of a descriptor holds one handler, and the event that runs it
disables it. An established TLS connection has two handlers, one that reads and one
that writes, and OpenSSL may ask either of them to wait for either direction: a read
that wants to write takes the write event, a write that wants to read takes the read
event. `EvKQBaseSetEvent` does not ask which handler was there.

The upper layers are called back when data was read and when a request was written;
they may write, set and cancel their read handler, and close the connection. A
connection that shuts down does not come back, so that the run ends there.

The log tells where a handler loses its event. `stranded` says that it had work
left, was armed for no other direction, and was not running at that time: one that is
running arms an event before it returns.
-/

namespace Tcp.SslConn

open Handler

/-- `CommEvTCPServerEventSSLRead` and `CommEvTCPServerEventSSLWrite`. -/
inductive EventCB
  | sslRead | sslWrite
  deriving DecidableEq

/-- `COMM_EV_READ` and `COMM_EV_WRITE`. -/
inductive Dir
  | read | write
  deriving DecidableEq

def Dir.other : Dir → Dir
  | .read => .write
  | .write => .read

/-- What `SSL_read` and `SSL_write` answer, with `SSL_get_error`. -/
inductive SslResult
  | success | wantRead | wantWrite | zeroReturn | fatal
  deriving DecidableEq

/-- `EvAIOReq`, as far as a TLS write uses it. `id` numbers the requests. -/
structure EvAIOReq where
  id : Nat
  size : Nat
  hasFinishCb : Bool
  deriving DecidableEq

inductive UserOp
  | aioWrite (size : Nat) (hasFinishCb : Bool)
  /-- `CommEvTCPServerConnSetEvent` for the read event, with a handler or without -/
  | setReadEvent (handler : Bool)
  | cancelReadEvent
  | readReschedule
  | kickReadPending (readSz : Int)
  | kickWriteQueue
  | closeRequest
  | close
  deriving DecidableEq

inductive Obs
  /-- the handler of an event is replaced by another one -/
  | replaced (old : EventCB) (stranded : Bool)
  /-- the read event is cancelled while it would run the writing handler -/
  | cancelled (old : EventCB) (stranded : Bool)
  /-- an event of no size disables a handler, which does nothing -/
  | empty (old : EventCB) (stranded : Bool)
  deriving DecidableEq

/-- `CommEvTCPServerConn` and the two events of its descriptor. `running` is the call
stack of its handlers. -/
structure CommEvTCPServerConn where
  readEvent : Option EventCB := none
  writeEvent : Option EventCB := none
  writeQueue : List EvAIOReq := []
  pendingWrite : Bool := false
  readHandler : Bool := false
  closeRequest : Bool := false
  unlimitedEnqueue : Bool := false
  sslShutingDown : Bool := false
  closed : Bool := false
  established : Bool := false
  cliQueueMax : Nat := 0
  sslReads : Nat := 0
  sslWrites : Nat := 0
  created : Nat := 0
  running : List EventCB := []
  log : List Obs := []

/-- The assertion about the size of a request. `stuck` is for calls that are nested
beyond the bound. -/
inductive Fault
  | emptyRequest | stuck
  deriving DecidableEq

abbrev M := EStateM Fault CommEvTCPServerConn

/-- OpenSSL, by the number of the call; whether a slot is left for a request; whether
the listener has a default read handler; and the callbacks of the upper layers. -/
structure Env where
  sslRead : Nat → SslResult
  sslWrite : Nat → SslResult
  slotLeft : Nat → Bool
  defaultRead : Bool
  onAccept : List UserOp
  onRead : Nat → List UserOp
  onFinish : Nat → List UserOp

namespace CommEvTCPServerConn

def event (c : CommEvTCPServerConn) : Dir → Option EventCB
  | .read => c.readEvent
  | .write => c.writeEvent

def withEvent (c : CommEvTCPServerConn) (e : Option EventCB) : Dir → CommEvTCPServerConn
  | .read => { c with readEvent := e }
  | .write => { c with writeEvent := e }

def armed (c : CommEvTCPServerConn) (h : EventCB) : Bool :=
  c.readEvent = some h || c.writeEvent = some h

/-- The handler has something to do: there is a read handler above, or a request. -/
def needs (c : CommEvTCPServerConn) : EventCB → Bool
  | .sslRead => c.readHandler
  | .sslWrite => !c.writeQueue.isEmpty

/-- The handler `h` has work left, and only the event of `dir` could run it. -/
def strandedBy (c : CommEvTCPServerConn) (h : EventCB) (dir : Dir) : Bool :=
  c.needs h && h ∉ c.running && c.event dir.other != some h

/-- What is logged when the event of `dir` is taken from its handler for `new`. -/
def taken (c : CommEvTCPServerConn) (o : EventCB → Bool → Obs) (new : Option EventCB) (dir : Dir) :
    List Obs :=
  match c.event dir with
  | some old => if some old = new then [] else [o old (c.strandedBy old dir)]
  | none => []

end CommEvTCPServerConn

/-- `EvKQBaseSetEvent` with `COMM_ACTION_ADD_VOLATILE`. -/
def setEvent (dir : Dir) (h : EventCB) : M Unit :=
  modify fun c =>
    { c with log := c.log ++ c.taken .replaced (some h) dir }.withEvent (some h) dir

/-- `EvKQBaseSetEvent` with `COMM_ACTION_DELETE`, for the read event. -/
def deleteReadEvent : M Unit :=
  modify fun c => { c with log := c.log ++ c.taken .cancelled none .read, readEvent := none }

/-- `CommEvTCPServerConnSSLShutdownBegin`. -/
def sslShutdownBegin : M Unit := modify fun c => { c with sslShutingDown := true }

section Handlers

variable (env : Env)

/-- Run a callback of the handler `h`. -/
def within (h : EventCB) (callback : M Unit) : M Unit := do
  modify fun c => { c with running := h :: c.running }
  callback
  modify fun c => { c with running := c.running.tail }

/-- `CommEvTCPServerEventSSLWrite`, with the finish callbacks. -/
def eventSSLWrite (finish : Nat → M Unit) (canWriteSz : Int) : M Unit := do
  if canWriteSz ≤ 0 then return ()
  match (← get).writeQueue with
  | [] => modify fun c => { c with pendingWrite := false }
  | req :: rest =>
      modify fun c => { c with writeQueue := rest, sslWrites := c.sslWrites + 1 }
      let again : M Unit := modify fun c =>
        { c with writeQueue := req :: c.writeQueue, pendingWrite := true }
      match env.sslWrite ((← get).sslWrites - 1) with
      | .wantRead => do
          again
          setEvent .read .sslWrite
      | .wantWrite => do
          again
          setEvent .write .sslWrite
      | .zeroReturn => do
          again
          setEvent .write .sslWrite
      | .fatal => do
          again
          sslShutdownBegin
      | .success => do
          if !(← get).closeRequest && req.hasFinishCb then
            within .sslWrite (finish req.id)
          if !(← get).writeQueue.isEmpty then
            modify fun c => { c with pendingWrite := true }
            setEvent .write .sslWrite
          else
            modify fun c => { c with pendingWrite := false }
            if (← get).closeRequest then sslShutdownBegin

/-- `CommEvTCPServerEventSSLRead`, with the read callbacks. -/
def eventSSLRead (read : Nat → M Unit) (canReadSz : Int) : M Unit := do
  if canReadSz ≤ 0 then return ()
  modify fun c => { c with sslReads := c.sslReads + 1 }
  let n := (← get).sslReads - 1
  match env.sslRead n with
  | .wantRead => setEvent .read .sslRead
  | .wantWrite => setEvent .write .sslRead
  | .zeroReturn => setEvent .read .sslRead
  | .fatal => sslShutdownBegin
  | .success => do
      if (← get).readHandler then
        within .sslRead (read n)
      let c ← get
      if !c.closed && c.readHandler then setEvent .read .sslRead

/-- `CommEvTCPServerKickConnWriteQueue`. -/
def kickConnWriteQueue (finish : Nat → M Unit) : M Unit := do
  if (← get).pendingWrite then setEvent .write .sslWrite
  else eventSSLWrite env finish 8092

/-- `COMM_SERVER_CONN_CAN_WRITE`; the connection is not in transfer. -/
def canWrite (c : CommEvTCPServerConn) : Bool := !(c.closeRequest && !c.unlimitedEnqueue)

/-- `COMM_SERVER_CONN_CAN_ENQUEUE`. -/
def canEnqueue (c : CommEvTCPServerConn) : Bool :=
  c.unlimitedEnqueue || c.cliQueueMax = 0 ||
    (c.writeQueue.map (·.size)).sum < c.cliQueueMax

/-- `CommEvTCPServerConnAIOWrite` with `CommEvTCPServerConnEnqueueAndKickQueue`. -/
def aioWrite (finish : Nat → M Unit) (size : Nat) (hasFinishCb : Bool) : M Unit := do
  let c ← get
  if !canWrite c then return ()
  if !canEnqueue c then return ()
  if !env.slotLeft c.created then return ()
  assertThat (decide (size ≠ 0)) .emptyRequest
  modify fun c =>
    { c with writeQueue := c.writeQueue ++ [⟨c.created, size, hasFinishCb⟩], created := c.created + 1 }
  kickConnWriteQueue env finish

/-- `CommEvTCPServerConnCloseRequest`. -/
def closeRequest : M Unit := do
  modify fun c => { c with closeRequest := true }
  let c ← get
  if c.writeEvent.isNone || c.writeQueue.isEmpty then sslShutdownBegin

/-- The callbacks of a handler: for a read, and for a request that was written. -/
structure Callbacks where
  read : Nat → M Unit
  finish : Nat → M Unit

def userOp (cbs : Callbacks) : UserOp → M Unit
  | .aioWrite size hasFinishCb => aioWrite env cbs.finish size hasFinishCb
  | .setReadEvent handler => do
      modify fun c => { c with readHandler := handler }
      if handler then setEvent .read .sslRead
  | .cancelReadEvent => do
      modify fun c => { c with readHandler := false }
      deleteReadEvent
  | .readReschedule => setEvent .read .sslRead
  | .kickReadPending readSz => eventSSLRead env cbs.read readSz
  | .kickWriteQueue => kickConnWriteQueue env cbs.finish
  | .closeRequest => closeRequest
  | .close => sslShutdownBegin

def userOps (cbs : Callbacks) : List UserOp → M Unit
  | [] => return ()
  | op :: ops => do
      userOp env cbs op
      userOps cbs ops

/-- The callbacks, nested to at most `depth` levels. -/
def callbacks : Nat → Callbacks
  | 0 => ⟨fun _ => throw .stuck, fun _ => throw .stuck⟩
  | depth + 1 =>
      { read := fun n => userOps env (callbacks depth) (env.onRead n)
        finish := fun id => userOps env (callbacks depth) (env.onFinish id) }

/-- `EvKQBaseFDEventInvoke`, which disables a volatile event before it runs the handler. -/
def eventInvoke (cbs : Callbacks) (dir : Dir) (size : Int) : M Unit := do
  match (← get).event dir with
  | none => return ()
  | some h =>
      modify fun c =>
        { c with log := c.log ++ if size ≤ 0 then c.taken .empty none dir else [] }.withEvent none dir
      match h with
      | .sslRead => eventSSLRead env cbs.read size
      | .sslWrite => eventSSLWrite env cbs.finish size

/-- The end of `CommEvTCPServerEventSSLAccept`. -/
def accepted (cbs : Callbacks) : M Unit := do
  modify fun c => { c with established := true }
  userOps env cbs env.onAccept
  modify fun c => { c with readHandler := env.defaultRead }
  setEvent .read .sslRead

/-- An event of the descriptor, a call of the upper layers, or the end of the stream. -/
inductive Event
  | accepted
  | io (dir : Dir) (size : Int)
  | user (op : UserOp)
  | eof

/-- One event. Callbacks are nested to at most `depth` levels. -/
def handle (depth : Nat) (ev : Event) : M Unit := do
  let c ← get
  if c.sslShutingDown || c.closed then return ()
  match ev with
  | .accepted => if !c.established then accepted env (callbacks env depth)
  | .io dir size => if c.established then eventInvoke env (callbacks env depth) dir size
  | .user op => if c.established then userOp env (callbacks env depth) op
  | .eof => modify fun c => { c with closed := true }

abbrev Config := Runs.Config Fault CommEvTCPServerConn

/-- A run of a connection whose handshake succeeds. -/
def runFrom (env : Env) (depth cliQueueMax : Nat) (unlimitedEnqueue : Bool) (evs : List Event) :
    Config :=
  Runs.run (handle env depth) (.live { cliQueueMax, unlimitedEnqueue }) (.accepted :: evs)

end Handlers

end Tcp.SslConn
