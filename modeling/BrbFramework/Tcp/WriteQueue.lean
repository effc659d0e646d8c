import BrbFramework.Crypto.Rc4
import BrbFramework.Lib.Runs

/-!
# The write queue of a TCP client

A write call wraps its data in a request, lets the transformer make an encrypted
copy, puts the request at the end of the queue, and writes at once when no write
is pending. `CommEvTCPAIOWrite` serves the queue from its head until the window
is used up or the kernel stops it. It invokes the finish callback of each
request it completes, and the callback may call the writer again.

The client here is connected, nobody closes it and no write hook is set, so the
tests of `close_request`, of the descriptor's `closed` and `closing`, of the
socket state and of `hooked` are left out.

What goes over the socket and what becomes of a request is recorded in a log,
together with the write calls themselves.
-/

namespace Tcp.WriteQueue

open Handler

/-- `EvAIOReq`, as far as a socket write uses it. `id` numbers the write calls. -/
structure EvAIOReq where
  id : Nat
  data : List UInt8
  offset : Nat
  transformedMb : Option (List UInt8)
  hasFinishCb : Bool
  deriving DecidableEq

namespace EvAIOReq

def bytes (req : EvAIOReq) : List UInt8 := req.transformedMb.getD req.data

/-- `EvAIOReqGetMissingSize`. -/
def getMissingSize (req : EvAIOReq) : Int :=
  match req.transformedMb with
  | some mb => mb.length - req.offset
  | none => req.data.length - req.offset

/-- `EvAIOReqGetDataPtr`, with the bytes from there on. -/
def getDataPtr (req : EvAIOReq) : List UInt8 :=
  match req.transformedMb with
  | some mb => mb.drop req.offset
  | none => req.data.drop req.offset

theorem getMissingSize_eq (req : EvAIOReq) :
    req.getMissingSize = (req.bytes.length : Int) - req.offset := by
  unfold getMissingSize bytes
  cases req.transformedMb <;> rfl

theorem getDataPtr_eq (req : EvAIOReq) : req.getDataPtr = req.bytes.drop req.offset := by
  unfold getDataPtr bytes
  cases req.transformedMb <;> rfl

end EvAIOReq

/-- `COMM_CRYPTO_FUNC_*`. -/
inductive CryptoFunc
  | none | blowfish | rc4 | rc4Md5
  deriving DecidableEq

/-- The writing half of `CommEvCryptoInfo`. -/
structure CommEvCryptoInfo where
  enabled : Bool := false
  algoCode : CryptoFunc := .none
  write : Rc4.State := .zero

/-- `EvAIOReqTransform_CryptoEnable`. -/
def cryptoEnable (crypto : CommEvCryptoInfo) (algoCode : CryptoFunc) (key : List UInt8) :
    CommEvCryptoInfo :=
  match algoCode with
  | .rc4 | .rc4Md5 => ⟨true, algoCode, Rc4.init key⟩
  | .blowfish => ⟨true, algoCode, .zero⟩
  | .none => { crypto with write := .zero }

/-- `EvAIOReqTransform_CryptoDisable`. -/
def cryptoDisable : CommEvCryptoInfo := {}

/-- What `write` answers. -/
inductive WriteResult
  | wrote (n : Nat)
  | eintr
  | eagain
  | failed
  deriving DecidableEq

inductive UserOp
  | write (data : List UInt8) (hasFinishCb : Bool)
  | cryptoEnable (algoCode : CryptoFunc) (key : List UInt8)
  | cryptoDisable

/-- The kernel, by the number of the `write` call; the upper layers' finish
callbacks, by the request; and the library functions of the transformer. -/
structure Env where
  write : Nat → WriteResult
  onFinish : Nat → List UserOp
  md5 : List UInt8 → Vector UInt8 16
  salt : Nat → Vector UInt8 8

/-- What can be seen of the queue: a write call, bytes that the socket took from a
request, a request that leaves the queue with all its data written, one that a
fatal error removes, and the invocation of a finish callback. -/
inductive Obs
  | asked (req : EvAIOReq)
  | wrote (req : EvAIOReq) (sent : List UInt8)
  | removed (id : Nat)
  | failed (id : Nat)
  | finished (id : Nat) (size : Int)
  deriving DecidableEq

/-- `CommEvTCPClient`, as far as its writer uses it. `writeEvent` is set while a
write event is armed; `created` and `syscalls` number the requests and the calls
of `write`. -/
structure CommEvTCPClient where
  writeQueue : List EvAIOReq := []
  pendingWrite : Bool := false
  writeEvent : Bool := false
  soWriteEof : Bool := false
  crypto : CommEvCryptoInfo := {}
  byteTx : Nat := 0
  packetTx : Nat := 0
  created : Nat := 0
  syscalls : Nat := 0
  log : List Obs := []

/-- What stops the process: the assertion of `EvAIOReqQueueEnqueue`. `stuck` is
for a loop that has more turns than its bound. -/
inductive Fault
  | emptyRequest
  | stuck
  deriving DecidableEq

abbrev M := EStateM Fault CommEvTCPClient

/-- `COMM_TCP_AIO_WRITE_*`. -/
inductive OpStatus
  | finished | needed | errFatal
  deriving DecidableEq

section Functions

variable (env : Env)

/-- `EvAIOReqTransform_CryptoRaw` for a write: the new buffer, if there is one,
and the state of the cipher. -/
def cryptoRaw (crypto : CommEvCryptoInfo) (salt : Vector UInt8 8) (data : List UInt8) :
    Option (List UInt8) × CommEvCryptoInfo :=
  if crypto.enabled then
    match crypto.algoCode with
    | .rc4Md5 =>
        let mb := salt.toList ++ [0x48, 0x41, 0x53, 0x48, 0x3a] ++ (env.md5 data).toList ++
          [0] ++ data
        (some (Rc4.crypt crypto.write mb).1, { crypto with write := (Rc4.crypt crypto.write mb).2 })
    | .rc4 =>
        (some (Rc4.crypt crypto.write data).1,
          { crypto with write := (Rc4.crypt crypto.write data).2 })
    | .blowfish | .none => (none, crypto)
  else (none, crypto)

/-- The call of `write` for the request at the head. -/
def write : M WriteResult :=
  modifyGet fun c => (env.write c.syscalls, { c with syscalls := c.syscalls + 1 })

/-- What a successful `write` of `wroteSz` bytes changes. -/
def advance (req : EvAIOReq) (wroteSz : Nat) : M Unit :=
  modify fun c =>
    { c with
      writeQueue := { req with offset := req.offset + wroteSz } :: c.writeQueue.tail
      byteTx := c.byteTx + wroteSz
      packetTx := c.packetTx + 1
      log := c.log ++ [.wrote req (req.getDataPtr.take wroteSz)] }

/-- `EvAIOReqQueueDequeue`, with the reason it is called for. -/
def dequeue (why : Obs) : M Unit :=
  modify fun c => { c with writeQueue := c.writeQueue.tail, log := c.log ++ [why] }

/-- `EvAIOReqInvokeCallBacks`. -/
def invokeCallBacks (finishCb : Nat → M Unit) (req : EvAIOReq) (size : Int) : M Unit := do
  if req.hasFinishCb then
    modify fun c => { c with log := c.log ++ [.finished req.id size] }
    finishCb req.id

/-- What `CommEvTCPAIOWrite` does from its label `finished` on; `again` is `write_again`. -/
def finished (finishCb : Nat → M Unit) (again : Int → Int → M (OpStatus × Int))
    (req : EvAIOReq) (offset : Nat) (canWriteSz total : Int) : M (OpStatus × Int) := do
  dequeue (.removed req.id)
  invokeCallBacks finishCb req offset
  if canWriteSz > 0 then again canWriteSz total
  else if (← get).writeQueue.isEmpty then return (.finished, total)
  else return (.needed, total)

/-- What `CommEvTCPAIOWrite` does about a fatal error of `write`. -/
def fatal (finishCb : Nat → M Unit) (req : EvAIOReq) (total : Int) : M (OpStatus × Int) := do
  dequeue (.failed req.id)
  invokeCallBacks finishCb req (-1)
  return (.errFatal, total)

/-- `CommEvTCPAIOWrite` from `write_again` on, with the status and `aio_total_sz`. -/
def aioWriteLoop (finishCb : Nat → M Unit) : Nat → Int → Int → M (OpStatus × Int)
  | 0, _, _ => throw .stuck
  | fuel + 1, canWriteSz, total => do
      match (← get).writeQueue with
      | [] => return (.finished, total)
      | req :: _ =>
          let wanted := req.getMissingSize
          let possible := if canWriteSz < wanted then canWriteSz else wanted
          if possible = 0 then
            finished finishCb (aioWriteLoop finishCb fuel) req req.offset canWriteSz total
          else
            match ← write env with
            | .eintr | .eagain =>
                if (← get).soWriteEof then fatal finishCb req total
                else return (.needed, total)
            | .failed => fatal finishCb req total
            | .wrote n =>
                let wroteSz := min n possible.toNat
                advance req wroteSz
                -- the size of the data, also for a request that was transformed
                if req.offset + wroteSz ≥ req.data.length then
                  finished finishCb (aioWriteLoop finishCb fuel) req (req.offset + wroteSz)
                    (canWriteSz - wroteSz) (total + wroteSz)
                else return (.needed, total + wroteSz)

/-- `CommEvTCPAIOWrite`. A turn of its loop uses up at least one byte of the
window. -/
def aioWrite (finishCb : Nat → M Unit) (canWriteSz : Int) : M (OpStatus × Int) :=
  let window := if canWriteSz ≤ 0 then 8096 else canWriteSz
  aioWriteLoop env finishCb (window.toNat + 1) window 0

/-- `CommEvTCPClientEventWrite`. -/
def eventWrite (finishCb : Nat → M Unit) (canWriteSz : Int) : M Int := do
  let (opStatus, total) ← aioWrite env finishCb canWriteSz
  match opStatus with
  | .needed => modify fun c => { c with writeEvent := true, pendingWrite := true }
  | .finished => modify fun c => { c with pendingWrite := false }
  | .errFatal => return total
  return total

/-- `EvAIOReqQueueEnqueue`. -/
def enqueue (req : EvAIOReq) : M Unit := do
  assertThat (!req.data.isEmpty) .emptyRequest
  modify fun c => { c with writeQueue := c.writeQueue ++ [req], log := c.log ++ [.asked req] }

/-- `CommEvTCPClientEnqueueAndKickWriteQueue`. -/
def enqueueAndKickWriteQueue (finishCb : Nat → M Unit) (req : EvAIOReq) : M Unit := do
  let c ← get
  let (transformedMb, crypto) := cryptoRaw env c.crypto (env.salt req.id) req.data
  set { c with crypto }
  enqueue { req with transformedMb }
  if (← get).pendingWrite then
    -- keep the order of the writes
    modify fun c => { c with writeEvent := true }
  else
    let _ ← eventWrite env finishCb 8092

/-- `CommEvTCPClientAIOWrite`. -/
def aioWriteRequest (finishCb : Nat → M Unit) (data : List UInt8) (hasFinishCb : Bool) :
    M Unit := do
  let id := (← get).created
  modify fun c => { c with created := c.created + 1 }
  enqueueAndKickWriteQueue env finishCb
    { id, data, offset := 0, transformedMb := none, hasFinishCb }

def userOp (finishCb : Nat → M Unit) : UserOp → M Unit
  | .write data hasFinishCb => aioWriteRequest env finishCb data hasFinishCb
  | .cryptoEnable algoCode key =>
      modify fun c => { c with crypto := cryptoEnable c.crypto algoCode key }
  | .cryptoDisable => modify fun c => { c with crypto := cryptoDisable }

def userOps (finishCb : Nat → M Unit) : List UserOp → M Unit
  | [] => return ()
  | op :: ops => do
      userOp env finishCb op
      userOps finishCb ops

/-- The finish callback of a request. A write it calls may finish at once and
invoke the next callback, to at most `depth` levels. -/
def finishCb : Nat → Nat → M Unit
  | 0, _ => return ()
  | depth + 1, id => userOps env (finishCb depth) (env.onFinish id)

/-- What the event loop and the upper layers do with the client. `eof` is the
kernel's report that the peer reads no more. -/
inductive Event
  | user (op : UserOp)
  | write (canWriteSz : Int)
  | eof

def handle (depth : Nat) : Event → M Unit
  | .user op => userOp env (finishCb env depth) op
  | .write canWriteSz => do
      -- the event is volatile
      if (← get).writeEvent then
        modify fun c => { c with writeEvent := false }
        let _ ← eventWrite env (finishCb env depth) canWriteSz
  | .eof => modify fun c => { c with soWriteEof := true }

end Functions

abbrev Config := Runs.Config Fault CommEvTCPClient

/-- A connected client with an empty queue, and the events after that. -/
def runFrom (env : Env) (depth : Nat) (evs : List Event) : Config :=
  Runs.run (handle env depth) (.live {}) evs

end Tcp.WriteQueue
