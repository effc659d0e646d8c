import BrbFramework.Data.MemSlot
import BrbFramework.Lib.Runs
import BrbFramework.Unix.Frame

/-!
# The writing side of a framed UNIX client

A request takes a slot, which joins the list of pending writes, and is sent at
once when nothing is pending. The write event serves the list from its head,
after the acknowledgements that wait to be sent. A request that was written
leaves for the list of those that wait for the peer's acknowledgement, or its
slot is released. Finish and ACK callbacks may call the client again.

The kernel takes a header as a whole or not at all; a payload it may take in
part. Nothing locks the buffers, so that `ref_count` is left out.

The model keeps a log of what goes over the socket and of what becomes of a
request. `active` is the call stack: the requests that a handler is working on,
innermost first, with the news whether their ACK callback was invoked. `epoch`
counts the destructions of the buffers, since a handler may not touch a slot
that a callback has destroyed; `destroying` is set during one.
-/

namespace Unix

open BrbData Handler

/-- `CommEvUNIXWriteRequest`. `serial` numbers the accepted requests. -/
structure CommEvUNIXWriteRequest where
  serial : Nat := 0
  hasFinishCb : Bool := false
  hasAckCb : Bool := false
  finishCbdata : Nat := 0
  ackCbdata : Nat := 0
  reqId : Nat := 0
  txRetryCount : Nat := 0
  ctrlFlags : Nat := 0
  fdArr : List Int := []
  data : List UInt8 := []
  offset : Nat := 0
  remain : Int := 0
  /-- A `short`, which is only ever compared with zero. -/
  seqId : UInt16 := 0
  inUse : Bool := false
  wrote : Bool := false
  autocloseOnAck : Bool := false
  deriving DecidableEq

namespace CommEvUNIXWriteRequest

/-- The control data of `CommEvUNIXIOWrite`. -/
def header (req : CommEvUNIXWriteRequest) : CommEvUNIXControlData where
  dataSz := req.data.length
  magicCode := magicCode00
  reqId := req.reqId
  flags := req.ctrlFlags
  fdCount := req.fdArr.length
  seqId := req.seqId.toNat

def begun (req : CommEvUNIXWriteRequest) : Bool := req.seqId ≠ 0 || 0 < req.offset

def wantsAck (req : CommEvUNIXWriteRequest) : Bool := req.hasAckCb || req.autocloseOnAck

end CommEvUNIXWriteRequest

/-- `CommEvUNIXACKReply`. -/
structure CommEvUNIXACKReply where
  txRetryCount : Nat := 0
  reqId : Int32 := 0
  inUse : Bool := false

/-- `COMM_UNIX_ACK_*`. -/
inductive AckCode
  | failed | ok
  deriving DecidableEq

/-- A pointer that a finish callback is called with. -/
inductive Arg
  | request (serial : Nat)
  | cbdata (data : Nat)
  | parent
  deriving DecidableEq

inductive UserOp
  | brbProtoWrite (data : List UInt8) (fdArr : List Int) (hasFinishCb hasAckCb : Bool)
      (finishCbdata ackCbdata : Nat)
  | brbProtoACK (reqId : Int32)
  | disconnect
  | disconnectRequest
  deriving DecidableEq

inductive Obs
  | called (op : UserOp)
  /-- a slot is granted to a request, and whether the buffers are being destroyed -/
  | granted (late : Bool)
  | accepted (req : CommEvUNIXWriteRequest)
  /-- the header of a request, as it was when its header went out -/
  | header (req : CommEvUNIXWriteRequest)
  | payload (serial : Nat) (bytes : List UInt8)
  /-- an acknowledgement, and whether a frame was begun and incomplete at that time -/
  | ackHeader (reqId : Int32) (mid : Bool)
  | finish (serial : Nat) (size : Int) (cbData basePtr : Arg)
  | ack (serial : Nat) (code : AckCode)
  | released (serial : Nat)
  /-- a request waits for the acknowledgement of its id -/
  | waiting (reqId : Nat)
  /-- an acknowledgement of an id arrives -/
  | acked (reqId : Nat)
  /-- a request is given up after too many retries, and whether it was begun -/
  | dropped (serial : Nat) (begun : Bool)
  /-- the destruction of the buffers finds a request that was not written -/
  | abandoned (req : CommEvUNIXWriteRequest)
  /-- the destruction of the buffers, and whether it is called from a callback -/
  | destroying (inside : Bool)
  | destroyed
  | connected (pending : Bool)
  /-- a raw write event has used up its window, and whether it leaves requests behind
  without an armed event -/
  | windowUsed (left : Bool)
  deriving DecidableEq

/-- What `sendmsg` answers. -/
inductive SendResult
  | sent (n : Nat)
  | failed
  deriving DecidableEq

/-- The kernel, by the number of the call (`bufferWriteSize` is `SO_SNDBUF`), and the upper layers'
callbacks, by the request they are for. -/
structure Env where
  sendmsg : Nat → SendResult
  bufferWriteSize : Nat → Int
  onFinish : Nat → List UserOp
  onAck : Nat → AckCode → List UserOp

/-- `CommEvUNIXClient` with the writing half of its `iodata`. `writeEvent` is set
while `CommEvUNIXClientEventBrbProtoWrite` is armed. -/
structure CommEvUNIXClient where
  reqMemSlot : MemSlotBase CommEvUNIXWriteRequest := .init {} 4096
  ackMemSlot : MemSlotBase CommEvUNIXACKReply := .init {} 4096
  init : Bool := false
  connected : Bool := true
  pendingWriteRequest : Bool := false
  pendingWriteAck : Bool := false
  closeRequest : Bool := false
  autocloseFdOnAck : Bool := false
  reqScheduled : Int := 0
  reqSentNoAck : Nat := 0
  reqSentWithAck : Nat := 0
  writeEvent : Bool := false
  readEvent : Bool := true
  out : List UInt8 := []
  sends : Nat := 0
  queries : Nat := 0
  created : Nat := 0
  epoch : Nat := 0
  destroying : Bool := false
  active : List (Nat × Bool) := []
  log : List Obs := []

/-- What stops the process: its assertions, that of the arena about a slot that is
free among them, and the use of a slot that was destroyed. `stuck` is for a loop
that callbacks keep feeding beyond the bound. -/
inductive Fault
  | slotInUse | ackSlotInUse | badFd | notInUse | remainLeft | scheduledNegative
  | ackWrongId | ackNotInUse | doubleFree | useAfterFree | stuck
  deriving DecidableEq

abbrev M := EStateM Fault CommEvUNIXClient

/-- `COMM_UNIX_LIST_PENDING_WRITE`. -/
def pendingWrite : Nat := 0

/-- `COMM_UNIX_LIST_PENDING_ACK`. -/
def pendingAck : Nat := 1

/-- `COMM_UNIX_MAX_TX_RETRY`. -/
def maxTxRetry : Nat := 8

/-- A signed integer compared with a `sizeof`. -/
def unsignedLong (x : Int) : Int := x % 2 ^ 64

namespace CommEvUNIXClient

def req (c : CommEvUNIXClient) (x : Nat) : CommEvUNIXWriteRequest := c.reqMemSlot.slotData x

def setReq (c : CommEvUNIXClient) (x : Nat)
    (f : CommEvUNIXWriteRequest → CommEvUNIXWriteRequest) : CommEvUNIXClient :=
  { c with reqMemSlot := c.reqMemSlot.modifyData x f }

def record (c : CommEvUNIXClient) (o : List Obs) : CommEvUNIXClient :=
  { c with log := c.log ++ o }

/-- `EvKQBaseSetEvent` for the write event; there is none to set on a closed socket. -/
def setWriteEvent (c : CommEvUNIXClient) : CommEvUNIXClient :=
  { c with writeEvent := c.writeEvent || c.connected }

def setReadEvent (c : CommEvUNIXClient) : CommEvUNIXClient :=
  { c with readEvent := c.readEvent || c.connected }

/-- Some pending request was begun and is incomplete. -/
def midFrame (c : CommEvUNIXClient) : Bool :=
  (c.reqMemSlot.list pendingWrite).any fun x => (c.req x).begun && 0 < (c.req x).remain

end CommEvUNIXClient

/-- The callbacks of the upper layers, as a handler invokes them. -/
structure Callbacks where
  finish : Nat → M Unit
  ack : Nat → AckCode → M Unit

section Functions

variable (env : Env)

/-- `sendmsg` on the client's socket. -/
def sendmsg : M SendResult :=
  modifyGet fun c =>
    (if c.connected then env.sendmsg c.sends else .failed, { c with sends := c.sends + 1 })

/-- The `sendmsg` of a header, with what to record of it. -/
def sendHeader (control : CommEvUNIXControlData) (o : Obs) : M Int := do
  match ← sendmsg env with
  | .failed => return -1
  | .sent n =>
      if n = 0 then return 0
      modify fun c => { c with out := c.out ++ control.encode, log := c.log ++ [o] }
      return controlDataSz

/-- The `sendmsg` of what is left of a payload. -/
def sendPayload (x : Nat) : M Int := do
  match ← sendmsg env with
  | .failed => return -1
  | .sent n =>
      let req := (← get).req x
      let wrote := min n req.remain.toNat
      if wrote > 0 then
        modify fun c =>
          { c.setReq x fun req =>
              { req with
                offset := req.offset + wrote
                remain := req.remain - wrote
                seqId := req.seqId + 1 } with
            out := c.out ++ (req.data.drop req.offset).take wrote
            log := c.log ++ [.payload req.serial ((req.data.drop req.offset).take wrote)] }
      return wrote

/-- `CommEvUNIXIOWrite`. -/
def ioWrite (x : Nat) : M Int := do
  let req := (← get).req x
  if req.seqId = 0 then
    let wrote ← sendHeader env req.header (.header req)
    if wrote ≤ 0 then return 0
    modify fun c => c.setReq x fun req => { req with seqId := req.seqId + 1 }
    let rest ← sendPayload env x
    return wrote + rest
  else sendPayload env x

/-- `CommEvUNIXIOReplyACK`. -/
def ioReplyACK (y : Nat) : M Int := do
  let c ← get
  let reqId := (c.ackMemSlot.slotData y).reqId
  sendHeader env (ackHeader reqId.toInt) (.ackHeader reqId c.midFrame)

/-- `CommEvUNIXIODataInit`. -/
def ioDataInit : M Unit :=
  modify fun c =>
    if c.init then c
    else
      { c with
        reqMemSlot := .init {} 4096
        ackMemSlot := .init {} 4096
        init := true }

/-- `CommEvUNIXAutoCloseLocalDescriptors`. -/
def autoCloseLocalDescriptors (x : Nat) : M Unit := do
  assertThat (((← get).req x).fdArr.all (0 < ·)) .badFd
  modify fun c => c.setReq x fun req => { req with fdArr := req.fdArr.map fun _ => -1 }

/-- Run a callback; its caller may not go on when it destroyed the buffers. -/
def guarded (callback : M Unit) : M Unit := do
  let epoch := (← get).epoch
  callback
  assertThat ((← get).epoch == epoch) .useAfterFree

/-- The invocation of a finish callback after a write. -/
def invokeFinish (cbs : Callbacks) (x : Nat) (size : Int) : M Unit := do
  let req := (← get).req x
  modify fun c => { c with active := (x, false) :: c.active }
  if req.hasFinishCb then
    modify (·.record [.finish req.serial size (.request req.serial) (.cbdata req.finishCbdata)])
    guarded (cbs.finish req.serial)

/-- The release of a slot at the end of a handler's work on it. -/
def releaseReq (x : Nat) : M Unit :=
  modify fun c =>
    { c with
      reqMemSlot := (c.reqMemSlot.modifyData x fun req => { req with inUse := false }).slotFree x
      active := c.active.tail
      log := c.log ++ [.released (c.req x).serial] }

/-- The move of a request to the list of those that wait for an acknowledgement. -/
def waitForAck (x : Nat) : M Unit :=
  modify fun c =>
    { c with
      reqMemSlot :=
        (c.reqMemSlot.modifyData x fun req =>
          { req with inUse := true, wrote := true }).slotListIDSwitch (c.req x).reqId pendingAck
      reqSentWithAck := c.reqSentWithAck + 1
      active := c.active.tail
      log := c.log ++ [.waiting (c.req x).reqId] }

/-- What both writers do with a request that is complete. -/
def written (cbs : Callbacks) (x : Nat) (opStatus : Int) : M Unit := do
  invokeFinish cbs x opStatus
  if ((← get).req x).wantsAck then
    waitForAck x
  else
    -- a request that was written at once is not in use yet
    releaseReq x
    modify fun c => { c with reqSentNoAck := c.reqSentNoAck + 1 }

/-- `enqueue_write` of `CommEvUNIXClientAIOBrbProtoWrite`. -/
def enqueueWrite (x : Nat) : M Unit :=
  modify fun c =>
    { (c.setWriteEvent.setReq x fun req =>
        { req with inUse := true, wrote := false, txRetryCount := req.txRetryCount + 1 }) with
      reqScheduled := c.reqScheduled + 1
      pendingWriteRequest := true }

/-- The socket's buffer is too small for the request's frame. -/
def bufferTooSmall (x : Nat) : M Bool :=
  modifyGet fun c =>
    (decide (unsignedLong (if c.connected then env.bufferWriteSize c.queries else 0) <
      controlDataSz + maxFdArrSz * 4 + (c.req x).data.length + 64),
      { c with queries := c.queries + 1 })

/-- `CommEvUNIXClientAIOBrbProtoWrite` once a slot was granted. -/
def sendOrEnqueue (cbs : Callbacks) (x : Nat) : M Unit := do
  let c ← get
  if c.pendingWriteRequest || c.pendingWriteAck then enqueueWrite x
  else if ← bufferTooSmall env x then enqueueWrite x
  else
    let opStatus ← ioWrite env x
    if opStatus > 0 then
      if ((← get).req x).remain > 0 then enqueueWrite x
      else
        assertThat (decide (((← get).req x).remain = 0)) .remainLeft
        written cbs x opStatus
    else enqueueWrite x

/-- `CommEvUNIXClientAIOBrbProtoWrite`. -/
def aioBrbProtoWrite (cbs : Callbacks) (data : List UInt8) (fdArr : List Int)
    (hasFinishCb hasAckCb : Bool) (finishCbdata ackCbdata : Nat) : M Int := do
  if data.length > maxWriteSize then return -1
  if fdArr.length > maxFdArrSz then return -1
  if (← get).closeRequest then return -1
  ioDataInit
  let c ← get
  match c.reqMemSlot.slotGrab with
  | none => return -1
  | some (x, reqMemSlot) =>
      modify fun c => c.record [.granted c.destroying]
      assertThat (!(reqMemSlot.slotData x).inUse) .slotInUse
      assertThat (fdArr.all (-1 < ·)) .badFd
      let req : CommEvUNIXWriteRequest :=
        { serial := c.created, hasFinishCb, hasAckCb, finishCbdata, ackCbdata
          reqId := reqMemSlot.slotGetID x
          ctrlFlags := flagRequest + if hasAckCb || c.autocloseFdOnAck then flagWantAck else 0
          fdArr, data, remain := data.length, autocloseOnAck := c.autocloseFdOnAck }
      modify fun c =>
        { c with
          reqMemSlot := reqMemSlot.modifyData x fun _ => req
          created := c.created + 1
          log := c.log ++ [.accepted req] }
      sendOrEnqueue env cbs x
      modify (·.setReadEvent)
      return req.reqId

/-- `CommEvUNIXClientAIOBrbProtoACK`. -/
def aioBrbProtoACK (reqId : Int32) : M Int := do
  ioDataInit
  let c ← get
  match c.ackMemSlot.slotGrab with
  | none => return -1
  | some (y, ackMemSlot) =>
      assertThat (!(ackMemSlot.slotData y).inUse) .ackSlotInUse
      set { c with ackMemSlot := ackMemSlot.modifyData y fun _ => { reqId } }
      let enqueue : M Unit :=
        modify fun c =>
          { c.setWriteEvent with
            ackMemSlot := c.ackMemSlot.modifyData y fun ack =>
              { ack with inUse := true, txRetryCount := ack.txRetryCount + 1 }
            pendingWriteAck := true }
      if c.pendingWriteRequest then enqueue
      else
        let opStatus ← ioReplyACK env y
        if opStatus > 0 then
          modify fun c => { c with ackMemSlot := c.ackMemSlot.slotFree y }
        else enqueue
      return ackMemSlot.slotGetID y

/-- `CommEvUNIXClientEventBrbProtoWriteACK` on the acknowledgements that are left. -/
def writeACKLoop (canWriteSz : Int) : Int → List Nat → M Int
  | total, [] => do
      if total = 0 then modify fun c => { c with pendingWriteAck := false }
      return 0
  | total, y :: rest => do
      if controlDataSz + 16 > unsignedLong (canWriteSz - total) then
        modify (·.setReadEvent.setWriteEvent)
        return total
      let opStatus ← ioReplyACK env y
      if opStatus > 0 then
        modify fun c =>
          { c with
            ackMemSlot := (c.ackMemSlot.modifyData y fun ack =>
              { ack with inUse := false }).slotFree y }
        writeACKLoop canWriteSz (total + opStatus) rest
      else
        modify fun c =>
          { c.setWriteEvent.setReadEvent with
            ackMemSlot := c.ackMemSlot.modifyData y fun ack =>
              { ack with inUse := true, txRetryCount := ack.txRetryCount + 1 } }
        return total

/-- `CommEvUNIXClientEventBrbProtoWriteACK`. -/
def eventBrbProtoWriteACK (canWriteSz : Int) : M Int := do
  writeACKLoop env canWriteSz 0 ((← get).ackMemSlot.list pendingWrite)

/-- `tx_retry` of `CommEvUNIXClientEventBrbProtoWrite`. -/
def txRetry (x : Nat) : M Unit :=
  modify fun c =>
    (c.setWriteEvent.setReq x fun req =>
      { req with txRetryCount := req.txRetryCount + 1 }).setReadEvent

/-- The invocation of an ACK callback for a request that a handler is working on. -/
def invokeAck (cbs : Callbacks) (x : Nat) (code : AckCode) : M Unit := do
  let req := (← get).req x
  modify fun c => { c with active := (x, true) :: c.active.tail }
  if req.hasAckCb then
    modify (·.record [.ack req.serial code])
    guarded (cbs.ack req.serial code)
  if ((← get).req x).autocloseOnAck then autoCloseLocalDescriptors x

def drop (cbs : Callbacks) (x : Nat) (opStatus : Int) : M Unit := do
  modify fun c => c.record [.dropped (c.req x).serial (c.req x).begun]
  invokeFinish cbs x opStatus
  invokeAck cbs x .failed
  releaseReq x
  modify (·.setWriteEvent.setReadEvent)

/-- `CommEvUNIXClientEventBrbProtoWrite`. -/
def eventBrbProtoWriteLoop (cbs : Callbacks) (canWriteSz : Int) : Nat → Int → M Int
  | 0, _ => throw .stuck
  | fuel + 1, total => do
      let c ← get
      if !c.ackMemSlot.isEmptyList pendingWrite then
        let _ ← eventBrbProtoWriteACK env canWriteSz
        modify (·.setWriteEvent)
        return 0
      match c.reqMemSlot.list pendingWrite with
      | [] =>
          let _ ← eventBrbProtoWriteACK env canWriteSz
          if total = 0 then modify fun c => { c with pendingWriteRequest := false }
          return 0
      | x :: _ =>
          if (c.req x).data.length + controlDataSz + maxFdArrSz * 4 + 16 >
              unsignedLong (canWriteSz - total) then
            modify (·.setWriteEvent)
            return total
          else if ← bufferTooSmall env x then
            modify (·.setWriteEvent)
            return total
          else
            assertThat (c.req x).inUse .notInUse
            let opStatus ← ioWrite env x
            if opStatus > 0 then
              if ((← get).req x).remain > 0 then
                txRetry x
                return total
              else
                assertThat (decide (((← get).req x).remain = 0)) .remainLeft
                modify fun c => { c with reqScheduled := c.reqScheduled - 1 }
                assertThat (decide ((← get).reqScheduled ≥ 0)) .scheduledNegative
                written cbs x opStatus
                eventBrbProtoWriteLoop cbs canWriteSz fuel (total + opStatus)
            else if ((← get).req x).txRetryCount > maxTxRetry then
              drop cbs x opStatus
              return total
            else
              txRetry x
              return total

/-- What `CommEvUNIXIOControlDataProcess` does for one acknowledgement. -/
def processReply (cbs : Callbacks) (reqId : Int) : M Unit := do
  let x := reqId.toNat
  modify (·.record [.acked x])
  assertThat (decide (reqId = (← get).reqMemSlot.slotGetID x)) .ackWrongId
  assertThat ((← get).req x).inUse .ackNotInUse
  modify fun c => { c with active := (x, true) :: c.active }
  invokeAck cbs x .ok
  releaseReq x

/-- The acknowledgements that follow the first one. -/
def processReplies (cbs : Callbacks) : Nat → List UInt8 → M Unit
  | 0, _ => return ()
  | count + 1, bytes => do
      processReply cbs (CommEvUNIXControlData.decode bytes).reqId
      processReplies cbs count (bytes.drop controlDataSz)

/-- `CommEvUNIXIOControlDataProcess`. -/
def ioControlDataProcess (cbs : Callbacks) (reqId : Int) (dataMb : List UInt8)
    (readBytes : Nat) : M Nat := do
  let replyCount := readBytes / controlDataSz
  processReply cbs reqId
  processReplies cbs (replyCount - 1) dataMb
  return replyCount

/-- The first loop of `CommEvUNIXIODoDataDestroy`. -/
def destroyPendingWrite (cbs : Callbacks) : Nat → M Unit
  | 0 => throw .stuck
  | fuel + 1 => do
      let c ← get
      match c.reqMemSlot.slotPopHead pendingWrite with
      | none => return ()
      | some (x, reqMemSlot) =>
          let req := c.req x
          set { c with
                reqMemSlot
                log := c.log ++ [Obs.abandoned req, Obs.released req.serial] }
          if req.hasFinishCb then
            -- the arguments of this call are not those of the others
            modify (·.record [.finish req.serial (-1) (.cbdata req.finishCbdata) .parent])
            guarded (cbs.finish req.serial)
          destroyPendingWrite cbs fuel

/-- The second loop of `CommEvUNIXIODoDataDestroy`. -/
def destroyPendingAck (cbs : Callbacks) : Nat → M Unit
  | 0 => throw .stuck
  | fuel + 1 => do
      let c ← get
      match c.reqMemSlot.slotPopHead pendingAck with
      | none => return ()
      | some (x, reqMemSlot) =>
          let req := c.req x
          set { c with reqMemSlot, log := c.log ++ [Obs.released req.serial] }
          if req.hasAckCb then
            modify (·.record [.ack req.serial .failed])
            guarded (cbs.ack req.serial .failed)
          if ((← get).req x).autocloseOnAck then autoCloseLocalDescriptors x
          destroyPendingAck cbs fuel

/-- `CommEvUNIXIODataDestroy`. -/
def ioDataDestroy (cbs : Callbacks) (fuel : Nat) : M Unit := do
  if (← get).init then
    modify fun c =>
      { c with
        epoch := c.epoch + 1
        destroying := true
        active := []
        log := c.log ++ [.destroying (c.destroying || !c.active.isEmpty)] }
    destroyPendingWrite cbs fuel
    destroyPendingAck cbs fuel
    modify fun c =>
      { c with
        reqMemSlot := .init {} 4096
        ackMemSlot := .init {} 4096
        init := false
        destroying := false
        log := c.log ++ [.destroyed] }

/-- `CommEvUNIXClientDisconnect`. -/
def disconnect (cbs : Callbacks) (fuel : Nat) : M Unit := do
  ioDataDestroy cbs fuel
  modify fun c => { c with connected := false, writeEvent := false, readEvent := false }

/-- `CommEvUNIXClientDisconnectRequest`. -/
def disconnectRequest (cbs : Callbacks) (fuel : Nat) : M Unit := do
  modify fun c => { c with closeRequest := true }
  if (List.range MemSlotBase.defaultListCount).all (← get).reqMemSlot.isEmptyList then
    disconnect cbs fuel

def userOp (cbs : Callbacks) (fuel : Nat) (op : UserOp) : M Unit := do
  modify (·.record [.called op])
  match op with
  | .brbProtoWrite data fdArr hasFinishCb hasAckCb finishCbdata ackCbdata =>
      let _ ← aioBrbProtoWrite env cbs data fdArr hasFinishCb hasAckCb finishCbdata ackCbdata
  | .brbProtoACK reqId =>
      let _ ← aioBrbProtoACK env reqId
  | .disconnect => disconnect cbs fuel
  | .disconnectRequest => disconnectRequest cbs fuel

def userOps (cbs : Callbacks) (fuel : Nat) : List UserOp → M Unit
  | [] => return ()
  | op :: ops => do
      userOp env cbs fuel op
      userOps cbs fuel ops

/-- The callbacks, nested to at most `depth` levels. -/
def callbacks (fuel : Nat) : Nat → Callbacks
  | 0 => ⟨fun _ => return (), fun _ _ => return ()⟩
  | depth + 1 =>
      { finish := fun serial => userOps env (callbacks fuel depth) fuel (env.onFinish serial)
        ack := fun serial code => userOps env (callbacks fuel depth) fuel (env.onAck serial code) }

/-- What the event loop does with the client: calls of the upper layers, write events,
acknowledgements that arrive, and the completion of a new connection. -/
inductive Event
  | user (op : UserOp)
  | write (canWriteSz : Int)
  | ack (reqId : Nat)
  | connect
  deriving DecidableEq

/-- One event. Loops and callbacks are bounded by `fuel`. -/
def handle (fuel : Nat) : Event → M Unit
  | .user op => userOp env (callbacks env fuel fuel) fuel op
  | .write canWriteSz => do
      -- the event is volatile
      if (← get).writeEvent then
        modify fun c => { c with writeEvent := false }
        let _ ← eventBrbProtoWriteLoop env (callbacks env fuel fuel) canWriteSz fuel 0
  | .ack reqId => do
      let _ ← ioControlDataProcess (callbacks env fuel fuel) reqId [] controlDataSz
  | .connect => do
      if !(← get).connected then
        modify fun c =>
          { c with
            connected := true
            readEvent := true
            out := []
            log := c.log ++ [.connected (!c.reqMemSlot.isEmptyList pendingWrite)] }

end Functions

abbrev Config := Runs.Config Fault CommEvUNIXClient

/-- A client that is connected and has sent nothing yet. -/
def start (autocloseFdOnAck : Bool) : CommEvUNIXClient := { autocloseFdOnAck }

def runFrom (env : Env) (fuel : Nat) (autocloseFdOnAck : Bool) (evs : List Event) : Config :=
  Runs.run (handle env fuel) (.live (start autocloseFdOnAck)) evs

end Unix
