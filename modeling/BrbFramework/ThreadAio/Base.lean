import BrbFramework.Lib.Runs
import BrbFramework.ThreadAio.Opcodes

/-!
# Submissions and completions of threaded requests

A function of the interface creates a request, links it, and gives a job to the thread
pool, which may have none left. A worker runs the job's handler on the request, and the
pool hands the finished job back.

The callback of a finished request may submit again before its request is destroyed, so
that the two halves of `ThreadAIOEngine_JobFinish` are two events.
-/

namespace ThreadAIO

open Handler BrbData

structure OpcodeStats where
  txCount : UInt64 := 0
  rxCount : UInt64 := 0
  bytes : UInt64 := 0
  pending : UInt64 := 0
  error : UInt64 := 0
  successSched : UInt64 := 0
  successNotify : UInt64 := 0
  deriving DecidableEq

/-- One invocation of the finish callback of a request. -/
structure Notified where
  req : Nat
  finishCb : Nat
  finishCbdata : Nat
  fd : Int
  size : Int
  ret : Int
  deriving DecidableEq, Repr

structure ThreadAIOBase where
  reqQueue : EvAIOReqQueue
  /-- `ev_base->stats.aio.opcode`. -/
  evStats : EvAIOReqCode → OpcodeStats := fun _ => {}
  stats : EvAIOReqCode → OpcodeStats := fun _ => {}
  /-- The requests of the jobs that the pool has accepted and not handed back. -/
  jobs : List Nat := []
  /-- The requests that were handed back and are not destroyed yet. -/
  finishing : List Nat := []
  log : List Notified := []

abbrev M := EStateM Fault ThreadAIOBase

namespace ThreadAIOBase

variable (s : ThreadAIOBase)

def req (r : Nat) : EvAIOReq := s.reqQueue.req r

def setReq (r : Nat) (f : EvAIOReq → EvAIOReq) : ThreadAIOBase :=
  { s with reqQueue := s.reqQueue.setReq r f }

def countEv (op : EvAIOReqCode) (f : OpcodeStats → OpcodeStats) : ThreadAIOBase :=
  { s with evStats := Function.update s.evStats op (f (s.evStats op)) }

def count (op : EvAIOReqCode) (f : OpcodeStats → OpcodeStats) : ThreadAIOBase :=
  { s with stats := Function.update s.stats op (f (s.stats op)) }

/-- How many requests of an opcode were submitted and have not been completed. -/
def inFlight (op : EvAIOReqCode) : Nat := s.jobs.countP fun r => (s.req r).aioOpcode = op

end ThreadAIOBase

/-- `ThreadAIOBaseNew`, with the default of `pending_req_max`. -/
def threadAIOBaseNew (pendingReqMax : Nat) (assertSoft : Bool) : ThreadAIOBase :=
  { reqQueue := .init (if pendingReqMax = 0 then 4096 else pendingReqMax) true assertSoft }

def queue {α : Type} (x : QueueM α) : M α :=
  within ThreadAIOBase.reqQueue (fun s q => { s with reqQueue := q }) x

/-! ## Submissions -/

/-- What a function of the interface does of its own. -/
structure Submission where
  opcode : EvAIOReqCode
  /-- Whose `tx_count` goes up. -/
  txOpcode : EvAIOReqCode
  /-- The checks by `BRB_ASSERT_FMT`, before the request is created. -/
  required : Bool := true
  /-- The check by which the call fails. -/
  rejected : Bool := false
  /-- The assertions on the arguments, after the request is created. -/
  asserted : Bool := true
  fd : Int := -1
  data : EvAIOReqData := { size := -1, offset := -1 }
  file : EvAIOReqFile := {}
  retryCount : Int := 0
  readCb : Option Nat := none
  aioRead : Bool := false
  aioWrite : Bool := false
  /-- What `bytes` goes up by. -/
  bytes : Int := 0
  deriving DecidableEq

def ofPath (op : EvAIOReqCode) (pathStr : Option String) : Submission :=
  { opcode := op, txOpcode := op, asserted := pathStr.isSome, file := { pathStr := pathStr } }

def ofPaths (op : EvAIOReqCode) (pathStr dstStr : Option String) : Submission :=
  { opcode := op, txOpcode := op, asserted := pathStr.isSome && dstStr.isSome
    file := { pathStr := pathStr, devStr := dstStr } }

def threadAIOFileOpen (pathStr : Option String) (flags : Int) (mode : Nat) : Submission :=
  { opcode := .opOpen, txOpcode := .opOpen, asserted := pathStr.isSome
    file := { pathStr := pathStr, flags := flags, mode := mode } }

def threadAIOFileClose (fd : Int) : Submission :=
  { opcode := .opClose, txOpcode := .opClose, rejected := decide (fd < 0), fd := fd }

def threadAIOFileReadToMemBuffer (fd : Int) (pathStr : Option String) (size offset : Int) :
    Submission :=
  { opcode := .opReadMB, txOpcode := .opReadMB
    required := (pathStr.isSome || decide (fd ≥ 0)) && decide (size ≠ 0)
    fd := fd, data := { size := size, offset := offset }, file := { pathStr := pathStr }
    aioRead := true, bytes := size }

def threadAIOFileRead (fd : Int) (buffer : Option Nat) (size offset : Int) : Submission :=
  { opcode := .opRead, txOpcode := .opRead, rejected := decide (fd < 0)
    fd := fd, data := { ptr := buffer.map .buffer, size := size, offset := offset }
    aioRead := true, bytes := size }

def threadAIOFileWriteFromMemBuffer (dataMb : Option (List UInt8)) (fd : Int)
    (pathStr : Option String) (size offset : Int) : Submission :=
  { opcode := .opWriteMB, txOpcode := .opWriteMB
    required := (pathStr.isSome || decide (fd ≥ 0)) && decide (size ≠ 0)
    fd := fd, data := { ptr := dataMb.map .memBuffer, size := size, offset := offset }
    file := { pathStr := pathStr }, aioWrite := true, bytes := size }

def threadAIOFileWrite (fd : Int) (buffer : Option Nat) (size offset : Int) : Submission :=
  { opcode := .opWrite, txOpcode := .opWrite, rejected := decide (fd < 0)
    fd := fd, data := { ptr := buffer.map .buffer, size := size, offset := offset }
    aioWrite := true, bytes := size }

def threadAIOFileStat (pathStr : Option String) : Submission := ofPath .opStat pathStr

def threadAIOFileUnlink (pathStr : Option String) : Submission := ofPath .opUnlink pathStr

def threadAIOFileRemove (pathStr : Option String) : Submission := ofPath .opRemove pathStr

/-- The request counts as one of `UNLINK` when it is accepted. -/
def threadAIOFileTruncate (pathStr : Option String) (size : Int) : Submission :=
  { opcode := .opTruncate, txOpcode := .opUnlink, asserted := pathStr.isSome
    data := { size := size, offset := -1 }, file := { pathStr := pathStr } }

def threadAIOFileRename (pathStr dstStr : Option String) : Submission :=
  ofPaths .opRename pathStr dstStr

def threadAIOFileCopy (pathStr dstStr : Option String) : Submission :=
  ofPaths .opCopy pathStr dstStr

def threadAIOFileMove (pathStr dstStr : Option String) : Submission :=
  ofPaths .opMove pathStr dstStr

/-- `ThreadAIODeviceMount` and `ThreadAIODeviceUnMount`, which assert the same. -/
def ofDevice (op : EvAIOReqCode) (pathStr devStr : Option String) (retryCount flags : Int) :
    Submission :=
  { opcode := op, txOpcode := op
    asserted := decide (retryCount ≥ 0) && pathStr.isSome && devStr.isSome
    file := { pathStr := pathStr, devStr := devStr, flags := flags }, retryCount := retryCount }

def threadAIODeviceMount (pathStr devStr : Option String) (retryCount flags : Int) : Submission :=
  ofDevice .opMount pathStr devStr retryCount flags

def threadAIODeviceUnMount (pathStr devStr : Option String) (retryCount flags : Int) :
    Submission :=
  ofDevice .opUnmount pathStr devStr retryCount flags

def threadAIOCustom (pathStr : Option String) (customCb : Option Nat) : Submission :=
  { opcode := .opCustom, txOpcode := .opCustom, asserted := pathStr.isSome && customCb.isSome
    file := { pathStr := pathStr }, readCb := customCb }

/-- The exit of the functions at `aio_failed`. -/
def aioFailed (op : EvAIOReqCode) : M (Option EvAIOReq) := do
  modify fun s => s.countEv op fun c => { c with error := c.error + 1 }
  return none

/-- `ThreadAIOEngine_JobGenericInitialize`, and what the function writes into its request. -/
def populate (p : Submission) (req : EvAIOReq) : EvAIOReq :=
  { req with
    aioOpcode := p.opcode, file := p.file, retryCount := p.retryCount, readCb := p.readCb
    flags := { req.flags with
      aioRead := p.aioRead, aioWrite := p.aioWrite, aioFile := p.aioRead || p.aioWrite
      aioThreaded := p.aioRead || p.aioWrite
      dupPathStr := p.file.pathStr.isSome, dupDevStr := p.file.devStr.isSome } }

def accepted (p : Submission) (r : Nat) (s : ThreadAIOBase) : ThreadAIOBase :=
  let s := { s with jobs := s.jobs ++ [r] }
  let s := s.countEv p.opcode fun c => { c with bytes := c.bytes + .ofInt p.bytes }
  s.countEv p.txOpcode fun c => { c with txCount := c.txCount + 1 }

/-- The end of the functions of the interface. `jobId` is what `ThreadPoolJobEnqueue`
returns. An accepted request is returned as it was copied to `dst_aio_req`. -/
def startJob (p : Submission) (r : Nat) (jobId : Int) : M (Option EvAIOReq) := do
  let s ← get
  let dst := s.req r
  queue (enqueue r)
  if jobId < 0 then
    queue (removeItem r)
    queue (reqDestroy r)
    aioFailed p.opcode
  else
    modify (accepted p r)
    return some dst

/-- What the functions of the interface have in common. -/
def submit (p : Submission) (finishCb : Option Nat) (finishCbdata : Nat) (jobId : Int) :
    M (Option EvAIOReq) := do
  let s ← get
  assertThat (s.reqQueue.assertSoft || p.required) .assertion
  if p.rejected then
    aioFailed p.opcode
  else
    match ← queue (reqNew 0 p.fd p.data.ptr p.data.size p.data.offset none finishCb finishCbdata)
      with
    | none => aioFailed p.opcode
    | some r => do
        let s ← get
        assertThat (decide ((s.req r).id ≥ 0) && p.asserted) .assertion
        modify fun s => s.setReq r (populate p)
        startJob p r jobId

/-- `ThreadAIOFileWriteFromMemBufferAndDestroy`: the request gets the data to destroy. -/
def writeFromMemBufferAndDestroy (dataMb : Option (List UInt8)) (fd : Int)
    (pathStr : Option String) (size offset : Int) (finishCb : Option Nat) (finishCbdata : Nat)
    (jobId : Int) : M (Option EvAIOReq) := do
  match ← submit (threadAIOFileWriteFromMemBuffer dataMb fd pathStr size offset) finishCb
      finishCbdata jobId with
  | none => return none
  | some dst => do
      assertThat (decide (dst.id ≥ 0)) .assertion
      modify fun s => s.setReq dst.id.toNat fun req =>
        { req with destroyFunc := some 1, destroyCbdata := dataMb.map .memBuffer }
      return some dst

/-! ## Completions -/

/-- `ThreadAIOEngine_JobDispatcher`, in a worker. A worker that is still waiting for its
helper has changed nothing yet. -/
def work (r : Nat) (env : Env) : M PUnit := fun s =>
  match opcodeDispatch env ⟨s.req r, []⟩ with
  | .ok _ w => .ok .unit (s.setReq r fun _ => w.req)
  | .error .waiting _ => .ok .unit s
  | .error f w => .error f (s.setReq r fun _ => w.req)

def OpcodeStats.complete (succeeded : Bool) (c : OpcodeStats) : OpcodeStats :=
  let c := { c with rxCount := c.rxCount + 1, pending := c.txCount - (c.rxCount + 1) }
  if succeeded then
    { c with successSched := c.successSched + 1, successNotify := c.successNotify + 1 }
  else { c with error := c.error + 1 }

/-- `EvAIOReqInvokeCallBacks`. -/
def invokeCallBacks (r : Nat) : M PUnit :=
  modify fun s =>
    let req := s.req r
    match req.finishCb with
    | some finishCb =>
        if req.flags.cancelled then s
        else
          { s with
            log := s.log ++ [⟨r, finishCb, req.finishCbdata, req.fd, req.data.size, req.ret⟩] }
    | none => s

/-- `ThreadAIOEngine_JobFinish`, up to the return of the callback. -/
def jobFinish (r : Nat) : M PUnit := do
  let s ← get
  let req := s.req r
  assertThat (req.aioOpcode ≠ .opNone && req.aioOpcode ≠ .opLastItem) .assertion
  modify fun s => s.count req.aioOpcode (OpcodeStats.complete req.succeeded)
  modify fun s => s.countEv req.aioOpcode (OpcodeStats.complete req.succeeded)
  queue (removeItem r)
  invokeCallBacks r

/-- `ThreadAIOBaseCancelByReqID`. -/
def cancelByReqID (reqId : Int) : M Bool := do
  if reqId < 0 then
    return false
  let s ← get
  assertThat (s.req reqId.toNat).flags.inUse .assertion
  modify fun s => s.setReq reqId.toNat fun req => { req with flags.cancelled := true }
  return true

/-! ## Events -/

inductive Api
  | fileOpen (pathStr : Option String) (flags : Int) (mode : Nat)
  | fileClose (fd : Int)
  | fileReadToMemBuffer (fd : Int) (pathStr : Option String) (size offset : Int)
  | fileRead (fd : Int) (buffer : Option Nat) (size offset : Int)
  | fileWriteFromMemBuffer (dataMb : Option (List UInt8)) (fd : Int) (pathStr : Option String)
      (size offset : Int)
  | fileWrite (fd : Int) (buffer : Option Nat) (size offset : Int)
  | fileStat (pathStr : Option String)
  | fileUnlink (pathStr : Option String)
  | fileRemove (pathStr : Option String)
  | fileTruncate (pathStr : Option String) (size : Int)
  | fileRename (pathStr dstStr : Option String)
  | fileCopy (pathStr dstStr : Option String)
  | fileMove (pathStr dstStr : Option String)
  | deviceMount (pathStr devStr : Option String) (retryCount flags : Int)
  | deviceUnMount (pathStr devStr : Option String) (retryCount flags : Int)
  | custom (pathStr : Option String) (customCb : Option Nat)
  deriving DecidableEq

def Api.submission : Api → Submission
  | .fileOpen pathStr flags mode => threadAIOFileOpen pathStr flags mode
  | .fileClose fd => threadAIOFileClose fd
  | .fileReadToMemBuffer fd pathStr size offset =>
      threadAIOFileReadToMemBuffer fd pathStr size offset
  | .fileRead fd buffer size offset => threadAIOFileRead fd buffer size offset
  | .fileWriteFromMemBuffer dataMb fd pathStr size offset =>
      threadAIOFileWriteFromMemBuffer dataMb fd pathStr size offset
  | .fileWrite fd buffer size offset => threadAIOFileWrite fd buffer size offset
  | .fileStat pathStr => threadAIOFileStat pathStr
  | .fileUnlink pathStr => threadAIOFileUnlink pathStr
  | .fileRemove pathStr => threadAIOFileRemove pathStr
  | .fileTruncate pathStr size => threadAIOFileTruncate pathStr size
  | .fileRename pathStr dstStr => threadAIOFileRename pathStr dstStr
  | .fileCopy pathStr dstStr => threadAIOFileCopy pathStr dstStr
  | .fileMove pathStr dstStr => threadAIOFileMove pathStr dstStr
  | .deviceMount pathStr devStr retryCount flags =>
      threadAIODeviceMount pathStr devStr retryCount flags
  | .deviceUnMount pathStr devStr retryCount flags =>
      threadAIODeviceUnMount pathStr devStr retryCount flags
  | .custom pathStr customCb => threadAIOCustom pathStr customCb

inductive Event
  | submit (api : Api) (finishCb : Option Nat) (finishCbdata : Nat) (jobId : Int)
  | submitAndDestroy (dataMb : Option (List UInt8)) (fd : Int) (pathStr : Option String)
      (size offset : Int) (finishCb : Option Nat) (finishCbdata : Nat) (jobId : Int)
  | work (r : Nat) (env : Env)
  | finish (r : Nat)
  | release (r : Nat)
  | cancel (reqId : Int)

/-- The pool runs the jobs that it accepted, and hands each of them back once. -/
def handle : Event → M PUnit
  | .submit api finishCb finishCbdata jobId => do
      let _ ← submit api.submission finishCb finishCbdata jobId
  | .submitAndDestroy dataMb fd pathStr size offset finishCb finishCbdata jobId => do
      let _ ← writeFromMemBufferAndDestroy dataMb fd pathStr size offset finishCb finishCbdata
        jobId
  | .work r env => do
      let s ← get
      if r ∈ s.jobs then
        work r env
  | .finish r => do
      let s ← get
      if r ∈ s.jobs then
        modify fun s => { s with jobs := s.jobs.erase r, finishing := r :: s.finishing }
        jobFinish r
  | .release r => do
      let s ← get
      if r ∈ s.finishing then
        modify fun s => { s with finishing := s.finishing.erase r }
        queue (reqDestroy r)
  | .cancel reqId => do
      let _ ← cancelByReqID reqId

/-! ## What the requests keep -/

section Keeps

variable {I : ThreadAIOBase → Prop} {s : ThreadAIOBase} {r : Nat} {env : Env}

theorem work_keeps (h : I s)
    (hset : ∀ w, Leaves ⟨s.req r, []⟩ w →
      (SizeKept env (s.req r) → w.req.data.size.toNat = (s.req r).data.size.toNat) →
      I (s.setReq r fun _ => w.req)) :
    Ends (work r env) s (fun _ => I) fun _ _ => True := by
  have hleaves : Ends (opcodeDispatch env) ⟨s.req r, []⟩ _ _ := opcodeDispatch_leaves
  unfold Ends at hleaves ⊢
  unfold work
  cases hx : opcodeDispatch env ⟨s.req r, []⟩ with
  | ok a w =>
      rw [hx] at hleaves
      exact hset w hleaves.1 hleaves.2
  | error f w =>
      cases f with
      | waiting => exact h
      | assertion => exact trivial
      | exitFailure => exact trivial

theorem writeFromMemBufferAndDestroy_keeps {dataMb : Option (List UInt8)} {fd : Int}
    {pathStr : Option String} {size offset : Int} {finishCb : Option Nat} {finishCbdata : Nat}
    {jobId : Int}
    (hsubmit : Ends (submit (threadAIOFileWriteFromMemBuffer dataMb fd pathStr size offset)
      finishCb finishCbdata jobId) s (fun _ => I) fun _ _ => True)
    (hset : ∀ t r f, (∀ req : EvAIOReq, (f req).aioOpcode = req.aioOpcode ∧
      (f req).flags.inUse = req.flags.inUse ∧ (f req).data.size = req.data.size) →
      I t → I (t.setReq r f)) :
    Ends (writeFromMemBufferAndDestroy dataMb fd pathStr size offset finishCb finishCbdata jobId) s
      (fun _ => I) fun _ _ => True := by
  rw [writeFromMemBufferAndDestroy, ends_bind]
  apply hsubmit.imp
  intro o t ht
  cases o with
  | none => exact ht
  | some dst =>
      simp only [ends_bind, ends_assertThat, ends_modify, ends_pure, implies_true, and_true]
      intro _
      exact hset t _ _ (fun _ => ⟨rfl, rfl, rfl⟩) ht

end Keeps

end ThreadAIO
