import BrbFramework.FileMapped.Map

/-!
# Submissions, holds, metadata and AIO states

The functions of the store below its read and write calls. A function that
reads the store it was passed starts with `deref`, which fails once the store
was freed.
-/

namespace FileMapped

open Handler BrbData Machine

section Functions

variable (env : Nat → Answer)

def ask : M Answer :=
  modifyGet fun s => (env s.clock, s.tick)

def note (o : Obs) : M Unit := modify fun s => s.note o

def deref : M EvKQFileMapped := do
  let s ← get
  assertThat (!s.freed) .useAfterFree
  return s

/-! ## Submissions -/

/-- The status of a submission, with the id found in `dst_aio_req`. -/
inductive Submitted
  | failed | canceled | pending (id : Int) | finished (id : Int)
  deriving DecidableEq, Repr

/-- The common part of the `ThreadAIOFile…` submissions. -/
def threadSubmit (r : EvAIOReq) : M (Option Nat) := do
  let a ← ask env
  let s ← get
  if s.aio.any fun q => q.key == (Engine.thread, a.slot) then
    return none
  assertThat (r.size != 0) .zeroSize
  if !a.job then
    return none
  modify fun s => s.push { r with engine := .thread, id := a.slot }
  return some a.slot

/-- `ThreadAIOFileRead` and `ThreadAIOFileWrite`. -/
def threadAIOFile (r : EvAIOReq) : M (Option Nat) := do
  if r.fd < 0 then
    return none
  threadSubmit env r

/-- `ThreadAIOFileReadToMemBuffer` and `ThreadAIOFileWriteFromMemBuffer`, which
assert what the others check. -/
def threadAIOFileMb (r : EvAIOReq) : M (Option Nat) := do
  assertThat (0 ≤ r.fd) .badDescriptor
  assertThat (r.size != 0) .zeroSize
  threadSubmit env r

/-- `EvKQBaseAIOFileWrite`. A failure invokes the finish callback with size -1
before the call returns. -/
def kqAIOFileWrite (notify : EvAIOReq → M Unit) (r : EvAIOReq) : M Submitted := do
  if r.fd < 0 then
    return .failed
  let a ← ask env
  let s ← get
  if s.aio.any fun q => q.key == (Engine.kq, a.slot) then
    return .failed
  assertThat (r.size != 0) .zeroSize
  let r := { r with engine := .kq, id := a.slot }
  match a.kernel with
  | .pending =>
      modify fun s => s.push r
      return .pending a.slot
  | .refused =>
      modify fun s => { s.note (.failedNotified r) with held := s.held + 1 }
      notify r
      return .failed
  | .canceled =>
      note (.canceledAtSubmit r)
      return .canceled
  | .finished true =>
      modify fun s => (s.execute r []).push { r with queued := false, performed := true }
      return .finished a.slot
  | .finished false =>
      modify fun s => (s.execute r []).note (.lost r)
      return .finished a.slot

/-- `EvKQBaseAIOFileRead`, which fills `dst_aio_req` for pending requests only. -/
def kqAIOFileRead (notify : EvAIOReq → M Unit) (r : EvAIOReq) : M Submitted := do
  match ← kqAIOFileWrite env notify r with
  | .finished _ => return .finished 0
  | status => return status

def fileWrite (notify : EvAIOReq → M Unit) (r : EvAIOReq) : M Submitted := do
  let s ← deref
  if s.threadedAio then
    match ← threadAIOFile env r with
    | none => return .failed
    | some id => return .pending id
  else
    kqAIOFileWrite env notify r

def fileRead (notify : EvAIOReq → M Unit) (r : EvAIOReq) : M Submitted := do
  let s ← deref
  if s.threadedAio then
    match ← threadAIOFile env r with
    | none => return .failed
    | some id => return .pending id
  else
    kqAIOFileRead env notify r

/-! ## Holds -/

def lock : M Unit := do
  let s ← deref
  set { s with refCount := s.refCount + 1 }

/-- `EvKQFileMappedInternalClean`. `EvKQFileMappedAIOStateDestroyAll` destroys
the AIO states without taking them off their list, which the assertions of
`EvKQFileMappedAIOStateDestroy` let pass for a list of one. -/
def internalClean : M Unit := do
  let s ← deref
  assertThat (s.aioStateList.length ≤ 1) .stateListed
  modify fun s => s.internalClean

/-- The common part of `EvKQFileMappedUnlock`, `EvKQFileMappedClean` and
`EvKQFileMappedDestroy`. -/
def release (who : Holder) (free : EvKQFileMapped → Bool) : M Unit := do
  let s ← deref
  set (s.giveBack who)
  if s.refCount > 0 then
    return
  internalClean
  modify fun s => { s with freed := free s }

def unlock (who : Holder) : M Unit := release who (·.createdWithNew)

def clean : M Unit := release .user fun _ => false

def destroy : M Unit := do
  let s ← deref
  set { s with destroyed := true }
  release .user fun _ => true

/-! ## Opening and closing -/

/-- `EvKQFileMappedCloseFiles`. -/
def closeFiles : M Unit := do
  let s ← deref
  if s.refCount > 1 then
    return
  if s.metaRawWriting then
    return
  if !s.opened then
    return
  set s.closeFiles

/-- `EvKQFileMappedOpenFiles`. -/
def openFiles : M Bool := do
  let s ← deref
  let a ← ask env
  modify fun s => { s with metaFd := -1, dataFd := -1, fdAux := -1 }
  if !s.paths || a.metaFd < 0 || a.dataFd < 0 then
    return false
  if s.pathAux then
    if a.auxFd < 0 then
      return false
    modify fun s => { s with fdAux := a.auxFd, metaAuxFile := true }
  modify fun s => { s with
    metaFd := a.metaFd, dataFd := a.dataFd, opened := true
    dataFile := if s.truncateFile then fun _ => none else s.dataFile }
  return true

/-- `EvKQFileMappedOpen`. -/
def openMap : M Bool := do
  let s ← deref
  set { s with closeWanted := false }
  if s.opened then
    return true
  if s.closeRequest then
    assertThat (0 < s.metaFd) .badDescriptor
    assertThat (0 < s.dataFd) .badDescriptor
    if s.metaAuxFile then
      assertThat (0 < s.fdAux) .badDescriptor
    modify fun s => { s with closeRequest := false }
    return true
  openFiles env

/-! ## Metadata -/

/-- A metadata write, `ThreadAIOFileWriteFromMemBufferAndDestroy`. -/
def metaWrite (cb : FinishCB) (fd : Int) (data : Data) (size : Int) (again : Bool) : M Bool := do
  match ← threadAIOFileMb env { fd := fd, data := data, size := size, offset := 0, finishCb := cb } with
  | none =>
      modify fun s => s.note (.metaRefused cb s.closeRequest again)
      return false
  | some _ => return true

def packedSize : Int := 1

def metaDataRawUpdate : M Bool := do
  let s ← deref
  let packed := s.packMeta
  note (.asked (.packed packed))
  if s.metaRawWriting then
    modify fun s => { s with lastMbRaw := some packed }
    return true
  if ← metaWrite env .writeMetaRawData s.metaFd (.packed packed) packedSize false then
    lock
    modify fun s => { s with metaRawWriting := true }
    return true
  else
    return false

def metaDataAuxUpdate : M Bool := do
  let s ← deref
  if !s.metaAuxNeedUpdate then
    return false
  match s.dataAuxMb with
  | none => throw .auxMissing
  | some auxMb =>
      assertThat (0 < s.fdAux) .badDescriptor
      modify fun s => { s with dataAuxMb := none }
      if ← metaWrite env .writeMetaAuxData s.fdAux (.aux auxMb) auxMb.length false then
        lock
        modify fun s => { s with metaAuxWriting := true, metaAuxNeedUpdate := false }
        return true
      else
        modify fun s => { s with dataAuxMb := some auxMb }
        return false

def metaDataUpdateAll : M Unit := do
  let _ ← metaDataRawUpdate env
  let s ← deref
  if s.metaAuxFile && s.metaAuxNeedUpdate then
    let _ ← metaDataAuxUpdate env

def metaAuxWrite (auxMb : Option (List UInt8)) : M Unit := do
  let s ← deref
  match auxMb with
  | none => return
  | some auxMb =>
      note (.asked (.aux auxMb))
      if s.metaAuxWriting then
        modify fun s => { s with lastMbAux := some auxMb }
      else
        modify fun s => { s with dataAuxMb := some auxMb, metaAuxNeedUpdate := true }
        let _ ← metaDataAuxUpdate env

def close : M Unit := do
  let s ← deref
  set { s with closeRequest := true, closeWanted := true }
  metaDataUpdateAll env

/-! ## AIO states -/

/-- `EvKQFileMappedAIOStateNew`. -/
def aioStateNew (ownerId : Int) (hasCb : Bool) : M Nat := do
  let s ← deref
  set ({ s with
    aioStateList := { serial := s.nextState, ownerId := ownerId, hasCb := hasCb } :: s.aioStateList
    nextState := s.nextState + 1 }.note (.made s.nextState hasCb))
  return s.nextState

/-- `EvKQFileMappedAIOStateGetByAIOReqID`, with the limit it asserts. -/
def aioStateGetByAIOReqID (aioreqId : Int) : M (Option EvKQFileMappedAIOState) := do
  let s ← deref
  if aioreqId < 0 then
    return none
  match (s.aioStateList.take 8092).find? (·.hasOpen aioreqId) with
  | some st => return some st
  | none =>
      assertThat (s.aioStateList.length ≤ 8092) .listLimit
      return none

/-- `EvKQFileMappedAIOStatePendingAdd`; `write` for `AIOREQ_OPCODE_WRITE`. -/
def aioStatePendingAdd (serial : Nat) (id : Int) (write : Bool) : M Unit := do
  match ← aioStateGetByAIOReqID id with
  | some _ => throw .duplicateId
  | none =>
      modify fun s => s.setState serial fun st =>
        { st with pendingReq := st.pendingReq ++ [{ id := id }] }
      if write then
        modify fun s => { s with pendingRawWrite := s.pendingRawWrite + 1 }

/-- The kernel request with one of these ids is to be notified by a job. -/
def aioStateSetDelayedNotify (serial : Nat) : M Unit := do
  let s ← deref
  match s.aioStateList.find? (·.serial == serial) with
  | none => return
  | some st =>
      modify fun s => { s with aio := s.aio.map fun r =>
        if r.engine = .kq ∧ st.hasOpen r.id = true then { r with delayedNotify := true } else r }

/-- `ThreadAIOBaseCancelByReqID` and `EvKQBaseAIOCancelByReqID`. The slot is
looked up in a queue that other stores use, too. -/
def cancelByReqID (engine : Engine) (id : Int) : M Unit := do
  let s ← get
  match s.aio.find? fun r => r.engine == engine && (r.id : Int) == id with
  | some r => set (s.setReq engine r.id fun r => { r with cancelled := true })
  | none =>
      let a ← ask env
      assertThat a.taken .slotNotInUse

/-- `EvKQFileMappedAIOStatePendingCancelAll` on the ids that are not reset. -/
def aioStatePendingCancelAll : List Int → M Unit
  | [] => return
  | id :: ids => do
      let s ← deref
      cancelByReqID env (if s.threadedAio then .thread else .kq) id
      modify fun s => { s.note (.cancelled id) with held := s.held + 1 }
      unlock .cancel
      aioStatePendingCancelAll ids

/-- `EvKQFileMappedAIOStateNotifyFinishAdd`. -/
def notifyFinishAdd (aioreqId ownerId : Int) (hasCb : Bool) : M Unit := do
  match ← aioStateGetByAIOReqID aioreqId with
  | none => return
  | some st =>
      if hasCb && !st.cancelled then
        modify fun s => s.setState st.serial fun st =>
          { st with finishList := st.finishList ++ [{ ownerId := ownerId }] }

def cancelNotify (ownerId : Int) (st : EvKQFileMappedAIOState) : EvKQFileMappedAIOState :=
  { st with finishList := st.finishList.map fun n =>
      if n.ownerId = ownerId then { n with cancelled := true } else n }

def notifyFinishCancelByOwner (aioreqId ownerId : Int) : M Unit := do
  match ← aioStateGetByAIOReqID aioreqId with
  | none => return
  | some st => modify fun s => s.setState st.serial (cancelNotify ownerId)

def aioStateCancelByAIOReqID (aioreqId : Int) : M Unit := do
  match ← aioStateGetByAIOReqID aioreqId with
  | none => return
  | some st => modify fun s => s.setState st.serial fun st => { st with cancelled := true }

/-- `EvKQFileMappedAIOStateCancelAllByOwner`. The state that loads is on the
list, too, and finds itself cancelled there. -/
def aioStateCancelAllByOwner (ownerId : Int) : M Unit := do
  let s ← deref
  assertThat (s.aioStateList.all fun st =>
    st.ownerId != ownerId || st.cancelled || st.reqCountFinished ≤ st.pendingReq.length)
    .negativeDelta
  let cancelOwned (st : EvKQFileMappedAIOState) : EvKQFileMappedAIOState :=
    cancelNotify ownerId (if st.ownerId = ownerId then { st with cancelled := true } else st)
  set { s with aioStateList := s.aioStateList.map cancelOwned }

section Callbacks

-- What a finish callback of the caller does.
variable (callback : M Unit)

/-- `EvKQFileMappedAIOStateNotifyInvokeAll`. -/
def aioStateNotifyInvokeAll : List EvKQFileMappedAIOStateNotify → M Unit
  | [] => return
  | n :: ns => do
      let _ ← deref
      if !n.cancelled then
        callback
      aioStateNotifyInvokeAll ns

/-- `EvKQFileMappedAIOStateInvokeAndDestroy`. -/
def aioStateInvokeAndDestroy (serial : Nat) : M Unit := do
  let s ← deref
  match s.aioStateList.find? (·.serial == serial) with
  | none => return
  | some st =>
      assertThat (st.reqCountFinished == st.pendingReq.length) .pendingLeft
      let called := !st.cancelled && st.hasCb
      set ((s.removeState serial).note (.finished serial called (s.liveOf serial).length))
      if called then
        callback
      aioStateNotifyInvokeAll callback st.finishList

def EvKQFileMappedAIOState.isDone (st : EvKQFileMappedAIOState) (id : Int) : Bool :=
  ((st.pendingReq.find? fun p => p.id == id).map (·.done)).getD false

def resetReq (id : Int) (error : Bool) : List PendingReq → List PendingReq
  | [] => []
  | p :: ps =>
      if p.id = id then { id := -1, done := true, error := p.error || error } :: ps
      else p :: resetReq id error ps

/-- An AIO state after one of its requests is done. -/
def markDone (id : Int) (error : Bool) (st : EvKQFileMappedAIOState) : EvKQFileMappedAIOState :=
  { st with
    pendingReq := resetReq id error st.pendingReq
    reqCountFinished := st.reqCountFinished + 1
    reqCountError := if error then st.reqCountError + 1 else st.reqCountError
    error := st.error || error }

/-- `EvKQFileMappedAIOStateCheckFinish`. -/
def aioStateCheckFinish (r : EvAIOReq) (error : Bool) : M Unit := do
  let s ← deref
  match s.aioStateList.find? (·.hasOpen r.id) with
  | none => throw .notFound
  | some st =>
      assertThat (!st.isDone r.id) .alreadyDone
      set (s.setState st.serial (markDone r.id error))
      assertThat (st.reqCountFinished + 1 ≤ st.pendingReq.length) .overFinished
      if st.reqCountFinished + 1 = st.pendingReq.length then
        if s.loading then
          assertThat (s.loadAiostate == some st.serial) .loadMismatch
          modify fun s => { s with loadAiostate := none, loading := false }
        aioStateInvokeAndDestroy callback st.serial

end Callbacks

end Functions

end FileMapped
