import BrbFramework.FileMapped.Calls

/-!
# Reads, writes, finish callbacks and runs

A write call is cut at the page borders and submitted in up to three parts. The
finish callbacks set the bits of the pages that are on disk, check the request
off its AIO state and give its hold back. A run is a sequence of turns of the
event loop, each of them a call of the user or the news about one request.
-/

namespace FileMapped

open Handler BrbData Machine

section Functions

variable (env : Nat → Answer)

section Callbacks

-- What a finish callback of the caller does.
variable (callback : M Unit)

/-! ## Writing -/

/-- `EvKQFileMappedAIOGenericUnlockCB`. -/
def genericUnlockCB : M Unit := unlock (.finish .genericUnlock)

/-- `DynBitMapBitSet` on the bitmap of the store. -/
def bitSet (index : Int) : M Unit := do
  let s ← deref
  match s.bitmap with
  | none => return
  | some m =>
      assertThat (0 ≤ index) .bitmapIndex
      set { s with bitmap := some (m.bitSet index.toNat) }

/-- `EvKQFileMappedPartialDrop`. -/
def partialDrop (page : PagePart) : M Unit := do
  let s ← deref
  set ({ s with partialMbList := s.partialMbList.filter fun p => p.mb != page.mb }.note
    (.dropped page.mb s.aio))

def completed : M Bool := do
  let s ← deref
  let higherSeen : Nat := (s.bitmap.map (·.higherSeen)).getD 0
  if !(s.bitmap.map fun m => m.checkMultiBlocks 0 higherSeen).getD false then
    modify fun s => { s with wantsComplete := true }
    return false
  if s.partialMbList.length > 1 then
    modify fun s => { s with wantsComplete := true }
    return false
  match s.partialMbList with
  | [] => pure ()
  | page :: _ =>
      if page.userInt ≠ higherSeen then
        return false
      let r : EvAIOReq :=
        { fd := s.dataFd, data := .page page.mb page.buf.moved, size := page.buf.getSize
          offset := s.curOffset, finishCb := .genericUnlock }
      match ← fileWrite env (fun _ => genericUnlockCB) r with
      | .failed => return false
      | _ =>
          lock
          bitSet page.userInt
  modify fun s => { s with complete := true }
  metaDataUpdateAll env
  return true

def checkLastBlock (totalSz : Nat) : M Bool := do
  let s ← deref
  let lastBlockSz := totalSz % s.pageSz
  let lastPageIdx := totalSz / s.pageSz
  match s.partialGetByIdx lastPageIdx with
  | none => return true
  | some page =>
      if page.userLong > 0 then
        return false
      if page.buf.getSize ≥ lastBlockSz then
        let r : EvAIOReq :=
          { fd := s.dataFd, data := .page page.mb page.buf.moved, size := lastBlockSz
            offset := totalSz - lastBlockSz, finishCb := .genericUnlock }
        match ← fileWrite env (fun _ => genericUnlockCB) r with
        | .failed => return false
        | _ =>
            lock
            bitSet lastPageIdx
      return true

/-- The loop of `EvKQFileMappedAIOWriteRawDataFinishCB`, with `count` blocks
left. Its index is an `int`. -/
def markBlocks (blockIdxHigher : Nat) : Int → Nat → M Unit
  | _, 0 => return
  | i, count + 1 => do
      if i < blockIdxHigher then
        bitSet i
        match (← deref).partialGetByIdx i with
        | some page => partialDrop page
        | none => pure ()
        markBlocks blockIdxHigher (int32 (i + 1)) count

/-- `EvKQFileMappedAIOWriteRawDataFinishCB`; `failed` is `aio_failed`. -/
def writeRawDataFinishCB (r : EvAIOReq) (failed : Bool) : M Unit := do
  let s ← deref
  set { s with pendingRawWrite := s.pendingRawWrite - 1 }
  if failed || int32 r.size ≤ 0 then
    aioStateCheckFinish callback r true
    unlock (.finish .writeRawData)
  else
    let size := r.size.toNat
    let blockIdxLower := r.offset / s.pageSz
    let blockIdxHigher := (r.offset + size) / s.pageSz
    markBlocks blockIdxHigher (int32 blockIdxLower) (size / s.pageSz)
    aioStateCheckFinish callback r false
    let s ← deref
    if s.pendingRawWrite = 0 then
      if s.wantsComplete then
        let _ ← completed env
        modify fun s => { s with wantsComplete := false }
      else
        metaDataUpdateAll env
    unlock (.finish .writeRawData)

/-- What the write functions do with the status of their submission. -/
def recordWrite (serial : Nat) : Submitted → M Bool
  | .failed => return false
  | .canceled => return true
  | .pending id | .finished id => do
      lock
      aioStatePendingAdd serial id true
      return true

/-- `EvKQFileMappedAlignedWrite`. -/
def alignedWrite (serial : Nat) (data : Data) (dataSz blockIdx : Nat) : M Bool := do
  let s ← deref
  assertThat (dataSz % s.pageSz == 0) .misaligned
  let r : EvAIOReq :=
    { fd := s.dataFd, data := data, size := dataSz, offset := blockIdx * s.pageSz
      finishCb := .writeRawData, state := some serial }
  recordWrite serial (← fileWrite env (fun r => writeRawDataFinishCB env callback r true) r)

/-- The piece does not fit the page, or the page has it. -/
def skipPiece (page : PagePart) (dataSz relOffset : Nat) : Bool :=
  let pagePartMbOff := page.userLong + page.buf.getSize
  let pagePartNewSz := dataSz + relOffset
  (relOffset < page.userLong && pagePartNewSz < page.userLong) ||
    relOffset > pagePartMbOff ||
    (relOffset > page.userLong && pagePartNewSz < pagePartMbOff)

/-- The page a piece goes into: the one of its block, or a new one at the head of
the list. `none` if there is nothing to store. -/
def partialPage (blockIdx dataSz relOffset : Nat) : M (Option PagePart) := do
  let s ← deref
  match s.partialGetByIdx blockIdx with
  | some page =>
      if skipPiece page dataSz relOffset then
        return none
      note (.merged relOffset page.buf.getSize)
      return some { page with
        userLong := if relOffset > page.userLong then page.userLong else relOffset
        userInt := int32 blockIdx }
  | none =>
      let page : PagePart :=
        { mb := s.nextMb, userInt := int32 blockIdx, userLong := relOffset, buf := .new s.pageSz }
      set { s with partialMbList := page :: s.partialMbList, nextMb := s.nextMb + 1 }
      return some page

/-- `MemBufferOffsetWrite` on a partial page, after its offset and block were
saved. -/
def storePiece (page : PagePart) : M Unit :=
  modify fun s =>
    { s with partialMbList := s.partialMbList.map fun (p : PagePart) =>
        if p.mb = page.mb then page else p }.note (.stored page.mb s.aio)

/-- `EvKQFileMappedPartialDataProcess`. -/
def partialDataProcess (serial : Nat) (data : List UInt8) (blockIdx relOffset : Nat) :
    M Bool := do
  let s ← deref
  if s.bitTest blockIdx then
    return true
  match ← partialPage blockIdx data.length relOffset with
  | none => return true
  | some page =>
      let page := { page with buf := page.buf.offsetWrite relOffset data }
      storePiece page
      if page.buf.getSize - page.userLong ≥ s.pageSz then
        alignedWrite env callback serial (.page page.mb page.buf.moved) s.pageSz blockIdx
      else
        let r : EvAIOReq :=
          { fd := s.dataFd, data := .bytes data, size := data.length
            offset := blockIdx * s.pageSz + relOffset
            finishCb := .writeRawData, state := some serial }
        recordWrite serial (← fileWrite env (fun r => writeRawDataFinishCB env callback r true) r)

/-- The statuses `EvKQFileMappedAIOWrite` returns negated. -/
def aioError : Int := 1

def aioFinished : Int := 3

/-- How `EvKQFileMappedAIOWrite` cuts a write: the bytes up to the first page
border, the block after it, and the bytes behind the last one. -/
structure Cut where
  lower : Nat
  higher : Nat
  relative : Nat
  trail : Nat
  finish : Nat
  begin : Nat
  deriving DecidableEq, Repr

def cut (pageSz offset dataSz : Nat) : Cut :=
  let lower := offset / pageSz
  let relative := offset % pageSz
  let trail := if relative > 0 then pageSz - relative else 0
  let trail := if trail > dataSz then dataSz else trail
  { lower := lower
    higher := (offset + dataSz) / pageSz
    relative := relative
    trail := trail
    finish := (dataSz - trail) % pageSz
    begin := if trail > 0 then lower + 1 else lower }

def alignedPart (serial : Nat) (data : List UInt8) (blockIdx : Nat) : M Bool :=
  if data.length > 0 then alignedWrite env callback serial (.bytes data) data.length blockIdx
  else return true

def partialPart (serial : Nat) (data : List UInt8) (blockIdx relOffset : Nat) : M Bool :=
  if data.length > 0 then partialDataProcess env callback serial data blockIdx relOffset
  else return true

/-- The aligned part and the partial pages of a write, in the order of their
submission. -/
def writeParts (serial : Nat) (data : List UInt8) (c : Cut) : M (Bool × Bool × Bool) := do
  let rounded := data.length - (c.trail + c.finish)
  let aligned ← alignedPart env callback serial ((data.drop c.trail).take rounded) c.begin
  let trail ← partialPart env callback serial (data.take c.trail) c.lower c.relative
  let head ← partialPart env callback serial (data.drop (c.trail + rounded)) c.higher 0
  return (aligned, trail, head)

/-- The end of a write call whose parts could not all be submitted. -/
def abandonWrite (serial : Nat) : M Int := do
  let s ← deref
  set (s.removeState serial)
  match s.aioStateList.find? (·.serial == serial) with
  | none => throw .lostState
  | some st => aioStatePendingCancelAll env st.openIds
  return -aioError

/-- The end of a write call whose parts are submitted. -/
def reportWrite (serial : Nat) : M Int := do
  let s ← deref
  match s.aioStateList.find? (·.serial == serial) with
  | none => throw .lostState
  | some st =>
      match st.pendingReq with
      | [] =>
          aioStateInvokeAndDestroy callback serial
          return -aioFinished
      | first :: _ =>
          aioStateSetDelayedNotify serial
          note (.reported serial)
          return first.id

def aioWrite (data : List UInt8) (offset : Nat) (ownerId : Int) (hasCb : Bool) : M Int := do
  let s ← deref
  assertThat s.opened .notOpened
  note (.wrote data offset)
  let serial ← aioStateNew ownerId hasCb
  let (aligned, trail, head) ←
    writeParts env callback serial data (cut s.pageSz offset data.length)
  modify fun s => { s with
    curOffset := if s.curOffset < offset + data.length then offset + data.length
      else s.curOffset }
  if !aligned || !head || !trail then
    abandonWrite env serial
  else
    reportWrite callback serial

def aioAdd (data : List UInt8) (ownerId : Int) (hasCb : Bool) : M Int := do
  let s ← deref
  let status ← aioWrite env callback data s.curOffset ownerId hasCb
  if status < 0 then
    return status
  modify fun s => { s with curOffset := s.curOffset + data.length }
  return status

def aioWriteMemBufferAndDestroy (data : List UInt8) (offset : Nat) (ownerId : Int)
    (hasCb : Bool) : M Int := do
  let reqId ← aioWrite env callback data offset ownerId hasCb
  if reqId < 0 then
    return reqId
  match ← aioStateGetByAIOReqID reqId with
  | none => throw .lostState
  | some _ => return reqId

/-! ## Reading -/

/-- `EvKQFileMappedAIOReadRawDataFinishCB`; `failed` is its test of the flag and
the size. -/
def readRawDataFinishCB (r : EvAIOReq) (failed : Bool) : M Unit := do
  let _ ← deref
  aioStateCheckFinish callback r failed
  unlock (.finish .readRawData)

/-- What both read functions do with the status of their submission. -/
def recordRead (serial : Nat) : Submitted → M Int
  | .failed => do
      let s ← deref
      set (s.removeState serial)
      return -aioError
  | .canceled => return -1
  | .pending id | .finished id => do
      lock
      aioStatePendingAdd serial id false
      note (.reported serial)
      return id

def aioReadToMemBuffer (offset dataSz : Nat) (ownerId : Int) (hasCb : Bool) : M Int := do
  let s ← deref
  assertThat s.opened .notOpened
  let serial ← aioStateNew ownerId hasCb
  assertThat s.threadedAio .notImplemented
  let r : EvAIOReq :=
    { fd := s.dataFd, data := .target, size := dataSz, offset := offset
      finishCb := .readRawData, state := some serial }
  match ← threadAIOFileMb env r with
  | none => recordRead serial .failed
  | some id => recordRead serial (.pending id)

def aioRead (offset dataSz : Nat) (ownerId : Int) (hasCb : Bool) : M Int := do
  let s ← deref
  assertThat s.opened .notOpened
  let serial ← aioStateNew ownerId hasCb
  let r : EvAIOReq :=
    { fd := s.dataFd, data := .target, size := dataSz, offset := offset
      finishCb := .readRawData, state := some serial }
  recordRead serial (← fileRead env (fun r => readRawDataFinishCB callback r true) r)

/-! ## Loading and metadata callbacks -/

/-- `EvKQFileMappedAIOReadMetaAuxDataFinishCB`. -/
def readMetaAuxDataFinishCB (r : EvAIOReq) (res : Result) : M Unit := do
  let s ← deref
  assertThat s.loading .notLoading
  assertThat (0 < s.fdAux) .badDescriptor
  if res.failed || res.readSize ≤ 0 then
    aioStateCheckFinish callback r true
  else
    set { s with dataAuxMb := some res.aux }
    aioStateCheckFinish callback r false
  unlock (.finish .readMetaAuxData)

/-- `EvKQFileMappedAIOReadMetaDataFinishCB`. -/
def readMetaDataFinishCB (r : EvAIOReq) (res : Result) : M Unit := do
  let s ← deref
  assertThat s.loading .notLoading
  assertThat (0 < s.metaFd) .badDescriptor
  if res.failed || res.readSize ≤ 0 then
    aioStateCheckFinish callback r true
  else
    match res.main with
    | none => set { s with bitmap := some res.bitmap }
    | some main =>
        set { s with
          bitmap := some res.bitmap, pageSz := main.pageSz, curOffset := main.curOffset
          complete := main.complete }
    aioStateCheckFinish callback r false
  unlock (.finish .readMetaData)

/-- The close that a metadata write tries when it is done. -/
def tryClose : M Unit := do
  let s ← deref
  if s.closeRequest then
    closeFiles

/-- The metadata write that waited is issued by the finish callback of the one
in flight, whose hold goes on with it; a failure returns without `Unlock`. -/
def reissue (cb : FinishCB) (fd : Int) (data : Data) (size : Int) : M Unit := do
  let _ ← metaWrite env cb fd data size true
  modify fun s => { s with held := s.held - 1 }

/-- `EvKQFileMappedAIOWriteMetaAuxDataFinishCB`. -/
def writeMetaAuxDataFinishCB : M Unit := do
  let s ← deref
  match s.lastMbAux with
  | some auxMb =>
      set { s with lastMbAux := none }
      reissue env .writeMetaAuxData s.fdAux (.aux auxMb) auxMb.length
  | none =>
      set { s with metaAuxWriting := false }
      tryClose
      unlock (.finish .writeMetaAuxData)

/-- `EvKQFileMappedAIOWriteMetaRawDataFinishCB`. -/
def writeMetaRawDataFinishCB : M Unit := do
  let s ← deref
  match s.lastMbRaw with
  | some packed =>
      set { s with lastMbRaw := none }
      reissue env .writeMetaRawData s.metaFd (.packed packed) packedSize
  | none =>
      set { s with metaRawWriting := false }
      tryClose
      unlock (.finish .writeMetaRawData)

def finishCallback (r : EvAIOReq) (res : Result) : M Unit :=
  match r.finishCb with
  | .writeMetaAuxData => writeMetaAuxDataFinishCB env
  | .writeMetaRawData => writeMetaRawDataFinishCB env
  | .writeRawData => writeRawDataFinishCB env callback r res.failed
  | .readMetaAuxData => readMetaAuxDataFinishCB callback r res
  | .readMetaData => readMetaDataFinishCB callback r res
  | .readRawData => readRawDataFinishCB callback r (res.failed || int32 res.readSize ≤ 0)
  | .genericUnlock => genericUnlockCB

/-- `EvAIOReqInvokeCallBacksAndDestroy`, once the request is off its queue. Its
slot is free from here on, a little before the source frees it. -/
def invokeCallBacks (r : EvAIOReq) (res : Result) : M Unit := do
  if r.cancelled then
    modify fun s => s.unqueue r
  else
    modify fun s => { (s.unqueue r).note (.settled r) with held := s.held + 1 }
    finishCallback env callback r res

/-- A request leaves its queue without a callback. -/
def discard (r : EvAIOReq) : M Unit := do
  modify fun s => s.unqueue r
  if !r.cancelled then
    note (.lost r)

end Callbacks

/-! ## Runs -/

def runCalls (call : UserCall → M Unit) : List UserCall → M Unit
  | [] => return
  | c :: cs => do
      call c
      runCalls call cs

def userCallback (call : UserCall → M Unit) : M Unit := do
  let a ← ask env
  runCalls call a.callback

/-- A caller calls the store. `depth` bounds how deep its callbacks nest. -/
def userCall : Nat → UserCall → M Unit
  | 0, _ => throw .tooDeep
  | depth + 1, c => do
      let callback := userCallback env (userCall depth)
      note (.call c)
      match c with
      | .lock => do
          lock
          modify fun s => { s with userLocks := s.userLocks + 1 }
      | .unlock => unlock .user
      | .clean => clean
      | .destroy => destroy
      | .openMap => do
          let _ ← openMap env
      | .close => close env
      | .completed => do
          let _ ← completed env
      | .metaAuxWrite auxMb => metaAuxWrite env auxMb
      | .aioReadToMemBuffer offset dataSz ownerId hasCb => do
          let _ ← aioReadToMemBuffer env offset dataSz ownerId hasCb
      | .aioRead offset dataSz ownerId hasCb => do
          let _ ← aioRead env callback offset dataSz ownerId hasCb
      | .aioWrite data offset ownerId hasCb => do
          let _ ← aioWrite env callback data offset ownerId hasCb
      | .aioAdd data ownerId hasCb => do
          let _ ← aioAdd env callback data ownerId hasCb
      | .aioWriteMemBufferAndDestroy data offset ownerId hasCb => do
          let _ ← aioWriteMemBufferAndDestroy env callback data offset ownerId hasCb
      | .checkLastBlock totalSz => do
          let _ ← checkLastBlock env totalSz
      | .notifyFinishAdd aioreqId ownerId hasCb => notifyFinishAdd aioreqId ownerId hasCb
      | .notifyFinishCancelByOwner aioreqId ownerId =>
          notifyFinishCancelByOwner aioreqId ownerId
      | .cancelByAIOReqID aioreqId => aioStateCancelByAIOReqID aioreqId
      | .cancelAllByOwner ownerId => aioStateCancelAllByOwner ownerId

/-- What the kernel says about a request from an earlier turn of the loop. -/
inductive Reaped
  | failed | canceled
  | done (job : Bool)
  deriving DecidableEq, Repr

inductive Event
  | user (c : UserCall)
  /-- An engine does a request. -/
  | perform (engine : Engine) (id : Nat) (garbage : List UInt8)
  /-- `ThreadAIOEngine_JobFinish`. -/
  | jobFinish (id : Nat) (res : Result)
  /-- `EvKQBaseAIOFileGeneric_FinishCheck` on an event of the kernel. -/
  | finishCheck (id : Nat) (reaped : Reaped)
  /-- `EvKQBaseAIOFileNotifyFinishJob`. -/
  | notifyFinishJob (id : Nat)

/-- `EvKQBaseAIOFileGeneric_FinishCheck` for a request of an earlier turn. -/
def finishCheck (callback : M Unit) (r : EvAIOReq) : Reaped → M Unit
  | .failed => invokeCallBacks env callback r { failed := true }
  | .canceled => discard r
  | .done job =>
      if !r.delayedNotify then
        invokeCallBacks env callback r {}
      else if job then
        modify fun s => s.setReq .kq r.id fun r => { r with queued := false }
      else
        discard r

def handle (depth : Nat) : Event → M Unit
  | .user c => userCall env depth c
  | .perform engine id garbage => do
      let s ← get
      match s.aio.find? fun r => r.key == (engine, id) with
      | none => return
      | some r =>
          if !r.performed then
            set ((s.execute r garbage).setReq engine id fun r => { r with performed := true })
  | .jobFinish id res => do
      let s ← get
      match s.aio.find? fun r => r.key == (Engine.thread, id) with
      | none => return
      | some r =>
          invokeCallBacks env (userCallback env (userCall env depth)) r { res with failed := false }
  | .finishCheck id reaped => do
      let s ← get
      match s.aio.find? fun r => r.key == (Engine.kq, id) && r.queued with
      | none => return
      | some r => finishCheck env (userCallback env (userCall env depth)) r reaped
  | .notifyFinishJob id => do
      let s ← get
      match s.aio.find? fun r => r.key == (Engine.kq, id) && !r.queued with
      | none => return
      | some r => invokeCallBacks env (userCallback env (userCall env depth)) r {}

inductive Start
  /-- `EvKQFileMappedNew`, or `EvKQFileMappedInit` on the caller's memory. -/
  | init (conf : EvKQFileMappedConf) (createdWithNew : Bool)
  | load (conf : EvKQFileMappedConf) (ownerId : Int) (hasCb : Bool)

def Start.blank : Start → EvKQFileMapped
  | .init conf createdWithNew =>
      { pageSz := conf.pageSz, pathAux := conf.pathMetaAux, threadedAio := conf.threadedAio
        truncateFile := conf.truncateFile, createdWithNew := createdWithNew, byLoad := false }
  | .load conf _ _ =>
      { pageSz := conf.pageSz, pathAux := conf.pathMetaAux, threadedAio := conf.threadedAio
        truncateFile := false, createdWithNew := true, byLoad := true }

/-- `EvKQFileMappedInit`. -/
def initMap : M Unit := do
  if ← openFiles env then
    modify fun s => { s with bitmap := some (.new 32) }
  else
    throw .createFailed

/-- The common end of a failed `EvKQFileMappedAIOLoad`. -/
def loadFail : M Unit := do
  closeFiles
  modify fun s => { s with freed := true }
  throw .createFailed

/-- `EvKQFileMappedAIOLoad`. Both reads are issued for the AIO state that is
made after them. Without an auxiliary file the id recorded for its read is the
one of a cleared request. -/
def aioLoad (ownerId : Int) (hasCb : Bool) : M Unit := do
  if !(← openFiles env) then
    loadFail
  let s ← get
  let read (fd : Int) (cb : FinishCB) : EvAIOReq :=
    { fd := fd, data := .target, size := -1, offset := 0, finishCb := cb
      state := some s.nextState }
  match ← threadAIOFileMb env (read s.metaFd .readMetaData) with
  | none => loadFail
  | some metaId =>
      lock
      let auxId ← if s.metaAuxFile then
          match ← threadAIOFileMb env (read s.fdAux .readMetaAuxData) with
          | none =>
              modify fun s => (s.cancelAllByFd .thread s.metaFd).note .loadAborted
              loadFail
              pure 0
          | some auxId =>
              lock
              pure auxId
        else pure 0
      let serial ← aioStateNew ownerId hasCb
      aioStatePendingAdd serial metaId false
      if !s.metaAuxFile then
        note (.phantom serial)
      aioStatePendingAdd serial auxId false
      modify fun s => { s with loadAiostate := some serial, loading := true }
      note (.reported serial)

def create : Start → M Unit
  | .init _ _ => initMap env
  | .load _ ownerId hasCb => aioLoad env ownerId hasCb

end Functions

abbrev Config := Runs.Config Fault EvKQFileMapped

/-- The configuration right after a store was created. -/
def created (env : Nat → Answer) (start : Start) : Config :=
  ⟨(exec (create env start) start.blank).1, (exec (create env start) start.blank).2⟩

/-- A run of the store, with callbacks nested up to `depth`. -/
def runFrom (env : Nat → Answer) (depth : Nat) (start : Start) (evs : List Event) : Config :=
  Runs.run (handle env depth) (created env start) evs

end FileMapped
