import BrbFramework.Lib.Runs
import BrbFramework.Data.MemBuffer
import BrbFramework.Data.DynBitMap

/-!
# File-mapped stores

A file-mapped store writes its data file in pages. A write call is cut into an
aligned part and at most two partial pages; a partial page is collected in a
`MemBuffer` until it is complete. A bitmap says which pages are on disk, and it
is saved to a metadata file, beside which an auxiliary metadata file may hold
the caller's own data.

All file operations are asynchronous. The pool of threads (`Engine.thread`)
does the metadata and, with `threadedAio`, the data; otherwise the data goes to
the kernel (`Engine.kq`). What the threads, the kernel and the caller's
callbacks answer is an oracle: `env n` is the `n`-th answer, read at `clock`.

The fields under "history" are read by no function of the source. The counters
that nothing reads, the texts of the log and the percentage string are left out.
-/

namespace FileMapped

open Handler BrbData Machine

/-! ## Requests -/

inductive Engine
  | thread | kq
  deriving DecidableEq, Repr

/-- The finish callbacks, `EvKQFileMappedAIO…FinishCB` and
`EvKQFileMappedAIOGenericUnlockCB`. -/
inductive FinishCB
  | writeMetaAuxData | writeMetaRawData | writeRawData
  | readMetaAuxData | readMetaData | readRawData
  | genericUnlock
  deriving DecidableEq, Repr

structure EvKQFileMappedMetaData where
  version : Int
  curOffset : Nat
  pageSz : Nat
  complete : Bool
  deriving DecidableEq, Repr

/-- What `MetaDataPack` makes of the main metadata and the bitmap. -/
structure PackedMeta where
  main : EvKQFileMappedMetaData
  bitmap : Option DynBitMap
  deriving DecidableEq, Repr

inductive Data
  /-- A caller's buffer, which stays as it is until the request is done. -/
  | bytes (l : List UInt8)
  /-- The data pointer of a partial page, taken after its `moved`-th allocation. -/
  | page (mb moved : Nat)
  | packed (m : PackedMeta)
  | aux (l : List UInt8)
  /-- A read. -/
  | target
  deriving DecidableEq, Repr

/-- A request of this store in flight. `queued` is false once the kernel has
done it and only the job that calls back is left; `performed` says whether the
engine has done it. `state` is the AIO state it was issued for, by serial. -/
structure EvAIOReq where
  engine : Engine := .thread
  id : Nat := 0
  fd : Int
  data : Data
  size : Int
  offset : Nat
  finishCb : FinishCB
  state : Option Nat := none
  cancelled : Bool := false
  delayedNotify : Bool := false
  queued : Bool := true
  performed : Bool := false
  deriving DecidableEq, Repr

/-- Requests of one engine differ in their slots. -/
def EvAIOReq.key (r : EvAIOReq) : Engine × Nat := (r.engine, r.id)

def EvAIOReq.writesData (r : EvAIOReq) : Bool :=
  r.finishCb == .writeRawData || r.finishCb == .genericUnlock

/-! ## AIO states and partial pages -/

/-- A slot of `pending_req`. -/
structure PendingReq where
  id : Int
  done : Bool := false
  error : Bool := false
  deriving DecidableEq, Repr

structure EvKQFileMappedAIOStateNotify where
  ownerId : Int
  cancelled : Bool := false
  deriving DecidableEq, Repr

/-- `pendingReq` is the used part of `pending_req`, so that `req_count_pending`
is its length. `serial` stands for the address. -/
structure EvKQFileMappedAIOState where
  serial : Nat
  ownerId : Int
  hasCb : Bool
  pendingReq : List PendingReq := []
  reqCountFinished : Nat := 0
  reqCountError : Nat := 0
  finishList : List EvKQFileMappedAIOStateNotify := []
  error : Bool := false
  cancelled : Bool := false
  deriving DecidableEq, Repr

/-- The ids that are not reset, in the order of their slots. -/
def EvKQFileMappedAIOState.openIds (st : EvKQFileMappedAIOState) : List Int :=
  (st.pendingReq.map (·.id)).filter (0 ≤ ·)

def EvKQFileMappedAIOState.hasOpen (st : EvKQFileMappedAIOState) (id : Int) : Bool :=
  st.openIds.contains id

/-- A partial page on `partial_mb_list`. `mb` stands for its address. -/
structure PagePart where
  mb : Nat
  userInt : Int
  userLong : Nat
  buf : MemBuffer
  deriving DecidableEq, Repr

/-! ## The environment -/

/-- What a caller may ask of the store, also from inside a finish callback. An
AIO state is named by one of its request ids. -/
inductive UserCall
  | lock | unlock | clean | destroy | openMap | close | completed
  | metaAuxWrite (auxMb : Option (List UInt8))
  | aioReadToMemBuffer (offset dataSz : Nat) (ownerId : Int) (hasCb : Bool)
  | aioRead (offset dataSz : Nat) (ownerId : Int) (hasCb : Bool)
  | aioWrite (data : List UInt8) (offset : Nat) (ownerId : Int) (hasCb : Bool)
  | aioAdd (data : List UInt8) (ownerId : Int) (hasCb : Bool)
  | aioWriteMemBufferAndDestroy (data : List UInt8) (offset : Nat) (ownerId : Int) (hasCb : Bool)
  | checkLastBlock (totalSz : Nat)
  | notifyFinishAdd (aioreqId ownerId : Int) (hasCb : Bool)
  | notifyFinishCancelByOwner (aioreqId ownerId : Int)
  | cancelByAIOReqID (aioreqId : Int)
  | cancelAllByOwner (ownerId : Int)
  deriving DecidableEq, Repr

/-- What `EvKQBaseAIOFileGeneric_FinishCheck` finds right after the kernel took
a request; `refused` is a failed `aio_write` or `aio_error`. -/
inductive KernelAnswer
  | pending | refused | canceled
  /-- The request is done; `job` says whether the job that calls back was added. -/
  | finished (job : Bool)
  deriving DecidableEq, Repr

structure Answer where
  /-- The slot that `EvAIOReqNew` would take. One that is in use stands for a
  full queue. -/
  slot : Nat := 0
  /-- Whether `ThreadPoolJobEnqueue` takes a job. -/
  job : Bool := true
  kernel : KernelAnswer := .pending
  /-- Whether a slot this store does not use is used by another one. -/
  taken : Bool := false
  metaFd : Int := 3
  dataFd : Int := 4
  auxFd : Int := 5
  /-- What the finish callback calls while it runs. -/
  callback : List UserCall := []

structure Result where
  /-- `aio_failed`, which the pool of threads never sets. -/
  failed : Bool := false
  /-- The size that `AIOREQ_OPCODE_READ_MB` has read. -/
  readSize : Int := 1
  /-- The main metadata, when the bytes read hold it. -/
  main : Option EvKQFileMappedMetaData := none
  bitmap : DynBitMap := .new 128
  aux : List UInt8 := []

inductive Holder
  | user | cancel | finish (cb : FinishCB)
  deriving DecidableEq, Repr

inductive Obs
  | call (c : UserCall)
  /-- `EvKQFileMappedAIOWrite` was asked to write these bytes. -/
  | wrote (data : List UInt8) (offset : Nat)
  /-- A request was issued while `others` were in flight. -/
  | issued (r : EvAIOReq) (others : List EvAIOReq)
  /-- A submission to the kernel failed and called back before it returned. -/
  | failedNotified (r : EvAIOReq)
  /-- `AIOREQ_CANCELED` at the submission. -/
  | canceledAtSubmit (r : EvAIOReq)
  /-- The request is gone and will not call back. -/
  | lost (r : EvAIOReq)
  /-- The finish callback of the request begins. -/
  | settled (r : EvAIOReq)
  /-- The request of a write call that failed half way is cancelled. -/
  | cancelled (id : Int)
  /-- An update of a metadata file was asked for. -/
  | asked (d : Data)
  /-- The pool refused a metadata write; `again` from a finish callback. -/
  | metaRefused (cb : FinishCB) (closing again : Bool)
  /-- Bytes at `relOffset` were merged into a page that ended at `size`. -/
  | merged (relOffset size : Nat)
  /-- Bytes were stored into a page while `others` were in flight. -/
  | stored (mb : Nat) (others : List EvAIOReq)
  /-- A page was dropped while `others` were in flight. -/
  | dropped (mb : Nat) (others : List EvAIOReq)
  /-- An AIO state was made. -/
  | made (serial : Nat) (hasCb : Bool)
  /-- The call that made this AIO state reported pending work. -/
  | reported (serial : Nat)
  /-- The AIO state is finished; `called` if its callback runs, with `left`
  requests issued for it in flight. -/
  | finished (serial : Nat) (called : Bool) (left : Nat)
  /-- A hold was given back, which left this many requests, locks and running
  callbacks; `closing` if a close stood. -/
  | unlocked (who : Holder) (closing : Bool) (live : Nat) (locks : Int) (running : Nat)
  /-- `CloseFiles` closed the files. -/
  | closed (locks : Int) (inFlight : List EvAIOReq)
  | cleaned (inFlight : List EvAIOReq)
  /-- `AIOLoad` failed after its first read was issued. -/
  | loadAborted
  /-- `AIOLoad` records the id of a request that was not issued. -/
  | phantom (serial : Nat)
  deriving DecidableEq, Repr

/-- Failed assertions, memory the process has given up, and callbacks that are
nested deeper than the run follows them. -/
inductive Fault
  | useAfterFree | notOpened | misaligned | zeroSize | badDescriptor | listLimit
  | duplicateId | notFound | alreadyDone | overFinished | loadMismatch | pendingLeft
  | stateListed | slotNotInUse | notImplemented | auxMissing | notLoading | bitmapIndex
  | negativeDelta | lostState | createFailed | tooDeep
  deriving DecidableEq, Repr

/-! ## State -/

structure EvKQFileMappedConf where
  pathMetaAux : Bool := false
  pageSz : Nat
  pageSz_pos : 0 < pageSz
  threadedAio : Bool := true
  truncateFile : Bool := true

structure EvKQFileMapped where
  refCount : Int := 0
  loadAiostate : Option Nat := none
  -- `data`
  partialMbList : List PagePart := []
  aioStateList : List EvKQFileMappedAIOState := []
  curOffset : Nat := 0
  pageSz : Nat
  dataFd : Int := -1
  -- `meta`
  lastMbRaw : Option PackedMeta := none
  lastMbAux : Option (List UInt8) := none
  dataAuxMb : Option (List UInt8) := none
  bitmap : Option DynBitMap := none
  metaFd : Int := -1
  fdAux : Int := -1
  pathAux : Bool
  paths : Bool := true
  -- `stats`
  pendingRawWrite : Int := 0
  -- `flags`
  threadedAio : Bool
  truncateFile : Bool
  createdWithNew : Bool
  wantsComplete : Bool := false
  complete : Bool := false
  opened : Bool := false
  destroyed : Bool := false
  loading : Bool := false
  closeRequest : Bool := false
  metaRawWriting : Bool := false
  metaAuxWriting : Bool := false
  metaAuxFile : Bool := false
  metaAuxNeedUpdate : Bool := false
  -- the memory of the store itself, its requests and the data file
  freed : Bool := false
  aio : List EvAIOReq := []
  dataFile : Nat → Option UInt8 := fun _ => none
  nextMb : Nat := 0
  nextState : Nat := 0
  clock : Nat := 0
  -- history
  byLoad : Bool
  userLocks : Int := 0
  held : Nat := 0
  closeWanted : Bool := false
  cleaned : Bool := false
  log : List Obs := []

abbrev M := EStateM Fault EvKQFileMapped

namespace EvKQFileMapped

def note (s : EvKQFileMapped) (o : Obs) : EvKQFileMapped := { s with log := s.log ++ [o] }

def tick (s : EvKQFileMapped) : EvKQFileMapped := { s with clock := s.clock + 1 }

def live (s : EvKQFileMapped) : List EvAIOReq := s.aio.filter fun r => !r.cancelled

/-- The requests in flight for one AIO state that will call back. -/
def liveOf (s : EvKQFileMapped) (serial : Nat) : List EvAIOReq :=
  s.live.filter fun r => r.state == some serial

def setState (s : EvKQFileMapped) (serial : Nat)
    (f : EvKQFileMappedAIOState → EvKQFileMappedAIOState) : EvKQFileMapped :=
  { s with aioStateList := s.aioStateList.map fun st => if st.serial = serial then f st else st }

/-- `DLinkedListDelete` of an AIO state. -/
def removeState (s : EvKQFileMapped) (serial : Nat) : EvKQFileMapped :=
  { s with aioStateList := s.aioStateList.filter fun st => st.serial != serial }

def push (s : EvKQFileMapped) (r : EvAIOReq) : EvKQFileMapped :=
  ({ s with aio := s.aio ++ [r] }).note (.issued r s.aio)

def unqueue (s : EvKQFileMapped) (r : EvAIOReq) : EvKQFileMapped :=
  { s with aio := s.aio.filter fun q => q.key != r.key }

def setReq (s : EvKQFileMapped) (engine : Engine) (id : Nat) (f : EvAIOReq → EvAIOReq) :
    EvKQFileMapped :=
  { s with aio := s.aio.map fun r => if r.key = (engine, id) then f r else r }

/-- `EvKQFileMappedPartialGetByIdx`. -/
def partialGetByIdx (s : EvKQFileMapped) (blockIdx : Int) : Option PagePart :=
  s.partialMbList.find? fun p => blockIdx == p.userInt

/-- The bytes a write takes from memory; `garbage` is what a pointer into memory
that was given up reads. -/
def source (s : EvKQFileMapped) (r : EvAIOReq) (garbage : List UInt8) : List UInt8 :=
  match r.data with
  | .bytes l => l
  | .page mb moved =>
      match s.partialMbList.find? fun p => p.mb == mb with
      | some p =>
          if p.buf.moved = moved then (p.buf.data.drop p.buf.offset).take r.size.toNat
          else garbage.take r.size.toNat
      | none => garbage.take r.size.toNat
  | _ => []

/-- The data file after the engine did the request. -/
def written (s : EvKQFileMapped) (r : EvAIOReq) (garbage : List UInt8) : Nat → Option UInt8 :=
  if r.writesData then writeAt s.dataFile r.offset (s.source r garbage) else s.dataFile

def execute (s : EvKQFileMapped) (r : EvAIOReq) (garbage : List UInt8) : EvKQFileMapped :=
  { s with dataFile := s.written r garbage }

/-- `EvAIOReqQueueCancelAllByFD`. -/
def cancelAllByFd (s : EvKQFileMapped) (engine : Engine) (fd : Int) : EvKQFileMapped :=
  { s with aio := s.aio.map fun r =>
      if 0 ≤ fd ∧ r.engine = engine ∧ r.queued = true ∧ r.fd = fd then
        { r with cancelled := true }
      else r }

/-- A hold is given back: the decrement and its history. -/
def giveBack (s : EvKQFileMapped) (who : Holder) : EvKQFileMapped :=
  let s := { s with
    refCount := s.refCount - 1
    userLocks := if who = Holder.user then s.userLocks - 1 else s.userLocks
    held := if who = Holder.user then s.held else s.held - 1 }
  s.note (.unlocked who (s.closeRequest && s.opened) s.live.length s.userLocks s.held)

/-- The requests after the three files were closed. -/
def closedAio (s : EvKQFileMapped) : List EvAIOReq :=
  (((s.cancelAllByFd .kq s.fdAux).cancelAllByFd .kq s.metaFd).cancelAllByFd .kq s.dataFd).aio

/-- What `EvKQFileMappedCloseFiles` does when nothing keeps it. -/
def closeFiles (s : EvKQFileMapped) : EvKQFileMapped :=
  { s with
    aio := s.closedAio, fdAux := -1, metaFd := -1, dataFd := -1
    opened := false, closeRequest := false
    log := s.log ++ [.closed s.userLocks s.aio] }

/-- The requests after those of the pool were cancelled. -/
def cancelledAio (s : EvKQFileMapped) : List EvAIOReq :=
  if s.threadedAio then
    (((s.cancelAllByFd .thread s.fdAux).cancelAllByFd .thread s.metaFd).cancelAllByFd
      .thread s.dataFd).aio
  else s.aio

/-- `EvKQFileMappedInternalClean`. -/
def internalClean (s : EvKQFileMapped) : EvKQFileMapped :=
  { s with
    aioStateList := [], partialMbList := [], bitmap := none, dataAuxMb := none
    lastMbAux := none, lastMbRaw := none, cleaned := true
    aio := { s with aio := s.cancelledAio }.closedAio
    paths := false, pathAux := false, fdAux := -1, metaFd := -1, dataFd := -1
    log := s.log ++ [.cleaned s.aio] }

def packMeta (s : EvKQFileMapped) : PackedMeta where
  main := { version := 1, curOffset := s.curOffset, pageSz := s.pageSz, complete := s.complete }
  bitmap := s.bitmap

/-- `DynBitMapBitTest` on the bitmap, which may not be there yet. -/
def bitTest (s : EvKQFileMapped) (blockIdx : Nat) : Bool :=
  (s.bitmap.map fun m => m.bitTest blockIdx).getD false

end EvKQFileMapped

end FileMapped
