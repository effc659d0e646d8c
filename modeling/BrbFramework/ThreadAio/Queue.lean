import BrbFramework.Data.MemSlot
import BrbFramework.Lib.Along
import BrbFramework.Lib.Linked

/-!
# The queue of AIO requests

A request is created in a slot of its queue, or in memory of its own if the queue has no
slots, and linked and unlinked by its own node. What a request adds to the size of the
queue is read from the request when it is enqueued, and what it takes off is read again
when it leaves.
-/

namespace ThreadAIO

open Handler BrbData

/-- `EvAIOReqCode`. -/
inductive EvAIOReqCode
  | opNone | opOpen | opRead | opReadMB | opWrite | opWriteMB | opClose | opStat
  | opUnlink | opRemove | opTruncate | opRename | opCopy | opMove | opTar | opUntar
  | opMount | opUnmount | opCustom | opLastItem
  deriving DecidableEq, Repr

/-- What `data.ptr` of a request leads to. -/
inductive DataPtr
  | buffer (addr : Nat)
  /-- A `MemBuffer` with these bytes behind its offset. -/
  | memBuffer (bytes : List UInt8)
  deriving DecidableEq, Repr

structure EvAIOReqFile where
  pathStr : Option String := none
  devStr : Option String := none
  flags : Int := 0
  mode : Nat := 0
  /-- `statbuf.st_size`. -/
  stSize : Int := 0
  deriving DecidableEq, Repr

structure EvAIOReqData where
  ptr : Option DataPtr := none
  size : Int := 0
  offset : Int := 0
  deriving DecidableEq, Repr

structure EvAIOReqFlags where
  inUse : Bool := false
  aioRead : Bool := false
  aioWrite : Bool := false
  aioFile : Bool := false
  aioThreaded : Bool := false
  aioFailed : Bool := false
  dupPathStr : Bool := false
  dupDevStr : Bool := false
  cancelled : Bool := false
  destroyed : Bool := false
  deriving DecidableEq, Repr

/-- A request as `memset` leaves it. -/
structure EvAIOReq where
  finishCb : Option Nat := none
  finishCbdata : Nat := 0
  readCb : Option Nat := none
  destroyFunc : Option Nat := none
  destroyCbdata : Option DataPtr := none
  retryCount : Int := 0
  lockCount : Int := 0
  aioOpcode : EvAIOReqCode := .opNone
  ret : Int := 0
  err : Int := 0
  fd : Int := 0
  id : Int := 0
  file : EvAIOReqFile := {}
  data : EvAIOReqData := {}
  flags : EvAIOReqFlags := {}
  deriving DecidableEq, Repr

inductive Fault
  | assertion
  /-- `exit(EXIT_FAILURE)`. -/
  | exitFailure
  /-- The thread is blocked in `waitpid`. -/
  | waiting
  deriving DecidableEq, Repr

structure EvAIOReqQueue where
  /-- The memory of the requests; its slots are used by slotted queues only. -/
  memslot : MemSlotBase EvAIOReq
  aioReqList : Linked.DList := .empty
  /-- The node of each request. -/
  nodes : Linked.Heap := fun _ => .null
  /-- `stats.queue_sz` and `stats.total_sz`, of the type `unsigned long`. -/
  queueSz : UInt64 := 0
  totalSz : UInt64 := 0
  queueSlotted : Bool := true
  /-- `flags.assert_soft` of the base: a failed check of a size is logged only. -/
  assertSoft : Bool := false

namespace EvAIOReqQueue

variable (q : EvAIOReqQueue)

def req (r : Nat) : EvAIOReq := q.memslot.slotData r

def setReq (r : Nat) (f : EvAIOReq → EvAIOReq) : EvAIOReqQueue :=
  { q with memslot := q.memslot.modifyData r f }

/-- The test of `DLinkedListDelete` for a node that is in a list. -/
def Linked (r : Nat) : Prop :=
  q.aioReqList.head = some r ∨ (q.nodes r).next ≠ none ∨ (q.nodes r).prev ≠ none

instance (r : Nat) : Decidable (q.Linked r) := inferInstanceAs (Decidable (_ ∨ _ ∨ _))

end EvAIOReqQueue

/-- What a request counts for: `((size > 0) ? size : 0)`. -/
def amount (size : Int) : UInt64 := if size > 0 then UInt64.ofNat size.toNat else 0

abbrev QueueM := EStateM Fault EvAIOReqQueue

/-- `EvAIOReqQueueInit`. -/
def EvAIOReqQueue.init (maxSlots : Nat) (slotted assertSoft : Bool) : EvAIOReqQueue :=
  { memslot := .init {} (if slotted then maxSlots else 0)
    queueSlotted := slotted, assertSoft := assertSoft }

/-- `EvAIOReqQueueGetQueueSize`, which reads the size as a `long`. -/
def getQueueSize (q : EvAIOReqQueue) : Int := Int.bmod q.queueSz.toNat (2 ^ 64)

/-- `BRB_ASSERT_FMT` on the size of a request that is enqueued. -/
def assertSize (r : Nat) : QueueM PUnit := do
  let q ← get
  assertThat (q.assertSoft || decide ((q.req r).data.size ≠ 0)) .assertion

/-- `EvAIOReqQueueEnqueueHead`. -/
def enqueueHead (r : Nat) : QueueM PUnit := do
  assertSize r
  modify fun q =>
    { q with
      aioReqList := (Linked.add q.aioReqList q.nodes r (some r)).1
      nodes := (Linked.add q.aioReqList q.nodes r (some r)).2
      queueSz := q.queueSz + amount (q.req r).data.size }

/-- `EvAIOReqQueueEnqueue`. -/
def enqueue (r : Nat) : QueueM PUnit := do
  assertSize r
  modify fun q =>
    { q with
      aioReqList := (Linked.addTail q.aioReqList q.nodes r (some r)).1
      nodes := (Linked.addTail q.aioReqList q.nodes r (some r)).2
      queueSz := q.queueSz + amount (q.req r).data.size
      totalSz := q.totalSz + amount (q.req r).data.size }

/-- `EvAIOReqQueueRemoveItem`. -/
def removeItem (r : Nat) : QueueM PUnit :=
  modify fun q =>
    { q with
      aioReqList := (Linked.delete q.aioReqList q.nodes r).1
      nodes := (Linked.delete q.aioReqList q.nodes r).2
      queueSz := q.queueSz - amount (q.req r).data.size }

/-- `EvAIOReqQueueDequeue`. -/
def dequeue : QueueM (Option Nat) := do
  let q ← get
  match Linked.popHead q.aioReqList q.nodes with
  | (some r, list, nodes) =>
      set { q with
        aioReqList := list, nodes := nodes
        queueSz := q.queueSz - amount (q.req r).data.size }
      return some r
  | (none, _, _) => return none

/-- The memory of a new request: a slot, or what `calloc` returns, which is no request that
is in use. -/
def grab (fresh : Nat) : QueueM (Option Nat) :=
  modifyGet fun q =>
    if q.queueSlotted then
      match q.memslot.slotGrab with
      | none => (none, q)
      | some (r, memslot) => (some r, { q with memslot := memslot })
    else if (q.req fresh).flags.inUse then (none, q)
    else (some fresh, q.setReq fresh fun _ => {})

/-- `EvAIOReqNew`. -/
def reqNew (fresh : Nat) (fd : Int) (data : Option DataPtr) (dataSz offset : Int)
    (destroyFunc : Option Nat) (finishCb : Option Nat) (finishCbdata : Nat) :
    QueueM (Option Nat) := do
  match ← grab fresh with
  | none => return none
  | some r =>
      let q ← get
      assertThat (!(q.req r).flags.inUse) .assertion
      -- The cleared request holds its node.
      modify fun q => { q with nodes := Function.update q.nodes r .null }
      modify fun q => q.setReq r fun _ =>
        { fd := fd
          id := if q.queueSlotted then q.memslot.slotGetID r else -1
          data := { ptr := data, size := dataSz, offset := offset }
          destroyFunc := destroyFunc, finishCb := finishCb, finishCbdata := finishCbdata
          flags := { inUse := true } }
      return some r

/-- The part of `EvAIOReqDoDestroy` that frees the duplicates of strings. -/
def freeStrings (r : Nat) : QueueM PUnit := do
  let q ← get
  if (q.req r).flags.dupPathStr then
    assertThat (q.req r).file.pathStr.isSome .assertion
    modify fun q => q.setReq r fun req =>
      { req with file.pathStr := none, flags.dupPathStr := false }
  let q ← get
  if (q.req r).flags.dupDevStr then
    assertThat (q.req r).file.devStr.isSome .assertion
    modify fun q => q.setReq r fun req =>
      { req with file.devStr := none, flags.dupDevStr := false }

/-- `EvAIOReqDoDestroy`: the destroy function sees nothing of the queue. -/
def doDestroy (r : Nat) : QueueM PUnit := do
  freeStrings r
  modify fun q => q.setReq r fun req => { req with flags.inUse := false }
  modify fun q => if q.queueSlotted then { q with memslot := q.memslot.slotFree r } else q

/-- `EvAIOReqDestroy`. -/
def reqDestroy (r : Nat) : QueueM PUnit := do
  let q ← get
  modify fun q => q.setReq r fun req =>
    { req with flags.destroyed := true, lockCount := req.lockCount - 1 }
  if (q.req r).lockCount ≤ 0 then
    doDestroy r

theorem along_freeStrings {R : EvAIOReqQueue → EvAIOReqQueue → Prop}
    [IsPreorder EvAIOReqQueue R] {r : Nat} (hset : ∀ q f, R q (q.setReq r f)) :
    Along R (freeStrings r) := by
  refine along_get_bind fun q => Along.ite ?_ ?_
  · refine (along_assertThat _ _).bind fun _ => Along.bind (along_modify fun q => hset q _) fun _ =>
      along_get_bind fun q => Along.ite ?_ (along_pure _)
    exact (along_assertThat _ _).bind fun _ => along_modify fun q => hset q _
  · refine along_get_bind fun q => Along.ite ?_ (along_pure _)
    exact (along_assertThat _ _).bind fun _ => along_modify fun q => hset q _

end ThreadAIO
