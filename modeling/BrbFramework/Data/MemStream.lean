import BrbFramework.Lib.Machine
import BrbFramework.Lib.Runs

/-!
# Memory streams

A `MemStream` keeps its bytes in chained nodes and writes at its last one. Nodes
live in a heap here, so that a pointer to a node that was freed stops the model,
and so does a write behind the end of a node, a null pointer, and a second lock
of the mutex of a thread-safe stream. The field `supplied` is a history: what
was written or read from a descriptor since the last clean.

`node_off`, which nothing reads, and `node_refcount`, which nothing raises above
zero, are left out.
-/

namespace BrbData

open Handler Machine Runs

inductive MemStreamType
  | mtUnsafe
  | mtSafe
  deriving DecidableEq, Repr

structure MemStreamNode where
  nextNode : Option Nat := none
  prevNode : Option Nat := none
  nodeSz : Nat := 0
  nodeCap : Nat
  nodeData : List UInt8
  deriving DecidableEq, Repr

/-- `MEM_NODE_AVAILCAP`. -/
def MemStreamNode.availCap (n : MemStreamNode) : Nat := uint64Sub n.nodeCap n.nodeSz

structure MemStream where
  dataSize : Nat := 0
  minNodeSz : Int64
  nodeCount : Nat := 0
  headPtr : Option Nat := none
  tailPtr : Option Nat := none
  curPtr : Option Nat := none
  streamType : MemStreamType
  /-- The mutex of the stream is held. -/
  locked : Bool := false
  /-- The nodes that are allocated, by their addresses. -/
  heap : Nat → Option MemStreamNode := fun _ => none
  /-- The nodes that were made, which is the next address. -/
  made : Nat := 0
  supplied : List UInt8 := []

namespace MemStream

inductive Fault
  /-- A null pointer is followed. -/
  | null
  /-- A pointer to a freed node is followed. -/
  | freed
  /-- Bytes are copied behind the end of a node. -/
  | outside
  /-- The mutex is locked by the thread that holds it. -/
  | deadlock
  deriving DecidableEq, Repr

abbrev M := EStateM Fault MemStream

/-- `MemStreamNew`. -/
def new (minNodeSz : Int64) (streamType : MemStreamType) : MemStream where
  minNodeSz := minNodeSz
  streamType := streamType

/-- `MEMSTREAM_MUTEX_LOCK`. -/
def mutexLock : M PUnit := do
  let s ← get
  if s.streamType = .mtSafe then
    assertThat (!s.locked) .deadlock
    set { s with locked := true }

/-- `MEMSTREAM_MUTEX_UNLOCK`. -/
def mutexUnlock : M PUnit := modify fun s => { s with locked := false }

def node (ptr : Option Nat) : M MemStreamNode := do
  match ptr with
  | none => throw .null
  | some i =>
    match (← get).heap i with
    | none => throw .freed
    | some n => return n

/-- A field of the node behind a pointer is assigned. -/
def modifyNode (ptr : Option Nat) (f : MemStreamNode → MemStreamNode) : M PUnit := do
  let n ← node ptr
  modify fun s => { s with heap := Function.update s.heap (ptr.getD 0) (some (f n)) }

/-- The size that `MemStreamNodeNew` gives a node. -/
def locNodeSz (minNodeSz : Int64) (nodeSz : Nat) : Nat :=
  if 0 < minNodeSz ∧ nodeSz < minNodeSz.toNatClampNeg then minNodeSz.toNatClampNeg else nodeSz

/-- `MemStreamNodeNew`. -/
def nodeNew (nodeSz : Nat) : M (Option Nat) := do
  let s ← get
  let loc := locNodeSz s.minNodeSz nodeSz
  set { s with
    heap := Function.update s.heap s.made
      (some { nodeCap := loc, nodeData := List.replicate loc 0 })
    made := s.made + 1
    nodeCount := s.nodeCount + 1 }
  return some s.made

/-- `MemStreamCreateNewNodeTail`. -/
def createNewNodeTail (dataSz : Nat) : M Nat := do
  mutexLock
  if (← get).nodeCount = 0 then
    let ptr ← nodeNew dataSz
    modify fun s => { s with headPtr := ptr, curPtr := ptr, tailPtr := ptr }
    mutexUnlock
    return 0
  else
    let newMemNode ← nodeNew dataSz
    let tailMemNode := (← get).tailPtr
    modifyNode tailMemNode fun n => { n with nextNode := newMemNode }
    modifyNode newMemNode fun n => { n with prevNode := tailMemNode }
    modify fun s => { s with tailPtr := newMemNode }
    mutexUnlock
    return (← get).nodeCount

/-- `MEM_NODE_NEW_TAILNODE`. -/
def newTailNode (dataSz : Nat) : M (Option Nat) := do
  let _ ← createNewNodeTail dataSz
  return (← get).tailPtr

/-- `MEM_NODE_COPYINTO`, and what a read does to the buffer that it is given. -/
def copyInto (ptr : Option Nat) (bytes : List UInt8) : M PUnit := do
  let n ← node ptr
  assertThat (n.nodeSz + bytes.length ≤ n.nodeData.length) .outside
  modifyNode ptr fun n => { n with nodeData := splice n.nodeData n.nodeSz bytes }

/-- `COUNTER_UPDATE_NODE_AND_STREAM`. -/
def counterUpdate (ptr : Option Nat) (dataSz : Nat) : M PUnit := do
  modify fun s => { s with dataSize := uint64 (s.dataSize + dataSz) }
  modifyNode ptr fun n => { n with nodeSz := uint64 (n.nodeSz + dataSz) }

/-- `read` of at most `sz` bytes to the end of a node. The answer is -1 or some bytes; the
result is the number as it is added to an `unsigned long`. -/
def readInto (ptr : Option Nat) (sz : Nat) (answer : Option (List UInt8)) : M Nat := do
  match answer with
  | none => return 2 ^ 64 - 1
  | some bytes =>
    copyInto ptr (bytes.take sz)
    modify fun s => { s with supplied := s.supplied ++ bytes.take sz }
    return (bytes.take sz).length

/-- `MemStreamGrabDataFromFD`. The descriptor gives `first`, and then `second` where it is
read twice. -/
def grabDataFromFD (dataSz : Nat) (first second : Option (List UInt8)) : M Int := do
  mutexLock
  if (← get).nodeCount = 0 then
    let memNode ← newTailNode dataSz
    let readBytes := uint64 (← readInto memNode dataSz first)
    counterUpdate memNode readBytes
    mutexUnlock
    return int32 readBytes
  else
    let memNode := (← get).tailPtr
    let n ← node memNode
    if dataSz < n.availCap then
      let readBytes := uint64 (← readInto memNode dataSz first)
      counterUpdate memNode readBytes
      mutexUnlock
      return int32 readBytes
    else
      let origOff := n.availCap
      let readBytes := uint64 (← readInto memNode origOff first)
      counterUpdate memNode readBytes
      let dataLeft := uint64Sub dataSz readBytes
      let memNode ← newTailNode dataLeft
      let readBytes := uint64 (readBytes + (← readInto memNode dataLeft second))
      counterUpdate memNode dataLeft
      mutexUnlock
      return int32 readBytes

/-- `MemStreamWrite`. -/
def write (data : List UInt8) : M PUnit := do
  modify fun s => { s with supplied := s.supplied ++ data }
  let dataSz := data.length
  mutexLock
  if (← get).nodeCount = 0 then
    let memNode ← newTailNode dataSz
    copyInto memNode data
    counterUpdate memNode dataSz
  else
    let memNode := (← get).tailPtr
    let n ← node memNode
    if dataSz < n.availCap then
      copyInto memNode data
      counterUpdate memNode dataSz
    else
      let origOff := n.availCap
      let dataLeft := uint64Sub dataSz origOff
      copyInto memNode (data.take origOff)
      counterUpdate memNode origOff
      let memNode ← newTailNode dataLeft
      copyInto memNode ((data.drop origOff).take dataLeft)
      counterUpdate memNode dataLeft
  mutexUnlock

/-- The loop of `MemStreamClean`, for at most `n` nodes. -/
def destroyFrom : Nat → Option Nat → M PUnit
  | 0, _ => pure ()
  | n + 1, ptr => do
    let nextMemNode := (← node ptr).nextNode
    modify fun s => { s with
      heap := Function.update s.heap (ptr.getD 0) none
      nodeCount := s.nodeCount - 1 }
    if nextMemNode.isSome then destroyFrom n nextMemNode

/-- `MemStreamClean`. -/
def clean : M PUnit := do
  mutexLock
  let s ← get
  let firstMemNode := s.headPtr
  let curMemNode := (← node firstMemNode).nextNode
  if s.nodeCount = 0 then
    mutexUnlock
    return
  if s.nodeCount > 1 then
    destroyFrom s.made curMemNode
  modify fun s => { s with nodeCount := 1, dataSize := 0 }
  let n ← node firstMemNode
  assertThat (n.nodeSz ≤ n.nodeData.length) .outside
  modifyNode firstMemNode fun n =>
    { n with nodeData := splice n.nodeData 0 (List.replicate n.nodeSz 0), nodeSz := 0 }
  modify fun s => { s with
    headPtr := firstMemNode, curPtr := firstMemNode, tailPtr := firstMemNode, supplied := [] }
  mutexUnlock

inductive Op
  | write (data : List UInt8)
  | grabDataFromFD (dataSz : Nat) (first second : Option (List UInt8))
  | clean
  deriving DecidableEq

def handle : Op → M PUnit
  | .write data => write data
  | .grabDataFromFD dataSz first second => do let _ ← grabDataFromFD dataSz first second
  | .clean => clean

/-! ## What a stream holds -/

/-- The nodes from a pointer on, as `MemStreamWriteToFD` walks over them, if it does not run
into a freed one or over more than `n`. -/
def walk (heap : Nat → Option MemStreamNode) : Nat → Option Nat → Option (List MemStreamNode)
  | _, none => some []
  | 0, some _ => none
  | n + 1, some i => (heap i).bind fun m => (walk heap n m.nextNode).map (m :: ·)

def content (nodes : List MemStreamNode) : List UInt8 :=
  nodes.flatMap fun n => n.nodeData.take n.nodeSz

structure Faithful (s : MemStream) (nodes : List MemStreamNode) : Prop where
  walk : walk s.heap s.made s.headPtr = some nodes
  content : content nodes = s.supplied
  dataSize : s.dataSize = s.supplied.length
  room : ∀ n ∈ nodes, n.nodeSz ≤ n.nodeCap

end MemStream

end BrbData
