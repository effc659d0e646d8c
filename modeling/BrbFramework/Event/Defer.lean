import BrbFramework.Event.ShadowState
import BrbFramework.Lib.Runs

/-!
# Deferred descriptors

The program may ask to be called before a read or write event is dispatched, and may then
defer it: the descriptor is put on a list and flagged, and the list is walked from time to
time, asking again. The check, the removal, the walk and the reset exist for both
directions; `Direction` stands for what they share, and what one of them does differently
is spelled out.

A callback of the program may call back into all of this. What is left to do after it is
a frame of a stack, and a step executes the program up to the next callback or to the end
of a frame; between two steps the program's own calls are steps as well while the top of
the stack is a callback, or when nothing runs.

The times that are stored and the timeouts are left out, as are the callbacks for the end
of a file. A list is modelled by its descriptors; what `DLinkedListAdd` makes of a node
that is still linked is left out.
-/

namespace EvKQDefer

open Handler
open EvKQTimer (CommAction)
open EvKQShadow (Direction EventPrototype)

structure EvBaseKQFileDesc where
  /-- `cb_handler[KQ_CB_HANDLER_DEFER_CHECK_*]`. -/
  deferCheck : Direction → EventPrototype := fun _ => {}
  /-- `flags.defer_read` and `flags.defer_write`. -/
  defer : Direction → Bool := fun _ => false
  transitionSet : Direction → Bool := fun _ => false
  pendingBytes : Direction → Int := fun _ => 0
  active : Bool := false
  closed : Bool := false
  closing : Bool := false
  /-- `notify.close.job_id`. -/
  closeJobId : Int := -1

abbrev Node := Direction × Nat

/-- What is left to do when the frames above are done. -/
inductive Frame
  /-- A callback of the program runs. -/
  | callback
  /-- In the check of a descriptor, after the program has answered. -/
  | checked (direction : Direction) (fd : Nat) (eventSz : Int)
  /-- "Give a chance to set defer again." -/
  | recheck (direction : Direction) (fd : Nat)
  /-- In `EvKQInvokeKQFDCallbacks`, after the check of a descriptor. -/
  | event (direction : Direction) (fd : Nat)
  /-- At a node in one of the loops of `EvKQBaseDeferBeginCheck`, with the answers so far. -/
  | walk (loop : Direction) (node : Option Node) (answer : Direction → Int)
  /-- In one of the loops, after the program has answered. -/
  | walked (loop : Direction) (node : Node) (answer : Direction → Int)

structure EvKQBase where
  fd : Nat → EvBaseKQFileDesc := fun _ => {}
  /-- The READ and WRITE events. -/
  events : EvKQShadow.EvKQBase := {}
  /-- `defer.read_list` and `defer.write_list`. -/
  deferList : Direction → List Nat := fun _ => []
  closeLinger : Bool
  stack : List Frame := []
  /-- The last action on a DEFER_CHECK event that set or deleted it was DELETE; no function
  of the source reads it. -/
  deleted : Direction → Nat → Bool := fun _ _ => false

inductive Fault
  /-- The assertions of `EvKQBaseFDDoClose` and `EvKQBaseFDCloseJob`. -/
  | alreadyClosed | jobMismatch | notClosing
  deriving DecidableEq, Repr

abbrev M := EStateM Fault EvKQBase

namespace EvKQBase

variable (s : EvKQBase)

def setFd (fd : Nat) (f : EvBaseKQFileDesc → EvBaseKQFileDesc) : EvKQBase :=
  { s with fd := Function.update s.fd fd (f (s.fd fd)) }

def setDeferProto (direction : Direction) (fd : Nat) (f : EventPrototype → EventPrototype) :
    EvKQBase :=
  s.setFd fd fun kqFd =>
    { kqFd with
      deferCheck := Function.update kqFd.deferCheck direction (f (kqFd.deferCheck direction)) }

def push (l : List Frame) : EvKQBase := { s with stack := l ++ s.stack }

def setList (direction : Direction) (l : List Nat) : EvKQBase :=
  { s with deferList := Function.update s.deferList direction l }

def setDeleted (direction : Direction) (fd : Nat) (b : Bool) : EvKQBase :=
  { s with
    deleted := Function.update s.deleted direction (Function.update (s.deleted direction) fd b) }

/-- `EvKQBaseSetEvent` of a READ or WRITE event. -/
def setEvent (fd : Nat) (direction : Direction) (action : CommAction) (cbHandler : Option Nat)
    (cbData : Nat) : EvKQBase :=
  { s with
    events := EvKQShadow.setEvent
      { s.events with deferWrite := fun fd => (s.fd fd).defer .write } fd direction action cbHandler
      cbData }

def proto (direction : Direction) (fd : Nat) : EventPrototype := s.events.cbHandler (fd, direction)

/-- `node->next`. -/
def nodeNext (node : Node) : Option Node :=
  let l := s.deferList node.1
  if node.2 ∈ l then (l[l.idxOf node.2 + 1]?).map (node.1, ·) else none

end EvKQBase

/-- `EvKQBaseFDEventInvoke` of a READ or WRITE event. -/
def fdEventInvoke (direction : Direction) (fd : Nat) : M PUnit :=
  modify fun s =>
    let proto := s.proto direction fd
    let s := { s with events := EvKQShadow.fdEventInvoke s.events (fd, direction) }
    if proto.enabled && proto.cbHandler.isSome then s.push [.callback] else s

/-- `EvKQBaseDeferReadResetIterFlagsByKQFD` and its sibling. -/
def deferResetIterFlags (direction : Direction) (fd : Nat) : M PUnit :=
  modify fun s => s.setFd fd fun kqFd =>
    { kqFd with
      pendingBytes := Function.update kqFd.pendingBytes direction 0
      transitionSet := Function.update kqFd.transitionSet direction false
      defer := Function.update kqFd.defer direction false }

/-- `EvKQBaseDeferReadRemoveByKQFD` and `EvKQBaseDeferWriteRemoveByKQFD`. -/
def deferRemove (direction : Direction) (fd : Nat) : M PUnit := do
  let s ← get
  let kqFd := s.fd fd
  let proto := s.proto direction fd
  if !kqFd.defer direction then
    return
  set (s.setList direction ((s.deferList direction).erase fd))
  if !kqFd.closing && kqFd.transitionSet direction then
    modify fun s => s.setEvent fd direction .delete none 0
    if proto.enabled && !kqFd.closed then
      modify fun s => s.setEvent fd direction .addVolatile proto.cbHandler proto.cbData
  deferResetIterFlags direction fd
  if !kqFd.closing && !kqFd.closed && proto.enabled && kqFd.pendingBytes direction > 0 then
    modify fun s => s.push [.recheck direction fd]
    fdEventInvoke direction fd

/-- `EvKQBaseDeferReadCheckByKQFD` and `EvKQBaseDeferWriteCheckByKQFD`, up to the callback.
The READ one forgets a volatile handler, the WRITE one disables it. -/
def deferCheck (direction : Direction) (fd : Nat) (eventSz : Int) : M PUnit := do
  let s ← get
  let proto := (s.fd fd).deferCheck direction
  if !proto.enabled || proto.cbHandler.isNone then
    return
  let s :=
    if proto.persist then s
    else s.setDeferProto direction fd fun proto =>
      match direction with
      | .read => { proto with cbHandler := none, cbData := 0, enabled := false }
      | .write => { proto with enabled := false }
  set (s.push [.callback, .checked direction fd eventSz])

def deferChecked (direction : Direction) (fd : Nat) (eventSz answer : Int) : M PUnit := do
  if answer ≠ 0 then
    let s ← get
    if (s.fd fd).defer direction then
      return
    let proto := s.proto direction fd
    if !proto.persist && !(s.fd fd).transitionSet direction then
      modify fun s => s.setEvent fd direction .addTransition proto.cbHandler proto.cbData
      modify fun s => s.setFd fd fun kqFd =>
        { kqFd with transitionSet := Function.update kqFd.transitionSet direction true }
    modify fun s => s.setList direction (fd :: s.deferList direction)
    modify fun s => s.setFd fd fun kqFd =>
      { kqFd with
        pendingBytes := Function.update kqFd.pendingBytes direction eventSz
        defer := Function.update kqFd.defer direction true }
  else
    deferRemove direction fd

/-- `EvKQBaseDeferResetByKQFD`. -/
def deferReset (fd : Nat) : M PUnit :=
  modify fun s => s.setFd fd fun kqFd =>
    { kqFd with
      deferCheck := fun _ => {}, pendingBytes := fun _ => 0, transitionSet := fun _ => false
      defer := fun _ => false }

/-- What `EvKQBaseUpdateDeferCheckReadEvent` and its sibling share. -/
def updateDeferCheck (direction : Direction) (fd : Nat) (action : CommAction)
    (cbHandler : Option Nat) (cbData : Nat) : M PUnit := do
  let s ← get
  match action with
  | .addVolatile | .addPersist =>
      if cbHandler.isSome then
        let s := s.setDeferProto direction fd fun _ =>
          { cbHandler, cbData, enabled := true, persist := action = .addPersist }
        set (s.setDeleted direction fd false)
  | .delete => set ((s.setDeferProto direction fd fun _ => {}).setDeleted direction fd true)
  | .enable => set (s.setDeferProto direction fd fun proto => { proto with enabled := true })
  | .disable => set (s.setDeferProto direction fd fun proto => { proto with enabled := false })
  | .addTransition | .clear => return

/-- `EvKQBaseUpdateDeferCheckReadEvent`: "This FD is currently being DEFERED, remove". -/
def updateDeferCheckReadEvent (fd : Nat) (action : CommAction) (cbHandler : Option Nat)
    (cbData : Nat) : M PUnit := do
  updateDeferCheck .read fd action cbHandler cbData
  if action = .delete then deferRemove .read fd

/-- `EvKQBaseUpdateDeferCheckWriteEvent`. -/
def updateDeferCheckWriteEvent (fd : Nat) (action : CommAction) (cbHandler : Option Nat)
    (cbData : Nat) : M PUnit :=
  updateDeferCheck .write fd action cbHandler cbData

def setDeferCheck (direction : Direction) (fd : Nat) (action : CommAction) (cbHandler : Option Nat)
    (cbData : Nat) : M PUnit :=
  match direction with
  | .read => updateDeferCheckReadEvent fd action cbHandler cbData
  | .write => updateDeferCheckWriteEvent fd action cbHandler cbData

/-- `EvKQBaseClearEvents`, in the order of the events. -/
def clearEvents (fd : Nat) : M PUnit := do
  modify fun s => s.setEvent fd .read .delete none 0
  modify fun s => s.setEvent fd .write .delete none 0
  updateDeferCheckReadEvent fd .delete none 0
  updateDeferCheckWriteEvent fd .delete none 0

/-- `EvKQBaseFDGenericInit`. -/
def fdGenericInit (fd : Nat) : M PUnit := do
  deferReset fd
  modify fun s => s.setFd fd fun kqFd =>
    { kqFd with
      defer := fun _ => false, transitionSet := fun _ => false, active := true, closed := false
      closing := false }

/-- `EvKQBaseFDCleanupByKQFD`. -/
def fdCleanup (fd : Nat) : M PUnit := do
  clearEvents fd
  deferReset fd
  modify fun s => s.setFd fd fun kqFd =>
    { kqFd with
      defer := fun _ => false, transitionSet := fun _ => false, active := false, closing := false
      closeJobId := -1, closed := true }

/-- `EvKQBaseFDDoClose`. -/
def fdDoClose (fd : Nat) : M PUnit := do
  let s ← get
  assertThat (!(s.fd fd).closed) .alreadyClosed
  set (s.setFd fd fun kqFd => { kqFd with closeJobId := -1 })
  fdCleanup fd

/-- `EvKQBaseSocketClose`, where `EvKQJobsAdd` would answer `jobId`. -/
def socketClose (fd : Nat) (jobId : Int) : M PUnit := do
  modify fun s => s.setFd fd fun kqFd => { kqFd with closing := true }
  let s ← get
  if s.closeLinger then
    set (s.setFd fd fun kqFd => { kqFd with closeJobId := jobId })
    if jobId < 0 then
      fdDoClose fd
    else
      clearEvents fd
      deferReset fd
  else
    fdDoClose fd

/-- `EvKQBaseFDCloseJob` of the job `jobId`. -/
def fdCloseJob (fd : Nat) (jobId : Int) : M PUnit := do
  let s ← get
  assertThat ((s.fd fd).closeJobId = jobId) .jobMismatch
  assertThat (s.fd fd).closing .notClosing
  assertThat (!(s.fd fd).closed) .alreadyClosed
  fdDoClose fd

/-- A READ or WRITE event in `EvKQInvokeKQFDCallbacks`, up to the check. -/
def invokeEvent (direction : Direction) (fd : Nat) (eventSz : Int) : M PUnit := do
  let s ← get
  if (s.proto direction fd).enabled then
    set (s.push [.event direction fd])
    deferCheck direction fd eventSz

/-- The list that `EvKQBaseDeferBeginCheck` walks in a loop. -/
def listHead (s : EvKQBase) (direction : Direction) : Option Node :=
  (s.deferList direction).head?.map (direction, ·)

/-- The rest of the body of a loop of `EvKQBaseDeferBeginCheck`, after the callback. The loop
over the WRITE list goes on at the label of the other one after a removal. -/
def walkedNode (loop : Direction) (node : Node) (answer : Direction → Int) : M PUnit := do
  let s ← get
  if answer loop ≠ 0 then
    set (s.push [.walk loop (s.nodeNext node) answer])
  else
    set (s.push [.walk .read (s.nodeNext node) answer])
    deferRemove loop node.2

/-- The body up to the callback. Where there is none the last answer counts. -/
def walkNode (loop : Direction) (node : Option Node) (answer : Direction → Int) : M PUnit := do
  let s ← get
  match node, loop with
  | none, .read => set (s.push [.walk .write (listHead s .write) answer])
  | none, .write => return
  | some node, loop =>
      let proto := (s.fd node.2).deferCheck loop
      if !proto.enabled then
        set (s.push [.walk loop (s.nodeNext node) answer])
      else if proto.cbHandler.isSome then
        set (s.push [.callback, .walked loop node answer])
      else
        walkedNode loop node answer

def invokeEventEnd (direction : Direction) (fd : Nat) : M PUnit := do
  let s ← get
  if (s.fd fd).closed || (s.fd fd).closing || (s.fd fd).defer direction then
    return
  fdEventInvoke direction fd

/-! ## Steps -/

inductive Event
  /-- The program answers a callback. -/
  | ret (answer : Int)
  /-- The frame on top goes on. -/
  | step
  /-- A READ or WRITE event of `eventSz` bytes is dispatched. -/
  | invoke (direction : Direction) (fd : Nat) (eventSz : Int)
  /-- `EvKQBaseDeferBeginCheck`, where the two answers are not initialized. -/
  | beginCheck (read write : Int)
  | closeJob (fd : Nat) (jobId : Int)
  | setDeferCheck (direction : Direction) (fd : Nat) (action : CommAction) (cbHandler : Option Nat)
      (cbData : Nat)
  | setEvent (direction : Direction) (fd : Nat) (action : CommAction) (cbHandler : Option Nat)
      (cbData : Nat)
  | clearEvents (fd : Nat)
  | init (fd : Nat)
  | close (fd : Nat) (jobId : Int)
  deriving DecidableEq, Repr

def EvKQBase.calls (s : EvKQBase) : Bool :=
  match s.stack with
  | [] => true
  | .callback :: _ => true
  | _ => false

def ret (answer : Int) : M PUnit := do
  let s ← get
  match s.stack with
  | .callback :: .checked direction fd eventSz :: rest =>
      set { s with stack := rest }
      deferChecked direction fd eventSz answer
  | .callback :: .walked loop node answers :: rest =>
      set { s with stack := rest }
      walkedNode loop node (Function.update answers loop answer)
  | .callback :: rest => set { s with stack := rest }
  | _ => return

def goOn : M PUnit := do
  let s ← get
  match s.stack with
  | .recheck direction fd :: rest =>
      set { s with stack := rest }
      deferCheck direction fd 0
  | .event direction fd :: rest =>
      set { s with stack := rest }
      invokeEventEnd direction fd
  | .walk loop node answer :: rest =>
      set { s with stack := rest }
      walkNode loop node answer
  | _ => return

/-- What the loop of the base starts when nothing runs. -/
def whenIdle (x : M PUnit) : M PUnit := do
  let s ← get
  if s.stack.isEmpty then x

def whenCalls (x : M PUnit) : M PUnit := do
  let s ← get
  if s.calls then x

def handle : Event → M PUnit
  | .ret answer => ret answer
  | .step => goOn
  | .invoke direction fd eventSz => whenIdle (invokeEvent direction fd eventSz)
  | .beginCheck read write =>
      whenIdle (modify fun s => s.push [.walk .read (listHead s .read)
        fun | .read => read | .write => write])
  | .closeJob fd jobId => whenIdle (fdCloseJob fd jobId)
  | .setDeferCheck direction fd action cbHandler cbData =>
      whenCalls (setDeferCheck direction fd action cbHandler cbData)
  | .setEvent direction fd action cbHandler cbData =>
      whenCalls (modify fun s => s.setEvent fd direction action cbHandler cbData)
  | .clearEvents fd => whenCalls (clearEvents fd)
  | .init fd => whenCalls (fdGenericInit fd)
  | .close fd jobId => whenCalls (socketClose fd jobId)

/-- The steps `evs` of a new base. -/
def runFrom (closeLinger : Bool) (evs : List Event) : Runs.Config Fault EvKQBase :=
  Runs.run handle (.live { closeLinger }) evs

end EvKQDefer
