import BrbFramework.Event.Timers

/-!
# Timeouts of descriptors

A descriptor has a slot for each kind of timeout. An armed slot holds the identifier
of a volatile timer, whose callback finds the slot again by that identifier. READ
and WRITE events disarm the timeouts that wait for them before they run.

A descriptor that is not active is initialized whenever it is looked up.
-/

namespace EvKQTimeout

open Handler

/-- `KQ_CB_TIMEOUT_READ`, `KQ_CB_TIMEOUT_WRITE` and `KQ_CB_TIMEOUT_BOTH`; the events
`COMM_EV_TIMEOUT_*` have the same numbers. -/
abbrev timeoutRead : Nat := 0
abbrev timeoutWrite : Nat := 1
abbrev timeoutBoth : Nat := 2

/-- `KQ_CB_TIMEOUT_LASTITEM`. -/
abbrev timeoutLastItem : Nat := 3

/-- `KQ_CB_HANDLER_*`, as far as they differ for the timeouts. -/
inductive EvCode
  | read | write | other (evCode : Nat)
  deriving DecidableEq, Repr

structure EvBaseKQGenericEventPrototype where
  cbHandler : Option Nat := none
  persist : Bool := false
  enabled : Bool := false
  deriving DecidableEq, Repr

structure EvBaseKQGenericTimeoutPrototype where
  cbHandler : Option Nat := none
  cbData : Nat := 0
  whenTs : Int := -1
  timeoutMs : Int := -1
  timerId : Int := -1
  deriving DecidableEq, Repr

structure EvBaseKQFileDesc where
  cbHandler : EvCode → EvBaseKQGenericEventPrototype := fun _ => {}
  timeout : Nat → EvBaseKQGenericTimeoutPrototype := fun _ => {}
  active : Bool := false

structure Call where
  fd : Nat
  timeoutType : Nat
  cbHandler : Nat
  cbData : Nat
  deriving DecidableEq, Repr

structure EvKQBase where
  timers : EvKQTimer.EvKQBase
  /-- The arena of descriptors. -/
  fds : Nat → EvBaseKQFileDesc := fun _ => {}
  /-- `stats.cur_invoke_ts_sec`. -/
  curInvokeTsSec : Int := 0
  log : List Call := []

abbrev M := EStateM EvKQTimer.Fault EvKQBase

/-- The number that stands for `EvKQBaseTimeoutInternalEvent` among the callbacks of the
timers. -/
abbrev timeoutInternal : Nat := 0

namespace EvKQBase

variable (s : EvKQBase)

def timerId (fd timeoutType : Nat) : Int := ((s.fds fd).timeout timeoutType).timerId

def setFd (fd : Nat) (f : EvBaseKQFileDesc → EvBaseKQFileDesc) : EvKQBase :=
  { s with fds := Function.update s.fds fd (f (s.fds fd)) }

def setTimeout (fd timeoutType : Nat)
    (f : EvBaseKQGenericTimeoutPrototype → EvBaseKQGenericTimeoutPrototype) : EvKQBase :=
  s.setFd fd fun kqFd =>
    { kqFd with timeout := Function.update kqFd.timeout timeoutType (f (kqFd.timeout timeoutType)) }

end EvKQBase

def timers {α : Type} (x : EvKQTimer.M α) : M α :=
  within EvKQBase.timers (fun s t => { s with timers := t }) x

/-- `EvKQBaseFDGrabFromArena`, which does not mark the descriptor as active. -/
def fdGrabFromArena (fd : Nat) : M PUnit :=
  modify fun s =>
    if (s.fds fd).active then s
    else s.setFd fd fun kqFd =>
      { kqFd with timeout := fun i => if i < timeoutLastItem then {} else kqFd.timeout i }

/-- `EvKQBaseTimeoutSet`. -/
def timeoutSet (fd : Int) (timeoutType : Nat) (timeoutMs : Int) (cbHandler : Option Nat)
    (cbData : Nat) : M PUnit := do
  if fd < 0 then
    return
  if timeoutType ≥ timeoutLastItem then
    return
  let s ← get
  let localCurInvokeTs := s.curInvokeTsSec
  let fd := fd.toNat
  fdGrabFromArena fd
  let s ← get
  if s.timerId fd timeoutType > -1 then
    return
  match cbHandler with
  | some cbHandler =>
      modify fun s => s.setTimeout fd timeoutType fun timeout =>
        { timeout with
          cbHandler := some cbHandler, cbData := cbData
          whenTs := localCurInvokeTs + timeoutMs * 1000, timeoutMs := timeoutMs }
      let timerId ← timers (EvKQTimer.timerAdd .addVolatile timeoutMs (some timeoutInternal) fd)
      modify fun s => s.setTimeout fd timeoutType fun timeout => { timeout with timerId := timerId }
  | none =>
      if s.timerId fd timeoutType > -1 then
        timers (EvKQTimer.timerCtl (s.timerId fd timeoutType) .delete)
      modify fun s => s.setTimeout fd timeoutType fun _ => { cbData := cbData }

/-- `EvKQBaseTimeoutClearByKQFD`. -/
def timeoutClearByKQFD (fd timeoutType : Nat) : M Bool := do
  if timeoutType ≥ timeoutLastItem then
    return false
  let s ← get
  if s.timerId fd timeoutType < 0 then
    return false
  timers (EvKQTimer.timerCtl (s.timerId fd timeoutType) .delete)
  modify fun s => s.setTimeout fd timeoutType fun _ => {}
  return true

/-- `EvKQBaseTimeoutClear`. -/
def timeoutClear (fd : Int) (timeoutType : Nat) : M Bool := do
  if fd < 0 then
    return false
  if timeoutType ≥ timeoutLastItem then
    return false
  fdGrabFromArena fd.toNat
  timeoutClearByKQFD fd.toNat timeoutType

/-- `EvKQBaseTimeoutClearAll`. -/
def timeoutClearAll (fd : Int) : M Bool := do
  if fd < 0 then
    return false
  let _ ← timeoutClear fd timeoutRead
  let _ ← timeoutClear fd timeoutWrite
  let _ ← timeoutClear fd timeoutBoth
  return true

/-- `EvKQBaseTimeoutInternalEvent`. -/
def timeoutInternalEvent (timerId : Int) (fd : Nat) : M PUnit := do
  let s ← get
  match (List.range timeoutLastItem).find? fun i => s.timerId fd i == timerId with
  | none => return
  | some timeoutType =>
      let timeout := (s.fds fd).timeout timeoutType
      modify fun s => s.setTimeout fd timeoutType fun _ => {}
      match timeout.cbHandler with
      | none => return
      | some cbHandler =>
          modify fun s => { s with log := s.log ++
            [{ fd, timeoutType, cbHandler, cbData := timeout.cbData }] }

/-- `EvKQBaseFDEventInvoke`, up to the callback. -/
def fdEventInvoke (fd : Nat) (evCode : EvCode) : M PUnit := do
  let s ← get
  let evProto := (s.fds fd).cbHandler evCode
  if !evProto.enabled then
    return
  if evProto.cbHandler.isNone then
    return
  if !evProto.persist then
    modify fun s => s.setFd fd fun kqFd =>
      { kqFd with cbHandler :=
          Function.update kqFd.cbHandler evCode { evProto with enabled := false } }
  match evCode with
  | .write =>
      let _ ← timeoutClearByKQFD fd timeoutWrite
      let _ ← timeoutClearByKQFD fd timeoutBoth
  | .read =>
      let _ ← timeoutClearByKQFD fd timeoutRead
      let _ ← timeoutClearByKQFD fd timeoutBoth
  | .other _ => return

/-- The next turn of the loop of `EvKQInvokeKQFDCallbacks` for a timer, and the callback
that it invokes. -/
def invokeCallbacks : M PUnit := do
  let s ← get
  timers EvKQTimer.invokeCallbacks
  let t ← get
  match t.timers.log[s.timers.log.length]? with
  | none => return
  | some call => timeoutInternalEvent call.timerId call.cbData

/-- `EvKQBaseFDGenericInit`. -/
def fdGenericInit (fd : Int) : M PUnit := do
  if fd < 0 then
    return
  fdGrabFromArena fd.toNat
  modify fun s => s.setFd fd.toNat fun kqFd => { kqFd with active := true }

/-- `EvKQBaseFDCleanupByKQFD`. -/
def fdCleanup (fd : Nat) : M PUnit := do
  let _ ← timeoutClearAll fd
  modify fun s => s.setFd fd fun kqFd =>
    { kqFd with active := false, cbHandler := fun _ => {} }

inductive Event
  | fdInit (fd : Int)
  | fdCleanup (fd : Nat)
  /-- What a call of `EvKQBaseSetEvent` leaves of a handler. -/
  | setEvent (fd : Nat) (evCode : EvCode) (evProto : EvBaseKQGenericEventPrototype)
  | timeoutSet (fd : Int) (timeoutType : Nat) (timeoutMs : Int) (cbHandler : Option Nat)
      (cbData : Nat)
  | timeoutClear (fd : Int) (timeoutType : Nat)
  | timeoutClearAll (fd : Int)
  /-- An event of a descriptor, which the loop looks up before. -/
  | fdEvent (fd : Nat) (evCode : EvCode)
  | kevent (curInvokeTsSec : Int) (fired : List Nat) (data : Nat → Int)
  | dispatch

def handle : Event → M PUnit
  | .fdInit fd => fdGenericInit fd
  | .fdCleanup fd => fdCleanup fd
  | .setEvent fd evCode evProto => do
      fdGrabFromArena fd
      modify fun s => s.setFd fd fun kqFd =>
        { kqFd with cbHandler := Function.update kqFd.cbHandler evCode evProto }
  | .timeoutSet fd timeoutType timeoutMs cbHandler cbData =>
      timeoutSet fd timeoutType timeoutMs cbHandler cbData
  | .timeoutClear fd timeoutType => do
      let _ ← timeoutClear fd timeoutType
  | .timeoutClearAll fd => do
      let _ ← timeoutClearAll fd
  | .fdEvent fd evCode => do
      fdGrabFromArena fd
      fdEventInvoke fd evCode
  | .kevent curInvokeTsSec fired data => do
      modify fun s => { s with curInvokeTsSec := curInvokeTsSec }
      timers (EvKQTimer.handle (.kevent fired data))
  | .dispatch => invokeCallbacks

def new (timerMax : Nat) : EvKQBase := { timers := EvKQTimer.new timerMax }

/-- The steps `evs` of a new base. -/
def runFrom (timerMax : Nat) (evs : List Event) : Runs.Config EvKQTimer.Fault EvKQBase :=
  Runs.run handle (.live (new timerMax)) evs

end EvKQTimeout
