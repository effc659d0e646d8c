import BrbFramework.Lib.Kqueue
import BrbFramework.Lib.Runs
import BrbFramework.Data.MemSlot

/-!
# Timers

A timer is a slot of a pool, and the number of the slot is its identifier in the kernel.
The changes are queued and made by the next `kevent`, which also answers the events that
the loop then dispatches one after the other. The callbacks may add and delete timers,
and a slot that was released is granted again at once.

Nothing follows the callback in `EvKQBaseTimerDispatch`, so its calls are steps of their
own between two steps of the loop, as are those of the callbacks of other events. When a
timer fires is up to the kernel.
-/

namespace EvKQTimer

open Handler BrbData

/-- `COMM_ACTION_*`. -/
inductive CommAction
  | delete | addVolatile | addPersist | addTransition | enable | disable | clear
  deriving DecidableEq, Repr

structure EvBaseKQTimer where
  timerMsec : Int := 0
  timerId : Int := 0
  cbHandler : Option Nat := none
  cbData : Nat := 0
  inUse : Bool := false
  active : Bool := false
  enabled : Bool := false
  persist : Bool := false
  /-- Which of the added timers this is; no function of the source reads it. -/
  serial : Nat := 0
  deriving DecidableEq, Repr

/-- `struct kevent` of a timer, with the registration that it comes from. -/
structure KEvent where
  ident : Nat
  data : Int
  error : Bool
  tag : Nat
  deriving DecidableEq, Repr

/-- One invocation of a callback: the registrations of the event and of the timer. -/
structure Call where
  timerId : Int
  data : Int
  cbHandler : Nat
  cbData : Nat
  event : Nat
  registration : Nat
  deriving DecidableEq, Repr

structure EvKQBase where
  timer : MemSlotBase EvBaseKQTimer
  /-- `ke_chg.chg_arr`. -/
  chgArr : List (Kqueue.Change Nat Nat) := []
  kernel : Kqueue.Table Nat Nat := fun _ => none
  /-- The events of `ev_arr` that are still to be dispatched. -/
  eventArr : List KEvent := []
  timeoutMs : Int := 0
  added : Nat := 0
  log : List Call := []

inductive Fault
  | notInUse | alreadyActive | notActive | mismatch
  deriving DecidableEq, Repr

abbrev M := EStateM Fault EvKQBase

/-- `KQEV_IOLOOP_MAXINTERVAL_MS`. -/
abbrev maxIntervalMs : Int := 100

/-- `KQEV_IOLOOP_MININTERVAL_MS`. -/
abbrev minIntervalMs : Int := 3

namespace EvKQBase

variable (s : EvKQBase)

def kqTimer (x : Nat) : EvBaseKQTimer := s.timer.slotData x

def setTimer (x : Nat) (f : EvBaseKQTimer → EvBaseKQTimer) : EvKQBase :=
  { s with timer := s.timer.modifyData x f }

def table : Kqueue.Table Nat Nat := Kqueue.changes s.kernel s.chgArr

end EvKQBase

/-- `EvKQBaseTimerNewFromArena`. -/
def timerNewFromArena : M (Option Nat) := do
  let s ← get
  match s.timer.slotGrab with
  | none => return none
  | some (x, timer) =>
      set { s with timer := timer.modifyData x fun kqTimer =>
        { kqTimer with timerId := timer.slotGetID x, inUse := true } }
      return some x

/-- `EvKQBaseTimerGrabFromArena`. -/
def timerGrabFromArena (timerId : Int) : M (Option Nat) := do
  let s ← get
  if timerId < 0 then
    return none
  if (s.kqTimer timerId.toNat).inUse then return some timerId.toNat else return none

/-- `EvKQBaseTimerReleaseFromArena`. -/
def timerReleaseFromArena (x : Nat) : M PUnit :=
  modify fun s => { s with timer := (s.timer.modifyData x fun _ => {}).slotFree x }

/-- `EvKQBaseEnqueueTimerChg` of the actions that it knows. -/
def enqueueTimerChg (timerId : Int) (action : Kqueue.Action Nat) : M PUnit :=
  modify fun s => { s with chgArr := s.chgArr ++ [{ ident := timerId.toNat, action }] }

/-- `EvKQBaseAdjustIOLoopTimeout`. -/
def adjustIOLoopTimeout (intervalMs : Int) : M PUnit :=
  modify fun s => { s with timeoutMs := min (max intervalMs minIntervalMs) maxIntervalMs }

/-- `EvKQBaseTimerAdd`. -/
def timerAdd (action : CommAction) (intervalMs : Int) (cbHandler : Option Nat) (cbData : Nat) :
    M Int := do
  if cbHandler.isNone ∨ intervalMs < 0 then
    return -1
  if action ≠ .addVolatile ∧ action ≠ .addPersist then
    return -1
  match ← timerNewFromArena with
  | none => return -1
  | some x =>
      let s ← get
      assertThat (s.kqTimer x).inUse .notInUse
      assertThat (!(s.kqTimer x).active) .alreadyActive
      set { s.setTimer x fun kqTimer =>
        { kqTimer with
          cbHandler := cbHandler, cbData := cbData, timerMsec := intervalMs, active := true
          enabled := true, persist := action ≠ .addVolatile, serial := s.added } with
        added := s.added + 1 }
      enqueueTimerChg (s.kqTimer x).timerId (.add s.added (action = .addVolatile))
      adjustIOLoopTimeout intervalMs
      return (s.kqTimer x).timerId

/-- `EvKQBaseTimerCtl`. -/
def timerCtl (timerId : Int) (action : CommAction) : M PUnit := do
  if timerId < 0 then
    return
  match ← timerGrabFromArena timerId with
  | none => return
  | some x =>
      let s ← get
      assertThat (s.kqTimer x).inUse .notInUse
      assertThat (s.kqTimer x).active .notActive
      assertThat (timerId = (s.kqTimer x).timerId) .mismatch
      match action with
      | .disable =>
          if (s.kqTimer x).enabled then
            enqueueTimerChg timerId .disable
            modify fun s => s.setTimer x fun kqTimer => { kqTimer with enabled := false }
      | .enable =>
          if !(s.kqTimer x).enabled then
            enqueueTimerChg timerId .enable
            adjustIOLoopTimeout (s.kqTimer x).timerMsec
            modify fun s => s.setTimer x fun kqTimer => { kqTimer with enabled := true }
      | .delete =>
          enqueueTimerChg timerId .delete
          timerReleaseFromArena x
      | _ => return

/-- `EvKQBaseTimerDispatch` for an event of the registration `tag`. -/
def timerDispatch (timerId : Int) (intData : Int) (tag : Nat) : M PUnit := do
  match ← timerGrabFromArena timerId with
  | none => return
  | some x =>
      let s ← get
      let kqTimer := s.kqTimer x
      if !kqTimer.active || !kqTimer.enabled then
        return
      if !kqTimer.persist then
        timerReleaseFromArena x
      match kqTimer.cbHandler with
      | none => return
      | some cbHandler =>
          modify fun s => { s with log := s.log ++
            [{ timerId, data := intData, cbHandler, cbData := kqTimer.cbData, event := tag
               registration := kqTimer.serial }] }

/-- `EvKQBaseKEventInvoke`: the kernel makes the changes, answers an error for each that it
refuses, and the events of the filters that fire. -/
def keventInvoke (fired : List Nat) (data : Nat → Int) : M PUnit :=
  modify fun s =>
    { s with
      chgArr := []
      kernel := (Kqueue.collect s.table fired).2
      eventArr :=
        (Kqueue.refused s.kernel s.chgArr).map
          (fun c => { ident := c.ident, data := 2, error := true, tag := 0 }) ++
        (Kqueue.collect s.table fired).1.map
          (fun e => { ident := e.1, data := data e.1, error := false, tag := e.2 }) }

/-- The next turn of the loop of `EvKQInvokeKQFDCallbacks`. -/
def invokeCallbacks : M PUnit := do
  let s ← get
  match s.eventArr with
  | [] => return
  | event :: rest =>
      set { s with eventArr := rest }
      if event.error then
        return
      timerDispatch event.ident event.data event.tag

inductive Event
  | add (action : CommAction) (intervalMs : Int) (cbHandler : Option Nat) (cbData : Nat)
  | ctl (timerId : Int) (action : CommAction)
  /-- The loop calls `kevent` when it has dispatched all the events. -/
  | kevent (fired : List Nat) (data : Nat → Int)
  | dispatch

def handle : Event → M PUnit
  | .add action intervalMs cbHandler cbData => do
      let _ ← timerAdd action intervalMs cbHandler cbData
  | .ctl timerId action => timerCtl timerId action
  | .kevent fired data => do
      let s ← get
      if s.eventArr.isEmpty then keventInvoke fired data
  | .dispatch => invokeCallbacks

/-- `EvKQBaseTimerArenaNew`. -/
def new (timerMax : Nat) : EvKQBase := { timer := .init {} timerMax }

/-- The steps `evs` of a new base. -/
def runFrom (timerMax : Nat) (evs : List Event) : Runs.Config Fault EvKQBase :=
  Runs.run handle (.live (new timerMax)) evs

end EvKQTimer
