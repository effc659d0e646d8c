import BrbFramework.Lib.Runs
import BrbFramework.Data.MemSlot
import BrbFramework.Event.TimedJobs

/-!
# Queued jobs

A job is a slot of a pool. At the begin of each turn of the event loop the jobs of one
list are walked; a job whose turn has come runs, and a volatile one is then released. The
walk remembers the next node before it invokes the callback, and it goes on to use the
job's slot after it.

A callback is the steps between a `turn` that invokes it and the `ret` that ends it: it may
add, delete, enable and disable jobs, but nothing else of the program runs between the
turns of the walk. The memory of a released slot stays what it is, all zero, as long as it
is not granted again; that a block of the arena is given back with its last slot is left
out.
-/

namespace EvKQJobs

open Handler BrbData

/-- `EvBaseKQJobCode`. -/
inductive JobAction
  | delete | addVolatile | addPersist | enable | disable | lastItem
  deriving DecidableEq, Repr

structure EvKQQueuedJob where
  cbFunc : Nat := 0
  cbData : Nat := 0
  id : Nat := 0
  targetDay : Int := 0
  invokeDay : Int := 0
  mask : Int := 0
  ioloopTarget : Int := 0
  ioloopCur : Int := 0
  active : Bool := false
  enabled : Bool := false
  persist : Bool := false
  canceled : Bool := false
  jobIoloop : Bool := false
  jobTimed : Bool := false
  /-- Which of the registrations this is; no function of the source reads it. -/
  serial : Nat := 0
  deriving DecidableEq, Repr

/-- `JOB_TYPE_IOLOOP`. -/
abbrev ioloop : Nat := 0

/-- `JOB_TYPE_TIMED`. -/
abbrev timed : Nat := 1

/-- Where `EvKQJobsDispatch` is. -/
inductive Walk
  | idle
  /-- About to look at a node. -/
  | next (node : Option Nat)
  /-- In the callback of a job, whose registration it was, with the next node. -/
  | calling (job serial : Nat) (node : Option Nat)
  deriving DecidableEq, Repr

inductive Obs
  | ran (n : Nat)
  /-- The dispatcher uses the slot that it took for this registration. -/
  | touched (n : Nat)
  | freed (n : Nat)
  deriving DecidableEq, Repr

structure EvKQBase where
  memslot : MemSlotBase EvKQQueuedJob
  walk : Walk := .idle
  added : Nat := 0
  /-- The registrations that ran in the last dispatch. -/
  ranNow : List Nat := []
  log : List Obs := []

inductive Fault
  /-- `assert(kq_job->flags.active)` of `EvKQJobsDispatch`. -/
  | notActive
  /-- `assert(!kq_job->flags.active)` of `EvKQJobsAddInternal`. -/
  | slotActive
  /-- The assertion of `MemArenaReleaseByID` that the slot is in use. -/
  | notBusy
  /-- The assertions of `EvKQJobsCtl`. -/
  | ctlNotActive | ctlAction
  deriving DecidableEq, Repr

abbrev M := EStateM Fault EvKQBase

namespace EvKQBase

variable (s : EvKQBase)

def job (x : Nat) : EvKQQueuedJob := s.memslot.slotData x

def setJob (x : Nat) (f : EvKQQueuedJob → EvKQQueuedJob) : EvKQBase :=
  { s with memslot := s.memslot.modifyData x f }

def note (l : List Obs) : EvKQBase := { s with log := s.log ++ l }

def linked (x : Nat) : Bool := x ∈ s.memslot.list ioloop ∨ x ∈ s.memslot.list timed

/-- `node->next` of the node of a slot. -/
def nodeNext (x : Nat) : Option Nat :=
  let l := s.memslot.list ((s.memslot.arena x).curListId)
  if x ∈ l then l[l.idxOf x + 1]? else none

end EvKQBase

/-- `EvKQJobsAddInternal`, where a timed job has a weekday and a time. -/
def jobsAddInternal (action : JobAction) (time : Option (Int × Int × Int)) (ioloopCount : Int)
    (cbFunc cbData : Nat) : M (Option Nat) := do
  let s ← get
  match s.memslot.slotGrab with
  | none => return none
  | some (x, memslot) =>
      assertThat (!(memslot.slotData x).active) .slotActive
      let kqJob : EvKQQueuedJob :=
        { id := memslot.slotGetID x, ioloopTarget := ioloopCount, invokeDay := -1, cbFunc, cbData
          persist := action = .addPersist, active := true, enabled := true, serial := s.added }
      match time with
      | some (hour, min, sec) =>
          match Timed.timedParse hour min sec with
          | none =>
              set { s with memslot := (memslot.modifyData x fun _ => {}).slotFree x }
              return none
          | some mask =>
              set { s with
                memslot := (memslot.slotListIDSwitch x timed).modifyData x fun _ =>
                  { kqJob with mask, jobTimed := true }
                added := s.added + 1 }
              return some x
      | none =>
          set { s with
            memslot := memslot.modifyData x fun _ => { kqJob with jobIoloop := true }
            added := s.added + 1 }
          return some x

/-- `EvKQJobsAdd`. -/
def jobsAdd (action : JobAction) (ioloopCount : Int) (cbFunc : Option Nat) (cbData : Nat) :
    M Int := do
  match cbFunc with
  | none => return -1
  | some cbFunc =>
      if ioloopCount < 0 then
        return -1
      if action ≠ .addVolatile ∧ action ≠ .addPersist then
        return -1
      match ← jobsAddInternal action none ioloopCount cbFunc cbData with
      | none => return -1
      | some x => return x

/-- `EvKQJobsAddTimed` of a time of three numbers. -/
def jobsAddTimed (action : JobAction) (day : Int) (time : Option (Int × Int × Int))
    (cbFunc : Option Nat) (cbData : Nat) : M Int := do
  match cbFunc, time with
  | some cbFunc, some time =>
      if day > 9 then
        return -1
      if action ≠ .addVolatile ∧ action ≠ .addPersist then
        return -1
      match ← jobsAddInternal action (some time) (-1) cbFunc cbData with
      | none => return -1
      | some x =>
          modify fun s => s.setJob x fun kqJob => { kqJob with targetDay := day }
          return x
  | _, _ => return -1

/-- `memset` and `MemSlotBaseSlotFree`, up to the assertion that the slot was in use. -/
def releaseJob (x : Nat) : M PUnit := do
  let s ← get
  assertThat (s.linked x) .notBusy
  set { s.note [.freed (s.job x).serial] with
    memslot := (s.memslot.modifyData x fun _ => {}).slotFree x }

/-- `EvKQJobsCtl`. -/
def jobsCtl (action : JobAction) (kqJobId : Int) : M PUnit := do
  if kqJobId < 0 then
    return
  let x := kqJobId.toNat
  let s ← get
  assertThat (s.job x).active .ctlNotActive
  match action with
  | .delete => releaseJob x
  | .enable => set (s.setJob x fun kqJob => { kqJob with enabled := true })
  | .disable => set (s.setJob x fun kqJob => { kqJob with enabled := false })
  | _ => throw .ctlAction

/-- The begin of `EvKQJobsDispatch`. -/
def jobsDispatch : M PUnit := do
  let s ← get
  if !s.memslot.isEmptyList ioloop then
    set { s with walk := .next (s.memslot.list ioloop).head?, ranNow := [] }

/-- What `EvKQJobsDispatch` does with a job after its callback. -/
def finishJob (x serial : Nat) (node : Option Nat) : M PUnit := do
  modify fun s => { s.note [.touched serial] with walk := .next node }
  let s ← get
  if !(s.job x).persist then
    releaseJob x
  else
    set (s.setJob x fun kqJob => { kqJob with ioloopCur := 0 })

/-- The next turn of the loop of `EvKQJobsDispatch`, up to a callback. -/
def dispatchNode : Option Nat → M PUnit
  | none => modify fun s => { s with walk := .idle }
  | some x => do
      let s ← get
      let kqJob := s.job x
      let node := s.nodeNext x
      assertThat kqJob.active .notActive
      if !kqJob.enabled then
        set { s with walk := .next node }
      else if kqJob.ioloopCur ≥ kqJob.ioloopTarget then
        if !kqJob.canceled then
          set { s.note [.touched kqJob.serial, .ran kqJob.serial] with
            walk := .calling x kqJob.serial node, ranNow := s.ranNow ++ [kqJob.serial] }
        else finishJob x kqJob.serial node
      else
        set { s.setJob x fun kqJob => { kqJob with ioloopCur := kqJob.ioloopCur + 1 } with
          walk := .next node }

inductive Event
  | dispatch
  | turn
  /-- A callback returns. -/
  | ret
  | add (action : JobAction) (ioloopCount : Int) (cbFunc : Option Nat) (cbData : Nat)
  | addTimed (action : JobAction) (day : Int) (time : Option (Int × Int × Int))
      (cbFunc : Option Nat) (cbData : Nat)
  | ctl (action : JobAction) (kqJobId : Int)
  deriving DecidableEq, Repr

/-- The program runs, and not the loop of the dispatcher. -/
def EvKQBase.userRuns (s : EvKQBase) : Bool :=
  match s.walk with
  | .next _ => false
  | _ => true

def handle : Event → M PUnit
  | .dispatch => do
      let s ← get
      if s.walk = .idle then jobsDispatch
  | .turn => do
      let s ← get
      match s.walk with
      | .next node => dispatchNode node
      | _ => return
  | .ret => do
      let s ← get
      match s.walk with
      | .calling x serial node => finishJob x serial node
      | _ => return
  | .add action ioloopCount cbFunc cbData => do
      let s ← get
      if s.userRuns then
        let _ ← jobsAdd action ioloopCount cbFunc cbData
  | .addTimed action day time cbFunc cbData => do
      let s ← get
      if s.userRuns then
        let _ ← jobsAddTimed action day time cbFunc cbData
  | .ctl action kqJobId => do
      let s ← get
      if s.userRuns then jobsCtl action kqJobId

/-- `EvKQJobsEngineInit`. -/
def new (maxJobCount : Nat) : EvKQBase := { memslot := .init {} (maxJobCount + 1) }

/-- The steps `evs` of a new base. -/
def runFrom (maxJobCount : Nat) (evs : List Event) : Runs.Config Fault EvKQBase :=
  Runs.run handle (.live (new maxJobCount)) evs

end EvKQJobs
