import BrbFramework.Lib.Runs
import BrbFramework.Data.MemSlot

/-!
# Thread pools

Jobs are slots of a pool that is shared by the threads that enqueue them, the workers
that run them and the threads that consume the replies. A job moves from the PENDING
list to the WORKING list to the DONE list, each time in a section under the mutex of
the slot pool. The workers wait for jobs on a condition of another mutex.

One step of a thread is one section under the slot pool's mutex, one wait or signal, or
one access outside of the sections: a worker that found no job has the condition's
mutex, but it is another step that waits. A run is a list of steps in any order; a step
of a thread that cannot go on does nothing.

Shutting the pool down is left out, as are the copies of the caller's data and the times
that are stored in a job.
-/

namespace ThreadPool

open Handler BrbData MemSlotBase

/-- `ThreadJobReturnValueTypes`. -/
inductive RetValType
  | none | int | long | ptr | float
  deriving DecidableEq, Repr

/-- `ThreadPoolJobProto`. -/
structure JobProto where
  retValType : RetValType
  /-- There is a `job_finish_cbh_ptr`. -/
  finishCbh : Bool
  deriving DecidableEq, Repr

structure ThreadPoolInstanceJob where
  retValType : RetValType := .none
  finishCbh : Bool := false
  inUse : Bool := false
  cancelled : Bool := false
  finished : Bool := false
  runThreadId : Nat := 0
  /-- Which of the accepted jobs this is; no function of the source reads it. -/
  serial : Nat := 0
  deriving DecidableEq, Repr

/-- `THREAD_LIST_JOB_PENDING`. -/
abbrev pending : Nat := 0

/-- `THREAD_LIST_JOB_WORKING`. -/
abbrev working : Nat := 1

/-- `THREAD_LIST_JOB_DONE`. -/
abbrev done : Nat := 2

/-- Where a worker is in `ThreadPoolInstanceMainLoop`. -/
inductive Worker
  /-- Not launched. -/
  | absent
  | starting
  /-- About to lock the condition's mutex. -/
  | free
  /-- It has the mutex and found the PENDING list empty. -/
  | sawEmpty
  /-- It has the mutex and found a job. -/
  | sawJob
  /-- In `pthread_cond_wait`. -/
  | waiting
  /-- Woken up, but without the mutex. -/
  | woken
  | took (job : Nat)
  | running (job : Nat)
  /-- The function returned a value. -/
  | returned (job : Nat)
  /-- The flags of the job are set, and it is about to join the DONE list. -/
  | switching (job : Nat)
  /-- In `ThreadPoolInstanceNotifyFinish` for the job that had this serial. -/
  | notifying (job : Nat) (serial : Nat)
  | cleanUp (job : Nat)
  /-- The flags of the job are set, and its slot is about to be released. -/
  | freeing (job : Nat)
  | ready
  deriving DecidableEq, Repr

/-- Where a thread is in `ThreadPoolJobConsumeReplies`. -/
inductive Consumer
  | idle
  /-- It points to the head of the DONE list. -/
  | pointing (job : Nat)
  /-- About to invoke the finish callback. -/
  | calling (job : Nat)
  | freeing (job : Nat)
  deriving DecidableEq, Repr

/-- What happens to the jobs, each with its serial. -/
inductive Obs
  | accepted (n : Nat)
  | cancelled (n : Nat)
  /-- The function of the job is run. -/
  | ran (n : Nat)
  /-- A worker reads or writes the slot. -/
  | touched (n : Nat)
  /-- The job is on the DONE list. -/
  | done (n : Nat)
  /-- The finish callback is invoked. -/
  | finish (n : Nat)
  /-- The slot is back in the queue of free slots. -/
  | freed (n : Nat)
  deriving DecidableEq, Repr

structure ThreadPoolBase where
  jobs : MemSlotBase ThreadPoolInstanceJob
  worker : Nat → Worker
  workerCount : Nat
  /-- The worker that has the mutex of the condition. -/
  condMutex : Option Nat := none
  /-- The threads that have enqueued a job and are about to signal the condition. -/
  signals : Nat := 0
  consumer : Nat → Consumer := fun _ => .idle
  consumerCount : Nat
  workerCountGrow : Nat
  workerCountMax : Nat
  /-- There is an event base, and `kevent_finish_notify` is set. -/
  finishNotify : Bool
  accepted : Nat := 0
  log : List Obs := []

structure ThreadPoolBaseConfig where
  workerCountStart : Nat := 1
  workerCountGrow : Nat := 1
  workerCountMax : Nat := 1
  jobMaxCount : Nat := 4096
  finishNotify : Bool
  /-- How many threads consume replies. -/
  consumerCount : Nat := 1

inductive Fault
  /-- `assert(!thread_job->flags.in_use)` of `ThreadPoolJobEnqueue`. -/
  | slotInUse
  /-- `assert(thread_job)` and `assert(thread_job->flags.in_use)` of a worker. -/
  | noJob
  | jobNotInUse
  /-- The assertions of `ThreadPoolJobConsumeReplies`. -/
  | jobNotFinished
  deriving DecidableEq, Repr

abbrev M := EStateM Fault ThreadPoolBase

variable (s : ThreadPoolBase)

namespace ThreadPoolBase

def job (x : Nat) : ThreadPoolInstanceJob := s.jobs.slotData x

def setWorker (w : Nat) (state : Worker) : ThreadPoolBase :=
  { s with worker := Function.update s.worker w state }

def setConsumer (k : Nat) (state : Consumer) : ThreadPoolBase :=
  { s with consumer := Function.update s.consumer k state }

def setJob (x : Nat) (f : ThreadPoolInstanceJob → ThreadPoolInstanceJob) : ThreadPoolBase :=
  { s with jobs := s.jobs.modifyData x f }

def note (l : List Obs) : ThreadPoolBase := { s with log := s.log ++ l }

variable {s} {w v : Nat} {state : Worker}

@[simp] theorem worker_setWorker_self : (s.setWorker w state).worker w = state :=
  Function.update_self ..

theorem worker_setWorker_of_ne (h : v ≠ w) : (s.setWorker w state).worker v = s.worker v :=
  Function.update_of_ne h ..

end ThreadPoolBase

/-- `pthread_create` for the workers from `s.workerCount` on, as far as there are slots. -/
def threadsLauch (count : Nat) : ThreadPoolBase :=
  let total := min (s.workerCount + count) (s.workerCountMax + 1)
  { s with
    worker := fun w => if s.workerCount ≤ w ∧ w < total then .starting else s.worker w
    workerCount := max s.workerCount total }

/-- `ThreadPoolBaseNew`. -/
def new (conf : ThreadPoolBaseConfig) : ThreadPoolBase :=
  threadsLauch
    { jobs := .init {} (conf.jobMaxCount + 1)
      worker := fun _ => .absent
      workerCount := 0
      consumerCount := conf.consumerCount
      workerCountGrow := conf.workerCountGrow
      workerCountMax := conf.workerCountMax
      finishNotify := conf.finishNotify }
    conf.workerCountStart

/-- `THREAD_INSTANCE_STATE_FREE`. -/
def Worker.isFree : Worker → Bool
  | free | sawEmpty | sawJob | waiting | woken | took _ => true
  | _ => false

/-- `ThreadPoolAllBusy`. -/
def allBusy : Bool := (List.range s.workerCount).all fun w => !(s.worker w).isFree

/-- `ThreadPoolBaseThreadsGrowIfNeeded`. -/
def threadsGrowIfNeeded : M PUnit := do
  let s ← get
  if s.workerCount ≥ s.workerCountMax then
    return
  if allBusy s then
    modify fun s => threadsLauch s s.workerCountGrow

/-- The section of `ThreadPoolJobEnqueue`. -/
def jobEnqueue (proto : JobProto) : M PUnit := do
  let s ← get
  match s.jobs.slotGrab with
  | none => return
  | some (x, jobs) =>
      assertThat (!(jobs.slotData x).inUse) .slotInUse
      set { s with
        jobs := jobs.modifyData x fun _ =>
          { retValType := proto.retValType, finishCbh := proto.finishCbh, inUse := true
            serial := s.accepted }
        signals := s.signals + 1
        accepted := s.accepted + 1
        log := s.log ++ [Obs.accepted s.accepted] }

/-- `pthread_cond_signal`: wakes the worker `w`, or nobody if nobody waits. -/
def condSignal (w : Nat) : M PUnit := do
  let s ← get
  if s.signals = 0 then
    return
  if s.worker w = .waiting ∧ w < s.workerCount then
    set { s.setWorker w .woken with signals := s.signals - 1 }
  else if ∀ v < s.workerCount, s.worker v ≠ .waiting then
    set { s with signals := s.signals - 1 }

/-- A worker that `pthread_cond_wait` wakes up without a signal. -/
def wakeUp (w : Nat) : M PUnit := do
  let s ← get
  if s.worker w = .waiting then
    set (s.setWorker w .woken)

def linked (x : Nat) : Bool :=
  x ∈ s.jobs.list pending ∨ x ∈ s.jobs.list working ∨ x ∈ s.jobs.list done

/-- `ThreadPoolJobCancel`. -/
def jobCancel (x : Nat) : M PUnit := do
  let s ← get
  let s := s.note (if linked s x then [.cancelled (s.job x).serial] else [])
  set (s.setJob x fun job => { job with cancelled := true })

/-- The section under the condition's mutex up to the test of the PENDING list. -/
def condLock (w : Nat) : M PUnit := do
  let s ← get
  if s.condMutex.isNone then
    let state := if s.jobs.isEmptyList pending then Worker.sawEmpty else .sawJob
    set { s.setWorker w state with condMutex := some w }

/-- `MemSlotBaseSlotPointToHeadAndSwitchListID` and the release of the condition's mutex. -/
def takeJob (w : Nat) : M PUnit := do
  let s ← get
  match s.jobs.slotPointToHeadAndSwitchListID pending working with
  | none => throw .noJob
  | some (x, jobs) =>
      set { s.setWorker w (.took x) with jobs := jobs, condMutex := none }

/-- The tests before the function of a job is run. -/
def beginJob (w x : Nat) : M PUnit := do
  let s ← get
  assertThat (s.job x).inUse .jobNotInUse
  let s := s.note [.touched (s.job x).serial]
  if (s.job x).cancelled then
    set (s.setWorker w (.cleanUp x))
  else
    set ((s.setWorker w (.running x)).setJob x fun job => { job with runThreadId := w })

def runJob (w x : Nat) : M PUnit := do
  let s ← get
  let s := s.note [.ran (s.job x).serial, .touched (s.job x).serial]
  set (s.setWorker w (if (s.job x).retValType = .none then .cleanUp x else .returned x))

def markJob (w x : Nat) (next : Worker) : M PUnit := do
  let s ← get
  let s := s.note [.touched (s.job x).serial]
  set ((s.setWorker w next).setJob x fun job => { job with inUse := false, finished := true })

/-- `MemSlotBaseSlotListIDSwitchToTail` into the DONE list. -/
def switchDone (w x : Nat) : M PUnit := do
  let s ← get
  let serial := (s.job x).serial
  let next := if s.finishNotify then Worker.notifying x serial else .ready
  set { (s.setWorker w next).note [.done serial] with
    jobs := s.jobs.slotListIDSwitchToTail x done }

/-- `ThreadPoolInstanceNotifyFinish` reads `job_id` and `run_thread_id`. -/
def notifyFinish (w serial : Nat) : M PUnit :=
  modify fun s => (s.setWorker w .ready).note [.touched serial]

/-- `MemSlotBaseSlotFree`. -/
def freeJob (x : Nat) : M PUnit :=
  modify fun s => { s.note [.freed (s.job x).serial] with jobs := s.jobs.slotFree x }

/-- The next step of the worker `w`. -/
def workerStep (w : Nat) : M PUnit := do
  let s ← get
  match s.worker w with
  | .absent => return
  | .starting | .ready => set (s.setWorker w .free)
  | .free | .woken => condLock w
  | .sawEmpty => set { s.setWorker w .waiting with condMutex := none }
  | .sawJob => takeJob w
  | .waiting => return
  | .took x => beginJob w x
  | .running x => runJob w x
  | .returned x => markJob w x (.switching x)
  | .switching x => switchDone w x
  | .notifying _ serial => notifyFinish w serial
  | .cleanUp x => markJob w x (.freeing x)
  | .freeing x =>
      freeJob x
      modify fun s => s.setWorker w .ready

/-- The next step of the consumer `k`, whose loop begins again at `idle`. -/
def consumerStep (k : Nat) : M PUnit := do
  let s ← get
  match s.consumer k with
  | .idle =>
      match s.jobs.slotPointToHead done with
      | none => return
      | some x => set (s.setConsumer k (.pointing x))
  | .pointing x =>
      assertThat (!(s.job x).inUse && (s.job x).finished) .jobNotFinished
      if (s.job x).finishCbh && !(s.job x).cancelled then
        set (s.setConsumer k (.calling x))
      else
        set (s.setConsumer k (.freeing x))
  | .calling x => set ((s.setConsumer k (.freeing x)).note [.finish (s.job x).serial])
  | .freeing x =>
      freeJob x
      modify fun s => s.setConsumer k .idle

inductive Event
  /-- An enqueuer before its section. -/
  | grow
  | enqueue (proto : JobProto)
  | signal (w : Nat)
  | cancel (id : Nat)
  | worker (w : Nat)
  | wakeUp (w : Nat)
  | consumer (k : Nat)
  deriving DecidableEq, Repr

def handle : Event → M PUnit
  | .grow => threadsGrowIfNeeded
  | .enqueue proto => jobEnqueue proto
  | .signal w => condSignal w
  | .cancel id => jobCancel id
  | .worker w => do
      let s ← get
      if w < s.workerCount then workerStep w
  | .wakeUp w => wakeUp w
  | .consumer k => do
      let s ← get
      if k < s.consumerCount then consumerStep k

/-- The steps `evs` of the threads of a new pool. -/
def runFrom (conf : ThreadPoolBaseConfig) (evs : List Event) : Runs.Config Fault ThreadPoolBase :=
  Runs.run handle (.live (new conf)) evs

/-! ## What one step does -/

/-- The job that a step of a worker or a consumer leaves on the lists or frees. -/
abbrev serialOf (x : Nat) : Nat := (s.job x).serial

/-- The steps of the threads, each with what it found. -/
inductive Act (s : ThreadPoolBase) : Event → ThreadPoolBase → Prop
  | stay (e : Event) : Act s e s
  | grow (hmax : s.workerCount < s.workerCountMax) (t : ThreadPoolBase)
      (h : t = threadsLauch s s.workerCountGrow) : Act s .grow t
  | enqueue (proto : JobProto) (x : Nat) (jobs : MemSlotBase ThreadPoolInstanceJob)
      (hgrab : s.jobs.slotGrab = some (x, jobs)) (t : ThreadPoolBase)
      (h : t = { s with
        jobs := jobs.modifyData x fun _ =>
          { retValType := proto.retValType, finishCbh := proto.finishCbh, inUse := true
            serial := s.accepted }
        signals := s.signals + 1
        accepted := s.accepted + 1
        log := s.log ++ [Obs.accepted s.accepted] }) : Act s (.enqueue proto) t
  | signal (w : Nat) (hsignals : 0 < s.signals) (hwaits : s.worker w = .waiting)
      (hw : w < s.workerCount) (t : ThreadPoolBase)
      (h : t = { s.setWorker w .woken with signals := s.signals - 1 }) : Act s (.signal w) t
  | unheard (w : Nat) (hsignals : 0 < s.signals)
      (hnone : ∀ v < s.workerCount, s.worker v ≠ .waiting) (t : ThreadPoolBase)
      (h : t = { s with signals := s.signals - 1 }) : Act s (.signal w) t
  | cancel (x : Nat) (t : ThreadPoolBase)
      (h : t = (s.note (if linked s x then [.cancelled (serialOf s x)] else [])).setJob x
        fun job => { job with cancelled := true }) : Act s (.cancel x) t
  | wakeUp (w : Nat) (hwaits : s.worker w = .waiting) (t : ThreadPoolBase)
      (h : t = s.setWorker w .woken) : Act s (.wakeUp w) t
  | free (w : Nat) (hw : w < s.workerCount) (hstate : s.worker w = .starting ∨ s.worker w = .ready)
      (t : ThreadPoolBase) (h : t = s.setWorker w .free) : Act s (.worker w) t
  | lock (w : Nat) (hw : w < s.workerCount) (hstate : s.worker w = .free ∨ s.worker w = .woken)
      (hmutex : s.condMutex = none) (t : ThreadPoolBase)
      (h : t = { s.setWorker w
        (if s.jobs.list pending = [] then .sawEmpty else .sawJob) with condMutex := some w }) :
      Act s (.worker w) t
  | wait (w : Nat) (hw : w < s.workerCount) (hstate : s.worker w = .sawEmpty) (t : ThreadPoolBase)
      (h : t = { s.setWorker w .waiting with condMutex := none }) : Act s (.worker w) t
  | take (w : Nat) (hw : w < s.workerCount) (hstate : s.worker w = .sawJob) (x : Nat)
      (rest : List Nat) (hlist : s.jobs.list pending = x :: rest) (t : ThreadPoolBase)
      (h : t = { s.setWorker w (.took x) with
        jobs := s.jobs.relinkTail x working, condMutex := none }) : Act s (.worker w) t
  | skip (w : Nat) (hw : w < s.workerCount) (x : Nat) (hstate : s.worker w = .took x)
      (hcancelled : (s.job x).cancelled = true) (t : ThreadPoolBase)
      (h : t = (s.note [.touched (serialOf s x)]).setWorker w (.cleanUp x)) : Act s (.worker w) t
  | begin (w : Nat) (hw : w < s.workerCount) (x : Nat) (hstate : s.worker w = .took x)
      (t : ThreadPoolBase)
      (h : t = ((s.note [.touched (serialOf s x)]).setWorker w (.running x)).setJob x
        fun job => { job with runThreadId := w }) : Act s (.worker w) t
  | run (w : Nat) (hw : w < s.workerCount) (x : Nat) (hstate : s.worker w = .running x)
      (next : Worker) (hnext : next = .cleanUp x ∨ next = .returned x) (t : ThreadPoolBase)
      (h : t = (s.note [.ran (serialOf s x), .touched (serialOf s x)]).setWorker w next) :
      Act s (.worker w) t
  | mark (w : Nat) (hw : w < s.workerCount) (x : Nat) (next : Worker)
      (hstate : (s.worker w = .returned x ∧ next = .switching x) ∨
        (s.worker w = .cleanUp x ∧ next = .freeing x)) (t : ThreadPoolBase)
      (h : t = ((s.note [.touched (serialOf s x)]).setWorker w next).setJob x
        fun job => { job with inUse := false, finished := true }) : Act s (.worker w) t
  | switch (w : Nat) (hw : w < s.workerCount) (x : Nat) (hstate : s.worker w = .switching x)
      (t : ThreadPoolBase)
      (h : t = { (s.setWorker w (if s.finishNotify then .notifying x (serialOf s x)
        else .ready)).note [.done (serialOf s x)] with jobs := s.jobs.relinkTail x done }) :
      Act s (.worker w) t
  | notify (w : Nat) (hw : w < s.workerCount) (x serial : Nat)
      (hstate : s.worker w = .notifying x serial) (t : ThreadPoolBase)
      (h : t = (s.setWorker w .ready).note [.touched serial]) : Act s (.worker w) t
  | release (w : Nat) (hw : w < s.workerCount) (x : Nat) (hstate : s.worker w = .freeing x)
      (t : ThreadPoolBase)
      (h : t = ({ s.note [.freed (serialOf s x)] with
        jobs := s.jobs.slotFree x } : ThreadPoolBase).setWorker w .ready) : Act s (.worker w) t
  | point (k : Nat) (hk : k < s.consumerCount) (hstate : s.consumer k = .idle) (x : Nat)
      (rest : List Nat) (hlist : s.jobs.list done = x :: rest) (t : ThreadPoolBase)
      (h : t = s.setConsumer k (.pointing x)) : Act s (.consumer k) t
  | decide (k : Nat) (hk : k < s.consumerCount) (x : Nat) (hstate : s.consumer k = .pointing x)
      (next : Consumer)
      (hnext : (next = .calling x ∧ (s.job x).cancelled = false) ∨ next = .freeing x)
      (t : ThreadPoolBase) (h : t = s.setConsumer k next) : Act s (.consumer k) t
  | finish (k : Nat) (hk : k < s.consumerCount) (x : Nat) (hstate : s.consumer k = .calling x)
      (t : ThreadPoolBase)
      (h : t = (s.setConsumer k (.freeing x)).note [.finish (serialOf s x)]) : Act s (.consumer k) t
  | consumed (k : Nat) (hk : k < s.consumerCount) (x : Nat) (hstate : s.consumer k = .freeing x)
      (t : ThreadPoolBase)
      (h : t = ({ s.note [.freed (serialOf s x)] with
        jobs := s.jobs.slotFree x } : ThreadPoolBase).setConsumer k .idle) : Act s (.consumer k) t

inductive Aborts (s : ThreadPoolBase) : Prop
  | slotInUse (x : Nat) (jobs : MemSlotBase ThreadPoolInstanceJob)
      (hgrab : s.jobs.slotGrab = some (x, jobs)) (huse : (jobs.slotData x).inUse = true)
  | noJob (w : Nat) (hstate : s.worker w = .sawJob) (hlist : s.jobs.list pending = [])
  | jobNotInUse (w x : Nat) (hstate : s.worker w = .took x) (huse : (s.job x).inUse = false)
  | jobNotFinished (k x : Nat) (hstate : s.consumer k = .pointing x)
      (h : ¬ ((s.job x).inUse = false ∧ (s.job x).finished = true))

section Acts

variable {s}

/-- Where a step ends that leaves the pool alone or does what `e` says. -/
abbrev Acts (s : ThreadPoolBase) (e : Event) (x : M PUnit) : Prop :=
  Ends x s (fun _ t => Act s e t) fun _ t => t = s ∧ Aborts s

theorem workerStep_acts {w : Nat} (hw : w < s.workerCount) :
    Acts s (.worker w) (workerStep w) := by
  unfold Acts workerStep
  rw [ends_bind, ends_get]
  cases hstate : s.worker w with
  | absent => exact .stay _
  | starting => exact .free w hw (.inl hstate) _ rfl
  | ready => exact .free w hw (.inr hstate) _ rfl
  | free =>
      simp only [condLock, ends_bind, ends_get, ends_ite, ends_set, ends_pure]
      refine ⟨fun hmutex => ?_, fun _ => .stay _⟩
      exact .lock w hw (.inl hstate) (by simpa using hmutex) _ (by simp [isEmptyList])
  | woken =>
      simp only [condLock, ends_bind, ends_get, ends_ite, ends_set, ends_pure]
      refine ⟨fun hmutex => ?_, fun _ => .stay _⟩
      exact .lock w hw (.inr hstate) (by simpa using hmutex) _ (by simp [isEmptyList])
  | sawEmpty => exact .wait w hw hstate _ rfl
  | sawJob =>
      simp only [takeJob, ends_bind, ends_get]
      cases hlist : s.jobs.list pending with
      | nil =>
          simp only [slotPointToHeadAndSwitchListID, hlist]
          exact ⟨rfl, .noJob w hstate hlist⟩
      | cons x rest =>
          simp only [slotPointToHeadAndSwitchListID, hlist]
          exact .take w hw hstate x rest hlist _ rfl
  | waiting => exact .stay _
  | took x =>
      simp only [beginJob, ends_bind, ends_get, ends_assertThat, ends_ite, ends_set]
      refine ⟨fun _ => ⟨fun hcancelled => ?_, fun _ => ?_⟩, fun huse => ⟨trivial, ?_⟩⟩
      · exact .skip w hw x hstate hcancelled _ rfl
      · exact .begin w hw x hstate _ rfl
      · exact .jobNotInUse w x hstate huse
  | running x =>
      refine .run w hw x hstate _ ?_ _ rfl
      split
      · exact .inl rfl
      · exact .inr rfl
  | returned x => exact .mark w hw x _ (.inl ⟨hstate, rfl⟩) _ rfl
  | switching x => exact .switch w hw x hstate _ rfl
  | notifying x serial => exact .notify w hw x serial hstate _ rfl
  | cleanUp x => exact .mark w hw x _ (.inr ⟨hstate, rfl⟩) _ rfl
  | freeing x => exact .release w hw x hstate _ rfl

theorem consumerStep_acts {k : Nat} (hk : k < s.consumerCount) :
    Acts s (.consumer k) (consumerStep k) := by
  unfold Acts consumerStep
  rw [ends_bind, ends_get]
  cases hstate : s.consumer k with
  | idle =>
      cases hlist : s.jobs.list done with
      | nil =>
          simp only [slotPointToHead, hlist, List.head?_nil]
          exact .stay _
      | cons x rest =>
          simp only [slotPointToHead, hlist, List.head?_cons]
          exact .point k hk hstate x rest hlist _ rfl
  | pointing x =>
      simp only [ends_bind, ends_assertThat, ends_ite, ends_set, Bool.and_eq_true,
        Bool.not_eq_true']
      refine ⟨fun _ => ⟨fun hcall => ?_, fun _ => ?_⟩, fun hno => ⟨trivial, ?_⟩⟩
      · exact .decide k hk x hstate _ (.inl ⟨rfl, hcall.2⟩) _ rfl
      · exact .decide k hk x hstate _ (.inr rfl) _ rfl
      · refine .jobNotFinished k x hstate fun hfin => ?_
        simp [hfin.1, hfin.2] at hno
  | calling x => exact .finish k hk x hstate _ rfl
  | freeing x => exact .consumed k hk x hstate _ rfl

/-- **One step.**  A step of a thread is one of the acts, or fails an assertion. -/
theorem handle_acts (e : Event) : Acts s e (handle e) := by
  cases e with
  | grow =>
      simp only [Acts, handle, threadsGrowIfNeeded, ends_bind, ends_get, ends_ite, ends_pure,
        ends_modify]
      refine ⟨fun _ => .stay _, fun hmax => ⟨fun _ => ?_, fun _ => .stay _⟩⟩
      exact .grow (Nat.lt_of_not_le hmax) _ rfl
  | enqueue proto =>
      simp only [Acts, handle, jobEnqueue, ends_bind, ends_get]
      cases hgrab : s.jobs.slotGrab with
      | none => exact .stay _
      | some g =>
          obtain ⟨x, jobs⟩ := g
          simp only [ends_bind, ends_assertThat, ends_set]
          refine ⟨fun _ => .enqueue proto x jobs hgrab _ rfl, fun huse => ⟨trivial, ?_⟩⟩
          exact .slotInUse x jobs hgrab (by simpa using huse)
  | signal w =>
      simp only [Acts, handle, condSignal, ends_bind, ends_get, ends_ite, ends_pure, ends_set]
      refine ⟨fun _ => .stay _, fun hsignals => ⟨fun hw => ?_, fun _ => ⟨fun hnone => ?_,
        fun _ => .stay _⟩⟩⟩
      · exact .signal w (Nat.pos_of_ne_zero hsignals) hw.1 hw.2 _ rfl
      · exact .unheard w (Nat.pos_of_ne_zero hsignals) hnone _ rfl
  | cancel x => exact .cancel x _ rfl
  | worker w =>
      simp only [Acts, handle, ends_bind, ends_get, ends_ite, ends_pure]
      exact ⟨fun hw => workerStep_acts hw, fun _ => .stay _⟩
  | wakeUp w =>
      simp only [Acts, handle, wakeUp, ends_bind, ends_get, ends_ite, ends_pure, ends_set]
      exact ⟨fun hwaits => .wakeUp w hwaits _ rfl, fun _ => .stay _⟩
  | consumer k =>
      simp only [Acts, handle, ends_bind, ends_get, ends_ite, ends_pure]
      exact ⟨fun hk => consumerStep_acts hk, fun _ => .stay _⟩

end Acts

end ThreadPool
