import BrbFramework.Thread.Pool

/-!
# The wake-up of the workers

A job is put on the PENDING list under the mutex of the slot pool, and the condition is
signalled under no mutex at all. A worker tests the list under the condition's mutex, so
a signal may come between its test and its wait, and then nobody hears it. One other
worker that is on its way to the test is enough to make good for that.
-/

namespace ThreadPool

open Handler BrbData

variable {s t : ThreadPoolBase} {e : Event}

/-- Every worker is blocked although there is a job, and no signal is to come. -/
def Lost (s : ThreadPoolBase) : Prop :=
  s.jobs.list pending ≠ [] ∧ s.signals = 0 ∧ ∀ w < s.workerCount, s.worker w = .waiting

/-- A signal is not sent while every worker is between its test and its wait. -/
def Heard (s : ThreadPoolBase) : Event → Prop
  | .signal _ => 0 < s.signals → ∃ w < s.workerCount, s.worker w ≠ .sawEmpty
  | _ => True

/-- The worker will test the PENDING list before it waits. -/
def Worker.Active (worker : Worker) : Prop := worker ≠ .waiting ∧ worker ≠ .sawEmpty

/-- A signal is to come, or a worker will look for jobs. -/
def Awake (s : ThreadPoolBase) : Prop :=
  0 < s.signals ∨ ∃ w < s.workerCount, (s.worker w).Active

theorem Awake.not_lost (h : s.jobs.list pending ≠ [] → Awake s) : ¬ Lost s := by
  rintro ⟨hjobs, hsignals, hwaits⟩
  rcases h hjobs with hpos | ⟨w, hw, hactive, -⟩
  · omega
  · exact hactive (hwaits w hw)

theorem awake_of_worker {w : Nat} (hw : w < s.workerCount) (h : (s.worker w).Active) : Awake s :=
  .inr ⟨w, hw, h⟩

theorem awake_of_setWorker {w : Nat} (state : Worker) (hw : w < s.workerCount)
    (hstate : state.Active) (hworker : t.worker = (s.setWorker w state).worker)
    (hcount : t.workerCount = s.workerCount) : Awake t := by
  refine awake_of_worker (hcount ▸ hw) ?_
  rw [hworker, ThreadPoolBase.worker_setWorker_self]
  exact hstate

theorem Awake.mono (h : Awake s) (hsignals : s.signals ≤ t.signals)
    (hcount : s.workerCount ≤ t.workerCount)
    (hworker : ∀ w < s.workerCount, (s.worker w).Active → (t.worker w).Active) : Awake t := by
  rcases h with hpos | ⟨w, hw, hactive⟩
  · exact .inl (Nat.lt_of_lt_of_le hpos hsignals)
  · exact .inr ⟨w, Nat.lt_of_lt_of_le hw hcount, hworker w hw hactive⟩

theorem pending_slotFree {jobs : MemSlotBase ThreadPoolInstanceJob} {x : Nat}
    (h : (jobs.slotFree x).list pending ≠ []) : jobs.list pending ≠ [] := by
  intro hnil
  refine h ?_
  simp only [MemSlotBase.slotFree]
  by_cases hcur : pending = (jobs.arena x).curListId
  · rw [← hcur, Function.update_self, hnil]
    rfl
  · rw [Function.update_of_ne hcur, hnil]

theorem worker_threadsLauch {w count : Nat} (hw : w < s.workerCount) :
    (threadsLauch s count).worker w = s.worker w := by
  simp only [threadsLauch]
  rw [if_neg]
  omega

theorem Act.awake (h : Act s e t) (hheard : Heard s e)
    (hawake : s.jobs.list pending ≠ [] → Awake s) : t.jobs.list pending ≠ [] → Awake t := by
  intro hjobs
  cases h with
  | stay => exact hawake hjobs
  | grow _ t h =>
      subst h
      refine (hawake hjobs).mono (Nat.le_refl _) (Nat.le_max_left _ _) fun w hw hactive => ?_
      rw [worker_threadsLauch hw]
      exact hactive
  | enqueue _ _ _ _ t h =>
      subst h
      exact .inl (Nat.succ_pos _)
  | signal w _ _ hw t h =>
      subst h
      exact awake_of_setWorker .woken hw ⟨nofun, nofun⟩ rfl rfl
  | unheard w hsignals hnone t h =>
      subst h
      obtain ⟨v, hv, hstate⟩ := hheard hsignals
      exact awake_of_worker hv ⟨hnone v hv, hstate⟩
  | cancel x t h =>
      subst h
      exact (hawake hjobs).mono (Nat.le_refl _) (Nat.le_refl _) fun _ _ hactive => hactive
  | wakeUp w _ t h =>
      subst h
      refine (hawake hjobs).mono (Nat.le_refl _) (Nat.le_refl _) fun v _ hactive => ?_
      by_cases hv : v = w
      · rw [hv, ThreadPoolBase.worker_setWorker_self]
        exact ⟨nofun, nofun⟩
      · rw [ThreadPoolBase.worker_setWorker_of_ne hv]
        exact hactive
  | free w hw _ t h =>
      subst h
      exact awake_of_setWorker .free hw ⟨nofun, nofun⟩ rfl rfl
  | lock w hw _ _ t h =>
      subst h
      -- the worker goes to wait only if there is nothing to do
      have hjobs : s.jobs.list pending ≠ [] := hjobs
      refine awake_of_setWorker .sawJob hw ⟨nofun, nofun⟩ ?_ rfl
      rw [if_neg hjobs]
  | wait w _ hstate t h =>
      subst h
      refine (hawake hjobs).mono (Nat.le_refl _) (Nat.le_refl _) fun v _ hactive => ?_
      have hv : v ≠ w := fun hv => hactive.2 (hv ▸ hstate)
      have hsame : (s.setWorker w .waiting).worker v = s.worker v :=
        ThreadPoolBase.worker_setWorker_of_ne hv
      exact hsame ▸ hactive
  | take w hw _ x _ _ t h =>
      subst h
      exact awake_of_setWorker (.took x) hw ⟨nofun, nofun⟩ rfl rfl
  | skip w hw x _ _ t h =>
      subst h
      exact awake_of_setWorker (.cleanUp x) hw ⟨nofun, nofun⟩ rfl rfl
  | begin w hw x _ t h =>
      subst h
      exact awake_of_setWorker (.running x) hw ⟨nofun, nofun⟩ rfl rfl
  | run w hw x _ next hnext t h =>
      subst h
      refine awake_of_setWorker next hw ?_ rfl rfl
      rcases hnext with rfl | rfl <;> exact ⟨nofun, nofun⟩
  | mark w hw x next hstate t h =>
      subst h
      refine awake_of_setWorker next hw ?_ rfl rfl
      rcases hstate with ⟨-, rfl⟩ | ⟨-, rfl⟩ <;> exact ⟨nofun, nofun⟩
  | switch w hw x _ t h =>
      subst h
      refine awake_of_setWorker (if s.finishNotify then .notifying x (serialOf s x)
        else .ready) hw ?_ rfl rfl
      split <;> exact ⟨nofun, nofun⟩
  | notify w hw _ _ _ t h =>
      subst h
      exact awake_of_setWorker .ready hw ⟨nofun, nofun⟩ rfl rfl
  | release w hw _ _ t h =>
      subst h
      exact awake_of_setWorker .ready hw ⟨nofun, nofun⟩ rfl rfl
  | point _ _ _ _ _ _ t h =>
      subst h
      exact (hawake hjobs).mono (Nat.le_refl _) (Nat.le_refl _) fun _ _ hactive => hactive
  | decide _ _ _ _ _ _ t h =>
      subst h
      exact (hawake hjobs).mono (Nat.le_refl _) (Nat.le_refl _) fun _ _ hactive => hactive
  | finish _ _ _ _ t h =>
      subst h
      exact (hawake hjobs).mono (Nat.le_refl _) (Nat.le_refl _) fun _ _ hactive => hactive
  | consumed _ _ _ _ t h =>
      subst h
      exact (hawake (pending_slotFree hjobs)).mono (Nat.le_refl _) (Nat.le_refl _)
          fun _ _ hactive => hactive

/-- **No lost wake-up.**  In every run that sends no signal while every worker is between its
test and its wait, the workers are never all blocked while there is a job and no signal to
come. -/
theorem no_lost_wakeup (conf : ThreadPoolBaseConfig) (evs : List Event)
    (hheard : Runs.Meets handle Heard (.live (new conf)) evs) :
    ¬ Lost (runFrom conf evs).state := by
  have hstep : ∀ e s, (s.jobs.list pending ≠ [] → Awake s) → Heard s e →
      Ends (handle e) s (fun _ t => t.jobs.list pending ≠ [] → Awake t)
        (fun _ t => t.jobs.list pending ≠ [] → Awake t) := by
    intro e s hs he
    refine (handle_acts e).mono (fun _ t ht => ht.awake he hs) fun _ t ht => ?_
    rw [ht.1]
    exact hs
  have hnew : (new conf).jobs.list pending ≠ [] → Awake (new conf) := fun hjobs => absurd rfl hjobs
  have h := Runs.invariant_run_of hstep (c := .live (new conf)) hnew evs hheard
  exact Awake.not_lost (Runs.Holds.always h)

/-- A run in which the signal finds the only worker waiting. -/
def heardRun : List Event :=
  [.worker 0, .worker 0, .worker 0, .enqueue ⟨.none, false⟩, .signal 0, .worker 0]

instance (s : ThreadPoolBase) (e : Event) : Decidable (Heard s e) :=
  match e with
  | .signal _ => inferInstanceAs (Decidable (_ → _))
  | .grow | .enqueue _ | .cancel _ | .worker _ | .wakeUp _ | .consumer _ => isTrue trivial

theorem no_lost_wakeup_heard : ¬ Lost (runFrom { finishNotify := false } heardRun).state :=
  no_lost_wakeup _ _ (by decide +kernel)

/-- The only worker finds no job; the job comes, the signal is sent; then it waits. -/
theorem lone_worker_sleeps :
    Lost (runFrom { finishNotify := false }
      [.worker 0, .worker 0, .enqueue ⟨.none, false⟩, .signal 0, .worker 0]).state := by
  unfold Lost
  decide +kernel

/-! ## Two workers -/

/-- A worker between its test and what follows has the mutex of the condition. -/
def Locked (s : ThreadPoolBase) : Prop :=
  ∀ w, s.worker w = .sawEmpty ∨ s.worker w = .sawJob → s.condMutex = some w

theorem Locked.setWorker {w : Nat} (state : Worker) (h : Locked s)
    (hstate : state ≠ .sawEmpty ∧ state ≠ .sawJob)
    (hworker : t.worker = (s.setWorker w state).worker)
    (hmutex : t.condMutex = s.condMutex ∨ s.condMutex = some w) : Locked t := by
  intro v hv
  rw [hworker] at hv
  by_cases hvw : v = w
  · rw [hvw, ThreadPoolBase.worker_setWorker_self] at hv
    exact absurd hv (not_or.2 hstate)
  · rw [ThreadPoolBase.worker_setWorker_of_ne hvw] at hv
    have hold := h v hv
    rcases hmutex with hmutex | hmutex
    · exact hmutex.trans hold
    · exact absurd (Option.some.inj (hold.symm.trans hmutex)) hvw

theorem Act.locked (h : Act s e t) (hs : Locked s) : Locked t := by
  cases h with
  | stay => exact hs
  | grow _ t h =>
      subst h
      intro w hw
      simp only [threadsLauch] at hw
      split at hw
      · exact absurd hw (by simp)
      · exact hs w hw
  | lock w _ _ hmutex t h =>
      subst h
      intro v hv
      by_cases hvw : v = w
      · rw [hvw]
      · -- nobody else had the mutex
        have hsame : (s.setWorker w
            (if s.jobs.list pending = [] then .sawEmpty else .sawJob)).worker v = s.worker v :=
          ThreadPoolBase.worker_setWorker_of_ne hvw
        rw [show _ = s.worker v from hsame] at hv
        have hold := hs v hv
        rw [hmutex] at hold
        cases hold
  | wait w _ hstate t h =>
      subst h
      exact hs.setWorker .waiting ⟨nofun, nofun⟩ rfl (.inr (hs w (.inl hstate)))
  | take w _ hstate x _ _ t h =>
      subst h
      exact hs.setWorker (.took x) ⟨nofun, nofun⟩ rfl (.inr (hs w (.inr hstate)))
  | signal w _ _ _ t h =>
      subst h
      exact hs.setWorker .woken ⟨nofun, nofun⟩ rfl (.inl rfl)
  | wakeUp w _ t h =>
      subst h
      exact hs.setWorker .woken ⟨nofun, nofun⟩ rfl (.inl rfl)
  | free w _ _ t h =>
      subst h
      exact hs.setWorker .free ⟨nofun, nofun⟩ rfl (.inl rfl)
  | skip w _ x _ _ t h =>
      subst h
      exact hs.setWorker (.cleanUp x) ⟨nofun, nofun⟩ rfl (.inl rfl)
  | begin w _ x _ t h =>
      subst h
      exact hs.setWorker (.running x) ⟨nofun, nofun⟩ rfl (.inl rfl)
  | run w _ x _ next hnext t h =>
      subst h
      refine hs.setWorker next ?_ rfl (.inl rfl)
      rcases hnext with rfl | rfl <;> exact ⟨nofun, nofun⟩
  | mark w _ x next hstate t h =>
      subst h
      refine hs.setWorker next ?_ rfl (.inl rfl)
      rcases hstate with ⟨-, rfl⟩ | ⟨-, rfl⟩ <;> exact ⟨nofun, nofun⟩
  | switch w _ x _ t h =>
      subst h
      refine hs.setWorker (if s.finishNotify then .notifying x (serialOf s x)
        else .ready) ?_ rfl (.inl rfl)
      split <;> exact ⟨nofun, nofun⟩
  | notify w _ _ _ _ t h =>
      subst h
      exact hs.setWorker .ready ⟨nofun, nofun⟩ rfl (.inl rfl)
  | release w _ _ _ t h =>
      subst h
      exact hs.setWorker .ready ⟨nofun, nofun⟩ rfl (.inl rfl)
  | enqueue _ _ _ _ t h =>
      subst h
      exact hs
  | unheard _ _ _ t h =>
      subst h
      exact hs
  | cancel _ t h =>
      subst h
      exact hs
  | point _ _ _ _ _ _ t h =>
      subst h
      exact hs
  | decide _ _ _ _ _ _ t h =>
      subst h
      exact hs
  | finish _ _ _ _ t h =>
      subst h
      exact hs
  | consumed _ _ _ _ t h =>
      subst h
      exact hs

end ThreadPool
