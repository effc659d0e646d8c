import BrbFramework.Lib.Logs
import BrbFramework.Thread.WakeUp

/-!
# The life of a job

An accepted job belongs to nobody while it is on the PENDING list, to one worker while it
is on the WORKING list, and on the DONE list to the consumer that points to it. The
worker gives it away with the switch to the DONE list, and the consumer with the release
of its slot. The invariant says for each job how often it was run, finished and released,
as a function of the list it is on and of what its owner is about to do.
-/

namespace ThreadPool

open Handler BrbData Logs List Function MemSlotBase

variable {s t : ThreadPoolBase} {e : Event} {log : List Obs} {x : Nat}

def Worker.held : Worker → Option Nat
  | took x | running x | returned x | switching x | cleanUp x | freeing x => some x
  | _ => none

def Consumer.held : Consumer → Option Nat
  | pointing x | calling x | freeing x => some x
  | idle => none

/-- The worker is about to move its job to the DONE list. -/
def Worker.gives : Worker → Bool
  | switching _ => true
  | _ => false

def Obs.serial : Obs → Nat
  | accepted n | cancelled n | ran n | touched n | done n | finish n | freed n => n

/-! ## What is promised -/

/-- The jobs are run once, finished once and not after they are cancelled, and released
once; no worker uses a job that is on the DONE list or was on it. -/
structure Proper (s : ThreadPoolBase) : Prop where
  ran : ∀ n, s.log.count (.ran n) ≤ 1
  finish : ∀ n, s.log.count (.finish n) ≤ 1
  cancelled : ∀ n, Before s.log (.finish n) (.cancelled n)
  /-- A job is on a list, or its slot was returned, once. -/
  returned : ∀ n < s.accepted,
    (s.log.count (.freed n) = 0 ∧ ∃ x, linked s x = true ∧ (s.job x).serial = n) ∨
    (s.log.count (.freed n) = 1 ∧ ∀ x, linked s x = true → (s.job x).serial ≠ n)
  handed : ∀ n, Before s.log (.touched n) (.done n)

/-- The steps that keep the promise: no job becomes DONE while the workers send
notifications; a consumer does not point to a job that another one has not released; a job
is not cancelled between the test of a consumer and the callback. -/
def Orderly (s : ThreadPoolBase) : Event → Prop
  | .worker w => (s.worker w).gives = true → s.finishNotify = false
  | .consumer k => s.consumer k = .idle → s.jobs.slotPointToHead done ≠ none →
      ∀ j < s.consumerCount, (s.consumer j).held ≠ s.jobs.slotPointToHead done
  | .cancel x => ∀ k < s.consumerCount, s.consumer k ≠ .calling x
  | _ => True

/-! ## The invariant -/

section Facts

variable (jobs : MemSlotBase ThreadPoolInstanceJob) (log : List Obs)

/-- What holds of the job that a worker is about to do something with. -/
def Worker.Fine : Worker → Prop
  | took x => x ∈ jobs.list working ∧ (jobs.slotData x).inUse = true ∧
      log.count (.ran (jobs.slotData x).serial) = 0
  | running x => x ∈ jobs.list working ∧ log.count (.ran (jobs.slotData x).serial) = 0
  | returned x | cleanUp x => x ∈ jobs.list working
  | switching x => x ∈ jobs.list working ∧ (jobs.slotData x).inUse = false ∧
      (jobs.slotData x).finished = true
  | freeing x => x ∈ jobs.list working ∧ (jobs.slotData x).inUse = false
  | notifying _ _ => False
  | _ => True

/-- What holds of the job that a consumer points to. -/
def Consumer.Fine : Consumer → Prop
  | idle => True
  | pointing x | freeing x => x ∈ jobs.list done
  | calling x => x ∈ jobs.list done ∧ (jobs.slotData x).cancelled = false

end Facts

/-- What the log says about the job in the slot `x` of the list `i`. -/
structure Kept (s : ThreadPoolBase) (i x : Nat) : Prop where
  accepted : serialOf s x < s.accepted
  flag : (s.job x).cancelled = true ↔ Obs.cancelled (serialOf s x) ∈ s.log
  freed : s.log.count (.freed (serialOf s x)) = 0
  ran : s.log.count (.ran (serialOf s x)) ≤ 1
  finish : s.log.count (.finish (serialOf s x)) ≤ 1
  undone : i ≠ done → Obs.done (serialOf s x) ∉ s.log ∧ s.log.count (.finish (serialOf s x)) = 0
  isPending : i = pending → (s.job x).inUse = true ∧ s.log.count (.ran (serialOf s x)) = 0
  isDone : i = done → (s.job x).inUse = false ∧ (s.job x).finished = true ∧
    (s.log.count (.finish (serialOf s x)) = 0 ∨ ∃ k, s.consumer k = .freeing x)

/-- What the log says about a job whose slot was released. -/
structure Gone (log : List Obs) (n : Nat) : Prop where
  freed : log.count (.freed n) = 1
  ran : log.count (.ran n) ≤ 1
  finish : log.count (.finish n) ≤ 1

structure Inv (s : ThreadPoolBase) : Prop where
  wf : s.jobs.WF
  three : ∀ i, ∀ x ∈ s.jobs.list i, i < 3
  kept : ∀ i, ∀ x ∈ s.jobs.list i, Kept s i x
  inj : ∀ i j x y, x ∈ s.jobs.list i → y ∈ s.jobs.list j → serialOf s x = serialOf s y → x = y
  unused : ∀ x ∈ s.jobs.slots, (s.job x).inUse = false
  gone : ∀ n < s.accepted, (∀ i, ∀ x ∈ s.jobs.list i, serialOf s x ≠ n) → Gone s.log n
  known : ∀ o ∈ s.log, o.serial < s.accepted
  worker : ∀ w, (s.worker w).Fine s.jobs s.log
  sole : ∀ v w x, (s.worker v).held = some x → (s.worker w).held = some x → v = w
  consumer : ∀ k, (s.consumer k).Fine s.jobs
  solo : ∀ j k x, (s.consumer j).held = some x → (s.consumer k).held = some x → j = k
  idle : ∀ k, s.consumerCount ≤ k → s.consumer k = .idle
  locked : Locked s
  seen : ∀ w, s.worker w = .sawJob → s.jobs.list pending ≠ []
  cancelled : ∀ n, Before s.log (.finish n) (.cancelled n)
  handed : ∀ n, Before s.log (.touched n) (.done n)

theorem Worker.Fine.mem {state : Worker} (h : state.Fine s.jobs s.log)
    (hx : state.held = some x) : x ∈ s.jobs.list working := by
  cases state <;> simp only [Worker.held, Option.some.injEq, reduceCtorEq] at hx
  all_goals subst hx
  · exact h.1
  · exact h.1
  · exact h
  · exact h.1
  · exact h
  · exact h.1

theorem Consumer.Fine.mem {state : Consumer} (h : state.Fine s.jobs) (hx : state.held = some x) :
    x ∈ s.jobs.list done := by
  cases state <;> simp only [Consumer.held, Option.some.injEq, reduceCtorEq] at hx
  all_goals subst hx
  · exact h
  · exact h.1
  · exact h

theorem linked_iff (h : ∀ i, ∀ x ∈ s.jobs.list i, i < 3) (x : Nat) :
    linked s x = true ↔ ∃ i, x ∈ s.jobs.list i := by
  simp only [linked, decide_eq_true_eq]
  constructor
  · rintro (hx | hx | hx)
    · exact ⟨_, hx⟩
    · exact ⟨_, hx⟩
    · exact ⟨_, hx⟩
  · rintro ⟨i, hx⟩
    have hi := h i x hx
    obtain rfl | rfl | rfl : i = 0 ∨ i = 1 ∨ i = 2 := by omega
    · exact .inl hx
    · exact .inr (.inl hx)
    · exact .inr (.inr hx)

theorem Inv.place (h : Inv s) {n : Nat} (hn : n < s.accepted) :
    (∃ i, ∃ x ∈ s.jobs.list i, serialOf s x = n) ∨
      ((∀ i, ∀ x ∈ s.jobs.list i, serialOf s x ≠ n) ∧ Gone s.log n) := by
  by_cases hx : ∃ i, ∃ x ∈ s.jobs.list i, serialOf s x = n
  · exact .inl hx
  · have hno : ∀ i, ∀ x ∈ s.jobs.list i, serialOf s x ≠ n := fun i x hin heq => hx ⟨i, x, hin, heq⟩
    exact .inr ⟨hno, h.gone n hn hno⟩

theorem Inv.counts (h : Inv s) (n : Nat) :
    s.log.count (.ran n) ≤ 1 ∧ s.log.count (.finish n) ≤ 1 := by
  by_cases hn : n < s.accepted
  · rcases h.place hn with ⟨i, x, hx, rfl⟩ | ⟨-, hgone⟩
    · exact ⟨(h.kept i x hx).ran, (h.kept i x hx).finish⟩
    · exact ⟨hgone.ran, hgone.finish⟩
  · rw [count_eq_zero_of_not_mem fun hin => hn (h.known (.ran n) hin),
      count_eq_zero_of_not_mem fun hin => hn (h.known (.finish n) hin)]
    exact ⟨Nat.zero_le _, Nat.zero_le _⟩

theorem Inv.proper (h : Inv s) : Proper s where
  ran n := (h.counts n).1
  finish n := (h.counts n).2
  cancelled := h.cancelled
  returned n hn := by
    rcases h.place hn with ⟨i, x, hx, rfl⟩ | ⟨hno, hgone⟩
    · exact .inl ⟨(h.kept i x hx).freed, x, (linked_iff h.three x).2 ⟨i, hx⟩, rfl⟩
    · refine .inr ⟨hgone.freed, fun x hin => ?_⟩
      obtain ⟨i, hin⟩ := (linked_iff h.three x).1 hin
      exact hno i x hin
  handed := h.handed

theorem Kept.same {i j : Nat} (hk : Kept s i x) (hij : j = i ∨ i ≠ done ∧ j = working)
    (hjob : t.job x = s.job x) (haccepted : s.accepted ≤ t.accepted)
    (hcount : ∀ o : Obs, o.serial = serialOf s x → t.log.count o = s.log.count o)
    (hfreeing : ∀ k, s.consumer k = .freeing x → t.consumer k = .freeing x) : Kept t j x := by
  have hserial : serialOf t x = serialOf s x := congrArg (·.serial) hjob
  have hmem : ∀ o : Obs, o.serial = serialOf s x → (o ∈ t.log ↔ o ∈ s.log) := by
    intro o ho
    rw [← count_pos_iff, ← count_pos_iff, hcount o ho]
  have hback : j ≠ working → j = i := fun hj => hij.resolve_right fun h => hj h.2
  refine ⟨?_, ?_, ?_, ?_, ?_, fun hj => ?_, fun hj => ?_, fun hj => ?_⟩ <;> simp only [hserial, hjob]
  · exact Nat.lt_of_lt_of_le hk.accepted haccepted
  · rw [hmem _ rfl]
    exact hk.flag
  · rw [hcount _ rfl]
    exact hk.freed
  · rw [hcount _ rfl]
    exact hk.ran
  · rw [hcount _ rfl]
    exact hk.finish
  · rw [hmem _ rfl, hcount _ rfl]
    exact hk.undone (hij.elim (fun heq => heq ▸ hj) And.left)
  · rw [hcount _ rfl]
    exact hk.isPending (hback (by rw [hj]; decide) ▸ hj)
  · obtain ⟨huse, hfinished, hfinish⟩ := hk.isDone (hback (by rw [hj]; decide) ▸ hj)
    rw [hcount _ rfl]
    exact ⟨huse, hfinished, hfinish.imp_right fun ⟨k, hk⟩ => ⟨k, hfreeing k hk⟩⟩

/-! ## Steps that leave the jobs alone -/

theorem Inv.still (h : Inv s) (hjobs : t.jobs = s.jobs) (hlog : t.log = s.log)
    (haccepted : t.accepted = s.accepted) (hcount : t.consumerCount = s.consumerCount)
    (hworker : ∀ w, t.worker w = s.worker w ∨
      ((t.worker w).held = none ∧ (t.worker w).Fine s.jobs s.log ∧
        (t.worker w = .sawJob → s.jobs.list pending ≠ [])))
    (hconsumer : ∀ k, (t.consumer k).Fine s.jobs)
    (hsolo : ∀ j k x, (t.consumer j).held = some x → (t.consumer k).held = some x → j = k)
    (hidle : ∀ k, s.consumerCount ≤ k → t.consumer k = .idle)
    (hfreeing : ∀ k x, s.consumer k = .freeing x → t.consumer k = .freeing x)
    (hlocked : Locked t) : Inv t := by
  have hheld : ∀ w x, (t.worker w).held = some x → (s.worker w).held = some x := by
    intro w x hx
    rcases hworker w with hsame | ⟨hnone, -⟩
    · exact hsame ▸ hx
    · rw [hnone] at hx
      cases hx
  refine ⟨hjobs ▸ h.wf, hjobs ▸ h.three, fun i x hx => ?_, fun i j x y hx hy heq => ?_,
    fun x hx => ?_, fun n hn hno => ?_, fun o ho => ?_, fun w => ?_, fun v w x hv hw => ?_,
    fun k => ?_, hsolo, fun k hk => ?_, hlocked, fun w hw => ?_, hlog ▸ h.cancelled,
    hlog ▸ h.handed⟩
  · exact (h.kept i x (hjobs ▸ hx)).same (.inl rfl) (by rw [ThreadPoolBase.job, hjobs]; rfl)
      (Nat.le_of_eq haccepted.symm) (fun _ _ => by rw [hlog]) fun k hk => hfreeing k x hk
  · simp only [serialOf, ThreadPoolBase.job, hjobs] at hx hy heq
    exact h.inj i j x y hx hy heq
  · simp only [ThreadPoolBase.job, hjobs] at hx ⊢
    exact h.unused x hx
  · simp only [serialOf, ThreadPoolBase.job, hjobs, haccepted, hlog] at hn hno ⊢
    exact h.gone n hn hno
  · rw [hlog] at ho
    exact haccepted ▸ h.known o ho
  · rw [hjobs, hlog]
    rcases hworker w with hsame | ⟨-, hfine, -⟩
    · exact hsame ▸ h.worker w
    · exact hfine
  · exact h.sole v w x (hheld v x hv) (hheld w x hw)
  · exact hjobs ▸ hconsumer k
  · exact hidle k (hcount ▸ hk)
  · rw [hjobs]
    rcases hworker w with hsame | ⟨-, -, hsaw⟩
    · exact h.seen w (hsame ▸ hw)
    · exact hsaw hw

theorem Inv.still_worker (h : Inv s) {w : Nat} (state : Worker)
    (hstate : state.held = none ∧ state.Fine s.jobs s.log)
    (hsaw : state = .sawJob → s.jobs.list pending ≠ []) (hjobs : t.jobs = s.jobs)
    (hlog : t.log = s.log) (haccepted : t.accepted = s.accepted)
    (hcount : t.consumerCount = s.consumerCount) (hconsumer : t.consumer = s.consumer)
    (hworker : t.worker = (s.setWorker w state).worker) (hlocked : Locked t) : Inv t := by
  refine h.still hjobs hlog haccepted hcount (fun v => ?_) (fun k => ?_) ?_ (fun k hk => ?_)
    (fun k x hk => ?_) hlocked
  · by_cases hv : v = w
    · rw [hv, hworker, ThreadPoolBase.worker_setWorker_self]
      exact .inr ⟨hstate.1, hstate.2, hsaw⟩
    · rw [hworker, ThreadPoolBase.worker_setWorker_of_ne hv]
      exact .inl rfl
  · rw [hconsumer]
    exact h.consumer k
  · rw [hconsumer]
    exact h.solo
  · rw [hconsumer]
    exact h.idle k hk
  · rw [hconsumer]
    exact hk

theorem Inv.still_consumer (h : Inv s) {k : Nat} (next : Consumer) (hk : k < s.consumerCount)
    (hfreeing : ∀ y, s.consumer k ≠ .freeing y) (hheld : next.held = some x)
    (hfine : next.Fine s.jobs) (hnobody : ∀ j, j ≠ k → (s.consumer j).held ≠ some x)
    (hjobs : t.jobs = s.jobs) (hlog : t.log = s.log) (haccepted : t.accepted = s.accepted)
    (hcount : t.consumerCount = s.consumerCount) (hworker : t.worker = s.worker)
    (hconsumer : t.consumer = (s.setConsumer k next).consumer) (hlocked : Locked t) : Inv t := by
  have hself : t.consumer k = next := by
    rw [hconsumer]
    exact update_self ..
  have hothers : ∀ j, j ≠ k → t.consumer j = s.consumer j := by
    intro j hj
    rw [hconsumer]
    exact update_of_ne hj ..
  have hcheld : ∀ j y, (t.consumer j).held = some y →
      (j = k ∧ y = x) ∨ (j ≠ k ∧ (s.consumer j).held = some y) := by
    intro j y hy
    by_cases hj : j = k
    · rw [hj, hself, hheld] at hy
      exact .inl ⟨hj, (Option.some.inj hy).symm⟩
    · rw [hothers j hj] at hy
      exact .inr ⟨hj, hy⟩
  refine h.still hjobs hlog haccepted hcount (fun w => .inl (by rw [hworker])) (fun j => ?_)
    (fun i j y hi hj => ?_) (fun j hj => ?_) (fun j y hj => ?_) hlocked
  · by_cases hj : j = k
    · rw [hj, hself]
      exact hfine
    · rw [hothers j hj]
      exact h.consumer j
  · rcases hcheld i y hi with ⟨rfl, rfl⟩ | ⟨hik, hi⟩
    · rcases hcheld j y hj with ⟨rfl, -⟩ | ⟨hjk, hj⟩
      · rfl
      · exact absurd hj (hnobody j hjk)
    · rcases hcheld j y hj with ⟨rfl, rfl⟩ | ⟨-, hj⟩
      · exact absurd hi (hnobody i hik)
      · exact h.solo i j y hi hj
  · rw [hothers j (by omega)]
    exact h.idle j hj
  · have hjk : j ≠ k := fun heq => hfreeing y (heq ▸ hj)
    rw [hothers j hjk]
    exact hj

/-! ## Steps on one job -/

/-- Between the states nothing changes but the slot `x` and what is said about its job. -/
structure Aside (x : Nat) (l : List Obs) (s t : ThreadPoolBase) : Prop where
  wf : t.jobs.WF
  lists : ∀ i y, y ≠ x → (y ∈ t.jobs.list i ↔ y ∈ s.jobs.list i)
  stays : ∀ i, x ∈ t.jobs.list i → ∃ j, x ∈ s.jobs.list j
  slots : ∀ y ∈ t.jobs.slots, y ≠ x → y ∈ s.jobs.slots
  jobs : ∀ y, y ≠ x → t.job y = s.job y
  serial : serialOf t x = serialOf s x
  log : t.log = s.log ++ l
  concerns : ∀ o ∈ l, o.serial = serialOf s x
  linked : l ≠ [] → ∃ i, x ∈ s.jobs.list i
  accepted : t.accepted = s.accepted

theorem Aside.count {l : List Obs} (h : Aside x l s t) {o : Obs}
    (ho : l = [] ∨ o.serial ≠ serialOf s x) : t.log.count o = s.log.count o := by
  have hnone : l.count o = 0 := by
    rcases ho with rfl | ho
    · rfl
    · exact count_eq_zero_of_not_mem fun hin => ho (h.concerns o hin)
  rw [h.log, count_append, hnone, Nat.add_zero]

theorem Aside.other {l : List Obs} (h : Aside x l s t) (hs : Inv s) {i y : Nat}
    (hy : y ∈ s.jobs.list i) (hne : y ≠ x) {o : Obs} (ho : o.serial = serialOf s y) :
    t.log.count o = s.log.count o := by
  refine h.count ?_
  by_cases hl : l = []
  · exact .inl hl
  · obtain ⟨j, hx⟩ := h.linked hl
    exact .inr fun heq => hne (hs.inj i j y x hy hx (ho.symm.trans heq))

theorem mem_iff_of_count {l l' : List Obs} {o : Obs} (h : l'.count o = l.count o) :
    o ∈ l' ↔ o ∈ l := by
  rw [← count_pos_iff, ← count_pos_iff, h]

theorem Worker.Fine.aside {l : List Obs} {state : Worker} (hf : state.Fine s.jobs s.log)
    (hx : state.held ≠ some x) (h : Aside x l s t) (hs : Inv s) : state.Fine t.jobs t.log := by
  have hmem : ∀ y, state.held = some y → y ≠ x ∧ y ∈ s.jobs.list working := fun y hy =>
    ⟨fun he => hx (he ▸ hy), hf.mem hy⟩
  cases state <;> try trivial
  case took y | running y | returned y | switching y | cleanUp y | freeing y =>
    obtain ⟨hne, hy⟩ := hmem y rfl
    have hjob : t.jobs.slotData y = s.jobs.slotData y := h.jobs y hne
    have hin := (h.lists working y hne).2 hy
    have hran := h.other hs hy hne (o := .ran (s.jobs.slotData y).serial) rfl
    simp only [Worker.Fine, hjob, hran] at hf ⊢
    grind

theorem Consumer.Fine.aside {l : List Obs} {state : Consumer} (hf : state.Fine s.jobs)
    (hx : state.held ≠ some x) (h : Aside x l s t) : state.Fine t.jobs := by
  have hmem : ∀ y, state.held = some y → y ≠ x ∧ y ∈ s.jobs.list done := fun y hy =>
    ⟨fun he => hx (he ▸ hy), hf.mem hy⟩
  cases state with
  | idle => trivial
  | pointing y => exact (h.lists done y (hmem y rfl).1).2 hf
  | freeing y => exact (h.lists done y (hmem y rfl).1).2 hf
  | calling y =>
      obtain ⟨hne, hy⟩ := hmem y rfl
      have hjob : t.jobs.slotData y = s.jobs.slotData y := h.jobs y hne
      exact ⟨(h.lists done y hne).2 hy, hjob ▸ hf.2⟩

theorem Kept.aside {l : List Obs} {i y : Nat} (hk : Kept s i y) (hy : y ∈ s.jobs.list i)
    (hne : y ≠ x) (h : Aside x l s t) (hs : Inv s)
    (hfreeing : ∀ k, s.consumer k = .freeing y → t.consumer k = .freeing y) : Kept t i y :=
  hk.same (.inl rfl) (h.jobs y hne) (Nat.le_of_eq h.accepted.symm)
    (fun _ ho => h.other hs hy hne ho) hfreeing

theorem Inv.aside {l : List Obs} (h : Inv s) (ha : Aside x l s t)
    (hthree : ∀ i, x ∈ t.jobs.list i → i < 3) (hkept : ∀ i, x ∈ t.jobs.list i → Kept t i x)
    (hgone : (∃ i, x ∈ s.jobs.list i) → (∀ i, x ∉ t.jobs.list i) → Gone t.log (serialOf s x))
    (hunused : x ∈ t.jobs.slots → (t.job x).inUse = false)
    (hworker : ∀ w, (t.worker w = s.worker w ∧ (s.worker w).held ≠ some x) ∨
      (t.worker w).Fine t.jobs t.log)
    (hsole : ∀ v w y, (t.worker v).held = some y → (t.worker w).held = some y → v = w)
    (hconsumer : ∀ k, (t.consumer k = s.consumer k ∧ (s.consumer k).held ≠ some x) ∨
      (t.consumer k).Fine t.jobs)
    (hsolo : ∀ j k y, (t.consumer j).held = some y → (t.consumer k).held = some y → j = k)
    (hfreeing : ∀ k y, y ≠ x → s.consumer k = .freeing y → t.consumer k = .freeing y)
    (hidle : ∀ k, t.consumerCount ≤ k → t.consumer k = .idle) (hlocked : Locked t)
    (hseen : ∀ w, t.worker w = .sawJob → t.jobs.list pending ≠ [])
    (hcancelled : ∀ n, Before t.log (.finish n) (.cancelled n))
    (hhanded : ∀ n, Before t.log (.touched n) (.done n)) : Inv t := by
  have hserial : ∀ i y, y ∈ t.jobs.list i → serialOf t y = serialOf s y ∧ ∃ j, y ∈ s.jobs.list j := by
    intro i y hy
    by_cases hne : y = x
    · subst hne
      exact ⟨ha.serial, ha.stays i hy⟩
    · exact ⟨congrArg (·.serial) (ha.jobs y hne), i, (ha.lists i y hne).1 hy⟩
  refine ⟨ha.wf, fun i y hy => ?_, fun i y hy => ?_, fun i j y z hy hz heq => ?_, fun y hy => ?_,
    fun n hn hno => ?_, fun o ho => ?_, fun w => ?_, hsole, fun k => ?_, hsolo, hidle, hlocked,
    hseen, hcancelled, hhanded⟩
  · by_cases hne : y = x
    · exact hthree i (hne ▸ hy)
    · exact h.three i y ((ha.lists i y hne).1 hy)
  · by_cases hne : y = x
    · subst hne
      exact hkept i hy
    · have hold := (ha.lists i y hne).1 hy
      exact (h.kept i y hold).aside hold hne ha h fun k hk => hfreeing k y hne hk
  · obtain ⟨hsy, i', hy⟩ := hserial i y hy
    obtain ⟨hsz, j', hz⟩ := hserial j z hz
    exact h.inj i' j' y z hy hz (hsy.symm.trans (heq.trans hsz))
  · by_cases hne : y = x
    · subst hne
      exact hunused hy
    · rw [ha.jobs y hne]
      exact h.unused y (ha.slots y hy hne)
  · rw [ha.accepted] at hn
    have hothers : ∀ i, ∀ y ∈ s.jobs.list i, y ≠ x → serialOf s y ≠ n := fun i y hy hne heq =>
      hno i y ((ha.lists i y hne).2 hy) ((congrArg (·.serial) (ha.jobs y hne)).trans heq)
    by_cases hx : (∃ i, x ∈ s.jobs.list i) ∧ serialOf s x = n
    · obtain ⟨hx, rfl⟩ := hx
      exact hgone hx fun i hin => hno i x hin ha.serial
    · have hgone := h.gone n hn fun i y hy => by
        by_cases hne : y = x
        · subst hne
          exact fun heq => hx ⟨⟨i, hy⟩, heq⟩
        · exact hothers i y hy hne
      have hcount : ∀ o : Obs, o.serial = n → t.log.count o = s.log.count o := by
        intro o ho
        refine ha.count ?_
        by_cases hl : l = []
        · exact .inl hl
        · exact .inr fun heq => hx ⟨ha.linked hl, heq.symm.trans ho⟩
      refine ⟨?_, ?_, ?_⟩
      · rw [hcount (.freed n) rfl]
        exact hgone.freed
      · rw [hcount (.ran n) rfl]
        exact hgone.ran
      · rw [hcount (.finish n) rfl]
        exact hgone.finish
  · rw [ha.accepted]
    rw [ha.log, mem_append] at ho
    rcases ho with ho | ho
    · exact h.known o ho
    · obtain ⟨i, hx⟩ := ha.linked (ne_nil_of_mem ho)
      rw [ha.concerns o ho]
      exact (h.kept i x hx).accepted
  · rcases hworker w with ⟨hsame, hheld⟩ | hfine
    · rw [hsame]
      exact (h.worker w).aside hheld ha h
    · exact hfine
  · rcases hconsumer k with ⟨hsame, hheld⟩ | hfine
    · rw [hsame]
      exact (h.consumer k).aside hheld ha
    · exact hfine

theorem Aside.of_setJob {l : List Obs} {f : ThreadPoolInstanceJob → ThreadPoolInstanceJob}
    (hs : Inv s) (hjobs : t.jobs = s.jobs.modifyData x f) (hf : ∀ j, (f j).serial = j.serial)
    (hlog : t.log = s.log ++ l) (hl : ∀ o ∈ l, o.serial = serialOf s x)
    (hlinked : l ≠ [] → ∃ i, x ∈ s.jobs.list i) (haccepted : t.accepted = s.accepted) :
    Aside x l s t := by
  have hlist : t.jobs.list = s.jobs.list := by rw [hjobs, modifyData_list]
  have hslots : t.jobs.slots = s.jobs.slots := by rw [hjobs, modifyData_slots]
  refine ⟨hjobs ▸ hs.wf.modifyData x f, fun i y _ => by rw [hlist], fun i hx => ?_, fun y hy _ => ?_,
    fun y hy => ?_, ?_, hlog, hl, hlinked, haccepted⟩
  · exact ⟨i, hlist ▸ hx⟩
  · exact hslots ▸ hy
  · simp only [ThreadPoolBase.job, hjobs]
    exact slotData_modifyData_of_ne _ _ _ hy
  · simp only [serialOf, ThreadPoolBase.job, hjobs, slotData_modifyData_self]
    exact hf _

theorem Inv.consumer_held_ne (h : Inv s) (hx : x ∈ s.jobs.list working) (k : Nat) :
    (s.consumer k).held ≠ some x := by
  intro hk
  exact absurd (h.wf.list_unique hx ((h.consumer k).mem hk)) (by decide)

theorem Inv.worker_held_ne (h : Inv s) (hx : x ∈ s.jobs.list done) (w : Nat) :
    (s.worker w).held ≠ some x := by
  intro hw
  exact absurd (h.wf.list_unique hx ((h.worker w).mem hw)) (by decide)

theorem Inv.others {w : Nat} (state : Worker) (h : Inv s) (hheld : (s.worker w).held = some x)
    (hworker : t.worker = (s.setWorker w state).worker) {v : Nat} (hv : v ≠ w) :
    t.worker v = s.worker v ∧ (s.worker v).held ≠ some x := by
  refine ⟨?_, fun hvx => hv (h.sole v w x hvx hheld)⟩
  rw [hworker, ThreadPoolBase.worker_setWorker_of_ne hv]

theorem Inv.step_worker {w i j : Nat} (next : Worker) {l : List Obs} (h : Inv s)
    (hx : x ∈ s.jobs.list i) (hi : i ≠ done) (ha : Aside x l s t)
    (hworker : t.worker = (s.setWorker w next).worker)
    (hnext : ∀ y, next.held = some y → y = x) (hfree : ∀ v, v ≠ w → (s.worker v).held ≠ some x)
    (hconsumer : t.consumer = s.consumer) (hcount : t.consumerCount = s.consumerCount)
    (hin : x ∈ t.jobs.list j) (hj : j < 3) (hkept : Kept t j x) (hfine : next.Fine t.jobs t.log)
    (hlocked : Locked t) (hsaw : next ≠ .sawJob)
    (hseen : ∀ v, v ≠ w → s.worker v = .sawJob → t.jobs.list pending ≠ [])
    (hcancelled : ∀ n, Before t.log (.finish n) (.cancelled n))
    (hhanded : ∀ n, Before t.log (.touched n) (.done n)) : Inv t := by
  have hplace : ∀ i, x ∈ t.jobs.list i → i = j := fun i hi => ha.wf.list_unique hi hin
  have hself : t.worker w = next := by rw [hworker, ThreadPoolBase.worker_setWorker_self]
  have hothers : ∀ v, v ≠ w → t.worker v = s.worker v := by
    intro v hv
    rw [hworker, ThreadPoolBase.worker_setWorker_of_ne hv]
  have hheld : ∀ v y, (t.worker v).held = some y →
      (v = w ∧ y = x) ∨ (v ≠ w ∧ (s.worker v).held = some y) := by
    intro v y hy
    by_cases hv : v = w
    · exact .inl ⟨hv, hnext y (by rw [← hself, ← hv]; exact hy)⟩
    · exact .inr ⟨hv, hothers v hv ▸ hy⟩
  refine h.aside ha (fun i hi => hplace i hi ▸ hj) (fun i hi => hplace i hi ▸ hkept)
    (fun _ hnone => absurd hin (hnone j)) (fun hfree => absurd hin (ha.wf.free_unlinked x hfree j))
    (fun v => ?_) (fun u v y hu hv => ?_) (fun k => .inl ⟨by rw [hconsumer], fun hk => ?_⟩)
    (by rw [hconsumer]; exact h.solo) (fun k y _ hk => by rw [hconsumer]; exact hk) (fun k hk => ?_)
    hlocked (fun v hv => ?_) hcancelled hhanded
  · by_cases hv : v = w
    · rw [hv, hself]
      exact .inr hfine
    · exact .inl ⟨hothers v hv, hfree v hv⟩
  · rcases hheld u y hu with ⟨rfl, rfl⟩ | ⟨huw, hu⟩
    · rcases hheld v y hv with ⟨rfl, -⟩ | ⟨hvw, hv⟩
      · rfl
      · exact absurd hv (hfree v hvw)
    · rcases hheld v y hv with ⟨rfl, rfl⟩ | ⟨-, hv⟩
      · exact absurd hu (hfree u huw)
      · exact h.sole u v y hu hv
  · exact hi (h.wf.list_unique hx ((h.consumer k).mem hk))
  · rw [hconsumer]
    exact h.idle k (hcount ▸ hk)
  · by_cases hvw : v = w
    · exact absurd (hself.symm.trans (hvw ▸ hv)) hsaw
    · exact hseen v hvw (hothers v hvw ▸ hv)

theorem Aside.of_relinkTail {i j : Nat} {l : List Obs} (h : Inv s) (hx : x ∈ s.jobs.list i)
    (hij : i ≠ j) (hjobs : t.jobs = s.jobs.relinkTail x j) (hlog : t.log = s.log ++ l)
    (hl : ∀ o ∈ l, o.serial = serialOf s x) (haccepted : t.accepted = s.accepted) :
    Aside x l s t ∧ x ∈ t.jobs.list j ∧ t.job x = s.job x := by
  have hmem : ∀ k y, y ∈ t.jobs.list k ↔ (y = x ∧ k = j) ∨ (y ≠ x ∧ y ∈ s.jobs.list k) := by
    intro k y
    rw [hjobs]
    exact h.wf.mem_relinkTail hx hij
  have hjob : ∀ y, t.job y = s.job y := by
    intro y
    simp only [ThreadPoolBase.job, hjobs, relinkTail_data]
  refine ⟨⟨hjobs ▸ h.wf.relinkTail hx hij, fun k y hne => ?_, fun _ _ => ⟨_, hx⟩, fun y hy _ => ?_,
    fun y _ => hjob y, congrArg (·.serial) (hjob x), hlog, hl, fun _ => ⟨_, hx⟩, haccepted⟩,
    (hmem j x).2 (.inl ⟨rfl, rfl⟩), hjob x⟩
  · rw [hmem]
    simp [hne]
  · rw [hjobs] at hy
    exact hy

theorem Inv.work {w : Nat} (next : Worker) {l : List Obs}
    {f : ThreadPoolInstanceJob → ThreadPoolInstanceJob} (h : Inv s)
    (hheld : (s.worker w).held = some x) (hnext : next.held = some x)
    (hjobs : t.jobs = s.jobs.modifyData x f)
    (hf : ∀ j, (f j).serial = j.serial ∧ (f j).cancelled = j.cancelled)
    (hlog : t.log = s.log ++ l)
    (hl : ∀ o ∈ l, o = .touched (serialOf s x) ∨ o = .ran (serialOf s x))
    (hran : s.log.count (.ran (serialOf s x)) + l.count (.ran (serialOf s x)) ≤ 1)
    (hworker : t.worker = (s.setWorker w next).worker) (haccepted : t.accepted = s.accepted)
    (hconsumer : t.consumer = s.consumer) (hcount : t.consumerCount = s.consumerCount)
    (hmutex : t.condMutex = s.condMutex) (hfine : next.Fine t.jobs t.log) : Inv t := by
  have hx := (h.worker w).mem hheld
  have hkept := h.kept working x hx
  have hlist : t.jobs.list = s.jobs.list := by rw [hjobs, modifyData_list]
  have ha : Aside x l s t := by
    refine .of_setJob h hjobs (fun j => (hf j).1) hlog (fun o ho => ?_) (fun _ => ⟨_, hx⟩) haccepted
    rcases hl o ho with rfl | rfl <;> rfl
  have hother : ∀ o : Obs, o ≠ .touched (serialOf s x) → o ≠ .ran (serialOf s x) → o ∉ l :=
    fun o htouched hran hin => (hl o hin).elim htouched hran
  have hsame : ∀ o : Obs, o ≠ .touched (serialOf s x) → o ≠ .ran (serialOf s x) →
      t.log.count o = s.log.count o := by
    intro o htouched hran
    rw [hlog, count_append, count_eq_zero_of_not_mem (hother o htouched hran), Nat.add_zero]
  have hundone := hkept.undone (by decide)
  have hself : t.job x = f (s.job x) := by
    simp only [ThreadPoolBase.job, hjobs, slotData_modifyData_self]
  refine h.step_worker next hx (by decide) ha hworker (fun y hy => ?_)
    (fun v hv hvx => hv (h.sole v w x hvx hheld)) hconsumer hcount (hlist ▸ hx) (by decide)
    ⟨?_, ?_, ?_, ?_, ?_, fun _ => ?_, fun hi => absurd hi (by decide),
      fun hi => absurd hi (by decide)⟩ hfine ?_ ?_ (fun v _ hv => ?_) (fun n => ?_) fun n => ?_
  · exact Option.some.inj (hy.symm.trans hnext)
  · rw [ha.serial, haccepted]
    exact hkept.accepted
  · rw [ha.serial, hself, (hf _).2, mem_iff_of_count (hsame (.cancelled _) nofun nofun)]
    exact hkept.flag
  · rw [ha.serial, hsame (.freed _) nofun nofun]
    exact hkept.freed
  · rw [ha.serial, hlog, count_append]
    exact hran
  · rw [ha.serial, hsame (.finish _) nofun nofun]
    exact hkept.finish
  · rw [ha.serial, mem_iff_of_count (hsame (.done _) nofun nofun), hsame (.finish _) nofun nofun]
    exact hundone
  · refine h.locked.setWorker next ⟨?_, ?_⟩ hworker (.inl hmutex) <;> rintro rfl <;>
      cases hnext
  · rintro rfl
    cases hnext
  · rw [hlist]
    exact h.seen v hv
  · rw [hlog]
    exact (h.cancelled n).append fun hin => absurd hin (hother (.finish n) nofun nofun)
  · rw [hlog]
    refine (h.handed n).append fun hin => ?_
    obtain rfl : n = serialOf s x := by
      rcases hl _ hin with heq | heq
      · exact Obs.touched.inj heq
      · cases heq
    exact ⟨hundone.1, hother (.done _) nofun nofun⟩

theorem Aside.pending_ne_nil {l : List Obs} (ha : Aside x l s t) (hx : x ∉ s.jobs.list pending)
    (hjobs : s.jobs.list pending ≠ []) : t.jobs.list pending ≠ [] := by
  obtain ⟨y, hy⟩ := exists_mem_of_ne_nil _ hjobs
  have hne : y ≠ x := fun heq => hx (heq ▸ hy)
  exact ne_nil_of_mem ((ha.lists pending y hne).2 hy)

theorem Inv.release {i : Nat} (h : Inv s) (hx : x ∈ s.jobs.list i) (hi : i ≠ pending)
    (huse : (s.job x).inUse = false) (hjobs : t.jobs = s.jobs.slotFree x)
    (hlog : t.log = s.log ++ [.freed (serialOf s x)]) (haccepted : t.accepted = s.accepted)
    (hworker : ∀ w, (t.worker w = s.worker w ∧ (s.worker w).held ≠ some x) ∨ t.worker w = .ready)
    (hconsumer : ∀ k, (t.consumer k = s.consumer k ∧ (s.consumer k).held ≠ some x) ∨
      (t.consumer k = .idle ∧ s.consumer k = .freeing x))
    (hcount : t.consumerCount = s.consumerCount) (hlocked : Locked t) : Inv t := by
  have hkept := h.kept i x hx
  have hmem : ∀ j y, y ∈ t.jobs.list j ↔ y ≠ x ∧ y ∈ s.jobs.list j := by
    intro j y
    rw [hjobs]
    exact h.wf.mem_slotFree hx
  have hjob : ∀ y, t.job y = s.job y := by
    intro y
    simp only [ThreadPoolBase.job, hjobs, slotFree_data]
  have ha : Aside x [.freed (serialOf s x)] s t := by
    refine ⟨hjobs ▸ h.wf.slotFree hx, fun j y hne => ?_, fun j hin => ?_, fun y hy hne => ?_,
      fun y _ => hjob y, congrArg (·.serial) (hjob x), hlog, fun o ho => ?_, fun _ => ⟨i, hx⟩,
      haccepted⟩
    · rw [hmem]
      exact and_iff_right hne
    · exact absurd rfl ((hmem j x).1 hin).1
    · rw [hjobs, h.wf.slotFree_slots hx] at hy
      exact (mem_cons.1 hy).resolve_left hne
    · rw [mem_singleton.1 ho]
      rfl
  have hwheld : ∀ w y, (t.worker w).held = some y → (s.worker w).held = some y := by
    intro w y hy
    rcases hworker w with ⟨hsame, -⟩ | hready
    · exact hsame ▸ hy
    · rw [hready] at hy
      cases hy
  have hcheld : ∀ k y, (t.consumer k).held = some y → (s.consumer k).held = some y := by
    intro k y hy
    rcases hconsumer k with ⟨hsame, -⟩ | ⟨hidle, -⟩
    · exact hsame ▸ hy
    · rw [hidle] at hy
      cases hy
  refine h.aside ha (fun j hin => ?_) (fun j hin => ?_) (fun _ _ => ⟨?_, ?_, ?_⟩) (fun _ => ?_)
    (fun w => ?_) (fun v w y hv hw => ?_) (fun k => ?_) (fun j k y hj hk => ?_)
    (fun k y hne hk => ?_) (fun k hk => ?_) hlocked (fun w hw => ?_) (fun n => ?_) fun n => ?_
  · exact absurd rfl ((hmem j x).1 hin).1
  · exact absurd rfl ((hmem j x).1 hin).1
  · rw [hlog, count_append, hkept.freed, count_singleton_self]
  · rw [hlog, count_append, count_singleton]
    exact hkept.ran
  · rw [hlog, count_append, count_singleton]
    exact hkept.finish
  · rw [hjob x]
    exact huse
  · rcases hworker w with hsame | hready
    · exact .inl hsame
    · rw [hready]
      exact .inr trivial
  · exact h.sole v w y (hwheld v y hv) (hwheld w y hw)
  · rcases hconsumer k with hsame | ⟨hidle, -⟩
    · exact .inl hsame
    · rw [hidle]
      exact .inr trivial
  · exact h.solo j k y (hcheld j y hj) (hcheld k y hk)
  · rcases hconsumer k with ⟨hsame, -⟩ | ⟨-, hfreeing⟩
    · exact hsame.trans hk
    · exact absurd (Consumer.freeing.inj (hk.symm.trans hfreeing)) hne
  · rcases hconsumer k with ⟨hsame, -⟩ | ⟨hidle, -⟩
    · exact hsame.trans (h.idle k (hcount ▸ hk))
    · exact hidle
  · rcases hworker w with ⟨hsame, -⟩ | hready
    · refine ha.pending_ne_nil (fun hin => hi (h.wf.list_unique hx hin)) (h.seen w (hsame ▸ hw))
    · rw [hready] at hw
      cases hw
  · rw [hlog]
    exact (h.cancelled n).append_of_notMem (by simp)
  · rw [hlog]
    exact (h.handed n).append_of_notMem (by simp)

theorem Inv.take {w : Nat} (h : Inv s) (hx : x ∈ s.jobs.list pending)
    (hstate : s.worker w = .sawJob) (hlocked : Locked t)
    (ht : t = { s.setWorker w (.took x) with
      jobs := s.jobs.relinkTail x working, condMutex := none }) : Inv t := by
  have hkept := h.kept pending x hx
  obtain ⟨huse, hran⟩ := hkept.isPending rfl
  have hlog : t.log = s.log := by rw [ht]; rfl
  have hconsumer : t.consumer = s.consumer := by rw [ht]; rfl
  obtain ⟨ha, hin, hjob⟩ := @Aside.of_relinkTail s t x pending working [] h hx (by decide)
    (by rw [ht]) (by rw [hlog, append_nil]) nofun (by rw [ht]; rfl)
  refine h.step_worker (.took x) hx (by decide) ha (by rw [ht]) (fun y hy => (Option.some.inj hy).symm)
    (fun v _ hv => ?_) hconsumer (by rw [ht]; rfl) hin (by decide) ?_ ⟨hin, ?_, ?_⟩ hlocked nofun
    (fun v hvw hv => ?_) (hlog ▸ h.cancelled) (hlog ▸ h.handed)
  · exact absurd (h.wf.list_unique hx ((h.worker v).mem hv)) (by decide)
  · exact hkept.same (.inr ⟨by decide, rfl⟩) hjob (Nat.le_of_eq ha.accepted.symm)
      (fun _ _ => by rw [hlog]) fun k hk => hconsumer ▸ hk
  · exact (congrArg (·.inUse) hjob).trans huse
  · rw [hlog, show (t.jobs.slotData x) = s.job x from hjob]
    exact hran
  · -- nobody else has seen the job, as the worker had the mutex
    have hmutex := (h.locked v (.inr hv)).symm.trans (h.locked w (.inr hstate))
    exact absurd (Option.some.inj hmutex) hvw

theorem Inv.switch {w : Nat} (h : Inv s) (hstate : s.worker w = .switching x) (hlocked : Locked t)
    (ht : t = { (s.setWorker w .ready).note [.done (serialOf s x)] with
      jobs := s.jobs.relinkTail x done }) : Inv t := by
  have hfine := h.worker w
  rw [hstate] at hfine
  obtain ⟨hx, huse, hfinished⟩ := hfine
  have hkept := h.kept working x hx
  obtain ⟨-, hfinish⟩ := hkept.undone (by decide)
  have hlog : t.log = s.log ++ [.done (serialOf s x)] := by rw [ht]; rfl
  obtain ⟨ha, hin, hjob⟩ := @Aside.of_relinkTail s t x working done [.done (serialOf s x)] h hx
    (by decide) (by rw [ht]) hlog (fun o ho => by rw [mem_singleton.1 ho]; rfl)
    (by rw [ht]; rfl)
  have hsame : ∀ o : Obs, o ≠ .done (serialOf s x) → t.log.count o = s.log.count o := by
    intro o ho
    rw [hlog, count_append, count_singleton]
    simp [ho.symm]
  have hheld : (s.worker w).held = some x := by
    rw [hstate]
    rfl
  refine h.step_worker .ready hx (by decide) ha (by rw [ht]; rfl) (fun y hy => by cases hy)
    (fun v hv hvx => hv (h.sole v w x hvx hheld)) (by rw [ht]; rfl) (by rw [ht]; rfl) hin (by decide)
    ⟨?_, ?_, ?_, ?_, ?_, fun hi => absurd rfl hi, fun hi => absurd hi (by decide), fun _ => ?_⟩
    trivial hlocked nofun (fun v _ hv => ?_) (fun n => ?_) fun n => ?_
  · rw [ha.serial, ha.accepted]
    exact hkept.accepted
  · rw [ha.serial, hjob, mem_iff_of_count (hsame (.cancelled _) nofun)]
    exact hkept.flag
  · rw [ha.serial, hsame (.freed _) nofun]
    exact hkept.freed
  · rw [ha.serial, hsame (.ran _) nofun]
    exact hkept.ran
  · rw [ha.serial, hsame (.finish _) nofun]
    exact hkept.finish
  · rw [ha.serial, hjob, hsame (.finish _) nofun]
    exact ⟨huse, hfinished, .inl hfinish⟩
  · exact ha.pending_ne_nil (fun hin => absurd (h.wf.list_unique hx hin) (by decide)) (h.seen v hv)
  · rw [hlog]
    exact (h.cancelled n).append_of_notMem (by simp)
  · rw [hlog]
    exact (h.handed n).append_of_notMem (by simp)

theorem Inv.finish {k : Nat} (h : Inv s) (hstate : s.consumer k = .calling x) (hlocked : Locked t)
    (ht : t = (s.setConsumer k (.freeing x)).note [.finish (serialOf s x)]) : Inv t := by
  have hfine := h.consumer k
  rw [hstate] at hfine
  obtain ⟨hx, hcancelled⟩ := hfine
  have hkept := h.kept done x hx
  obtain ⟨huse, hfinished, hcount⟩ := hkept.isDone rfl
  have hjobs : t.jobs = s.jobs := by rw [ht]; rfl
  have hlog : t.log = s.log ++ [.finish (serialOf s x)] := by rw [ht]; rfl
  have hworker : t.worker = s.worker := by rw [ht]; rfl
  have hself : t.consumer k = .freeing x := by rw [ht]; exact update_self ..
  have hothers : ∀ j, j ≠ k → t.consumer j = s.consumer j := by
    intro j hj
    rw [ht]
    exact update_of_ne hj ..
  have hheld : (s.consumer k).held = some x := by
    rw [hstate]
    rfl
  -- the job was not finished, as only this consumer points to it
  have hnever : s.log.count (.finish (serialOf s x)) = 0 := by
    rcases hcount with hzero | ⟨j, hj⟩
    · exact hzero
    · obtain rfl := h.solo j k x (by rw [hj]; rfl) hheld
      rw [hstate] at hj
      cases hj
  have hunflagged : Obs.cancelled (serialOf s x) ∉ s.log := fun hin => by
    rw [← hkept.flag, show (s.job x).cancelled = false from hcancelled] at hin
    cases hin
  have ha : Aside x [.finish (serialOf s x)] s t := by
    refine ⟨hjobs ▸ h.wf, fun j y _ => by rw [hjobs], fun j _ => ⟨_, hx⟩, fun y hy _ => hjobs ▸ hy,
      fun y _ => ?_, ?_, hlog, fun o ho => ?_, fun _ => ⟨_, hx⟩, by rw [ht]; rfl⟩
    · rw [ThreadPoolBase.job, hjobs, ThreadPoolBase.job]
    · rw [serialOf, ThreadPoolBase.job, hjobs, serialOf, ThreadPoolBase.job]
    · rw [mem_singleton.1 ho]
      rfl
  have hsame : ∀ o : Obs, o ≠ .finish (serialOf s x) → t.log.count o = s.log.count o := by
    intro o ho
    rw [hlog, count_append, count_singleton]
    simp [ho.symm]
  have hplace : ∀ i, x ∈ t.jobs.list i → i = done := fun i hi =>
    h.wf.list_unique (hjobs ▸ hi) hx
  have hjob : t.job x = s.job x := by rw [ThreadPoolBase.job, hjobs, ThreadPoolBase.job]
  have hcheld : ∀ j y, (t.consumer j).held = some y → (s.consumer j).held = some y := by
    intro j y hy
    by_cases hj : j = k
    · subst hj
      rw [hself] at hy
      rw [hheld]
      exact hy
    · rwa [hothers j hj] at hy
  refine h.aside ha (fun i hi => ?_) (fun i hi => ?_) (fun _ hnone => ?_) (fun hfree => ?_)
    (fun v => ?_) ?_ (fun j => ?_) (fun i j y hi hj => ?_) (fun j y hne hj => ?_) (fun j hj => ?_)
    hlocked (fun v hv => ?_) (fun n => ?_) fun n => ?_
  · rw [hplace i hi]
    decide
  · obtain rfl := hplace i hi
    refine ⟨?_, ?_, ?_, ?_, ?_, fun hi => absurd rfl hi, fun hi => absurd hi (by decide),
      fun _ => ?_⟩ <;> rw [ha.serial]
    · rw [ha.accepted]
      exact hkept.accepted
    · rw [hjob, mem_iff_of_count (hsame (.cancelled _) nofun)]
      exact hkept.flag
    · rw [hsame (.freed _) nofun]
      exact hkept.freed
    · rw [hsame (.ran _) nofun]
      exact hkept.ran
    · rw [hlog, count_append, hnever]
      simp
    · rw [hjob]
      exact ⟨huse, hfinished, .inr ⟨k, hself⟩⟩
  · exact absurd (hjobs ▸ hx) (hnone done)
  · rw [hjobs] at hfree
    exact absurd hx (h.wf.free_unlinked x hfree done)
  · rw [hworker]
    exact .inl ⟨rfl, h.worker_held_ne hx v⟩
  · rw [hworker]
    exact h.sole
  · by_cases hj : j = k
    · rw [hj, hself]
      exact .inr (hjobs ▸ hx)
    · exact .inl ⟨hothers j hj, fun hjx => hj (h.solo j k x hjx hheld)⟩
  · exact h.solo i j y (hcheld i y hi) (hcheld j y hj)
  · have hjk : j ≠ k := by
      rintro rfl
      rw [hstate] at hj
      cases hj
    exact (hothers j hjk).trans hj
  · have hjk : j ≠ k := by
      rintro rfl
      have hidle := h.idle j (by rw [ht] at hj; exact hj)
      rw [hstate] at hidle
      cases hidle
    exact (hothers j hjk).trans (h.idle j (by rw [ht] at hj; exact hj))
  · rw [hjobs]
    exact h.seen v (hworker ▸ hv)
  · rw [hlog]
    refine (h.cancelled n).append fun hin => ?_
    obtain rfl : n = serialOf s x := by simpa using hin
    exact ⟨hunflagged, by simp⟩
  · rw [hlog]
    exact (h.handed n).append_of_notMem (by simp)

theorem Inv.cancel (h : Inv s) (hcalling : ∀ k, s.consumer k ≠ .calling x) (hlocked : Locked t)
    (ht : t = (s.note (if linked s x then [.cancelled (serialOf s x)] else [])).setJob x
      fun job => { job with cancelled := true }) : Inv t := by
  have hlinked := linked_iff h.three x
  generalize hl : (if linked s x then [Obs.cancelled (serialOf s x)] else []) = l at ht
  have hmem : ∀ o ∈ l, o = .cancelled (serialOf s x) ∧ ∃ i, x ∈ s.jobs.list i := by
    intro o ho
    rw [← hl] at ho
    split at ho
    · exact ⟨mem_singleton.1 ho, hlinked.1 ‹_›⟩
    · cases ho
  have hjobs : t.jobs = s.jobs.modifyData x fun job => { job with cancelled := true } := by
    rw [ht]
    rfl
  have hlist : t.jobs.list = s.jobs.list := by rw [hjobs, modifyData_list]
  have hlog : t.log = s.log ++ l := by rw [ht]; rfl
  have hworker : t.worker = s.worker := by rw [ht]; rfl
  have hconsumer : t.consumer = s.consumer := by rw [ht]; rfl
  have hself : t.jobs.slotData x = { s.job x with cancelled := true } := by
    rw [hjobs, slotData_modifyData_self]
    rfl
  have ha : Aside x l s t := by
    refine .of_setJob h hjobs (fun _ => rfl) hlog (fun o ho => ?_) (fun hne => ?_) (by rw [ht]; rfl)
    · rw [(hmem o ho).1]
      rfl
    · obtain ⟨o, ho⟩ := exists_mem_of_ne_nil _ hne
      exact (hmem o ho).2
  have hsame : ∀ o : Obs, o ≠ .cancelled (serialOf s x) → t.log.count o = s.log.count o := by
    intro o ho
    have hnone : o ∉ l := fun hin => ho (hmem o hin).1
    rw [hlog, count_append, count_eq_zero_of_not_mem hnone, Nat.add_zero]
  have hran : t.log.count (.ran (s.jobs.slotData x).serial) =
      s.log.count (.ran (s.jobs.slotData x).serial) := hsame (.ran _) nofun
  have hfine : ∀ w, (s.worker w).Fine t.jobs t.log := by
    intro w
    by_cases hw : (s.worker w).held = some x
    · have hold := h.worker w
      cases hs : s.worker w <;> rw [hs] at hw hold <;>
        simp only [Worker.held, Option.some.injEq, reduceCtorEq] at hw
      all_goals subst hw
      all_goals
        simp only [Worker.Fine, hlist, hself, ThreadPoolBase.job, hran] at hold ⊢
        exact hold
    · exact (h.worker w).aside hw ha h
  refine h.aside ha (fun i hi => ?_) (fun i hi => ?_) (fun hin hnone => ?_) (fun hfree => ?_)
    (fun w => .inr ?_) ?_ (fun k => .inr ?_) ?_ (fun k y _ hk => ?_) (fun k hk => ?_) hlocked
    (fun w hw => ?_) (fun n => ?_) fun n => ?_
  · exact h.three i x (hlist ▸ hi)
  · have hx := hlist ▸ hi
    have hkept := h.kept i x hx
    refine ⟨?_, ?_, ?_, ?_, ?_, fun hi => ?_, fun hi => ?_, fun hi => ?_⟩ <;> rw [ha.serial]
    · rw [ha.accepted]
      exact hkept.accepted
    · have hnoted : Obs.cancelled (serialOf s x) ∈ t.log := by
        rw [hlog, ← hl, if_pos (hlinked.2 ⟨i, hx⟩)]
        simp
      rw [show t.job x = _ from hself]
      exact iff_of_true rfl hnoted
    · rw [hsame (.freed _) nofun]
      exact hkept.freed
    · rw [hsame (.ran _) nofun]
      exact hkept.ran
    · rw [hsame (.finish _) nofun]
      exact hkept.finish
    · rw [mem_iff_of_count (hsame (.done _) nofun), hsame (.finish _) nofun]
      exact hkept.undone hi
    · rw [show t.job x = _ from hself, hsame (.ran _) nofun]
      exact hkept.isPending hi
    · rw [show t.job x = _ from hself, hsame (.finish _) nofun, hconsumer]
      exact hkept.isDone hi
  · obtain ⟨i, hi⟩ := hin
    exact absurd (hlist ▸ hi) (hnone i)
  · rw [hjobs, modifyData_slots] at hfree
    rw [show t.job x = _ from hself]
    exact h.unused x hfree
  · rw [hworker]
    exact hfine w
  · rw [hworker]
    exact h.sole
  · rw [hconsumer]
    by_cases hk : (s.consumer k).held = some x
    · have hold := h.consumer k
      cases hs : s.consumer k <;> rw [hs] at hk hold <;>
        simp only [Consumer.held, Option.some.injEq, reduceCtorEq] at hk
      all_goals subst hk
      · simpa only [Consumer.Fine, hlist] using hold
      · exact absurd hs (hcalling k)
      · simpa only [Consumer.Fine, hlist] using hold
    · exact (h.consumer k).aside hk ha
  · rw [hconsumer]
    exact h.solo
  · rw [hconsumer]
    exact hk
  · rw [hconsumer]
    exact h.idle k (by rw [ht] at hk; exact hk)
  · rw [hlist]
    exact h.seen w (hworker ▸ hw)
  · rw [hlog]
    exact (h.cancelled n).append fun hin => nomatch (hmem _ hin).1
  · rw [hlog]
    exact (h.handed n).append fun hin => nomatch (hmem _ hin).1

theorem Inv.unknown (h : Inv s) {o : Obs} (ho : s.accepted ≤ o.serial) : s.log.count o = 0 :=
  count_eq_zero_of_not_mem fun hin => absurd (h.known o hin) (by omega)

theorem Inv.enqueue {proto : JobProto} {jobs : MemSlotBase ThreadPoolInstanceJob} (h : Inv s)
    (hgrab : s.jobs.slotGrab = some (x, jobs)) (hlocked : Locked t)
    (ht : t = { s with
      jobs := jobs.modifyData x fun _ =>
        { retValType := proto.retValType, finishCbh := proto.finishCbh, inUse := true
          serial := s.accepted }
      signals := s.signals + 1
      accepted := s.accepted + 1
      log := s.log ++ [Obs.accepted s.accepted] }) : Inv t := by
  have hfresh := h.wf.slotGrab_fresh hgrab
  have hmem : ∀ j y, y ∈ t.jobs.list j ↔ (y = x ∧ j = pending) ∨ y ∈ s.jobs.list j := by
    intro j y
    rw [ht]
    exact mem_slotGrab hgrab
  have hjobs : t.jobs = jobs.modifyData x fun _ =>
      { retValType := proto.retValType, finishCbh := proto.finishCbh, inUse := true
        serial := s.accepted } := by rw [ht]
  have hnew : t.job x =
      { retValType := proto.retValType, finishCbh := proto.finishCbh, inUse := true
        serial := s.accepted } := by
    rw [ThreadPoolBase.job, hjobs]
    exact slotData_modifyData_self ..
  have hold : ∀ y, y ≠ x → t.job y = s.job y := by
    intro y hne
    rw [ThreadPoolBase.job, hjobs]
    exact (slotData_modifyData_of_ne _ _ _ hne).trans (slotGrab_data hgrab y)
  have hne : ∀ i, ∀ y ∈ s.jobs.list i, y ≠ x := fun i y hy heq => hfresh i (heq ▸ hy)
  have hlog : t.log = s.log ++ [.accepted s.accepted] := by rw [ht]
  have haccepted : t.accepted = s.accepted + 1 := by rw [ht]
  have hsame : ∀ o : Obs, o ≠ .accepted s.accepted → t.log.count o = s.log.count o := by
    intro o ho
    rw [hlog, count_append, count_singleton]
    simp [ho.symm]
  have hworker : t.worker = s.worker := by rw [ht]
  have hconsumer : t.consumer = s.consumer := by rw [ht]
  have hserial : serialOf t x = s.accepted := congrArg (·.serial) hnew
  refine ⟨?_, fun i y hy => ?_, fun i y hy => ?_, fun i j y z hy hz heq => ?_, fun y hy => ?_,
    fun n hn hno => ?_, fun o ho => ?_, fun w => ?_, fun v w y hv hw => ?_, fun k => ?_,
    fun i j y hi hj => ?_, fun k hk => ?_, hlocked, fun w hw => ?_, fun n => ?_, fun n => ?_⟩
  · rw [hjobs]
    exact (h.wf.slotGrab hgrab).modifyData x _
  · rcases (hmem i y).1 hy with ⟨-, rfl⟩ | hy
    · decide
    · exact h.three i y hy
  · rcases (hmem i y).1 hy with ⟨rfl, rfl⟩ | hy
    · -- the new job
      refine ⟨?_, ?_, ?_, ?_, ?_, fun _ => ⟨?_, ?_⟩, fun _ => ⟨?_, ?_⟩,
        fun hi => absurd hi (by decide)⟩ <;> try rw [hserial]
      · rw [haccepted]
        exact Nat.lt_succ_self _
      · rw [hnew, ← count_pos_iff, hsame (.cancelled _) nofun,
          h.unknown (o := .cancelled _) (Nat.le_refl _)]
        simp
      · rw [hsame (.freed _) nofun, h.unknown (o := .freed _) (Nat.le_refl _)]
      · rw [hsame (.ran _) nofun, h.unknown (o := .ran _) (Nat.le_refl _)]
        exact Nat.zero_le _
      · rw [hsame (.finish _) nofun, h.unknown (o := .finish _) (Nat.le_refl _)]
        exact Nat.zero_le _
      · rw [← count_pos_iff, hsame (.done _) nofun,
          h.unknown (o := .done _) (Nat.le_refl _)]
        exact Nat.lt_irrefl 0
      · rw [hsame (.finish _) nofun, h.unknown (o := .finish _) (Nat.le_refl _)]
      · rw [hnew]
      · rw [hsame (.ran _) nofun, h.unknown (o := .ran _) (Nat.le_refl _)]
    · have hkept := h.kept i y hy
      refine hkept.same (.inl rfl) (hold y (hne i y hy)) (by omega) (fun o ho => hsame o ?_)
        fun k hk => hconsumer ▸ hk
      rintro rfl
      exact absurd ho (Nat.ne_of_gt hkept.accepted)
  · rcases (hmem i y).1 hy with ⟨rfl, -⟩ | hy
    · rcases (hmem j z).1 hz with ⟨rfl, -⟩ | hz
      · rfl
      · have hlt := (h.kept j z hz).accepted
        rw [hserial, serialOf, hold z (hne j z hz)] at heq
        exact absurd heq (Nat.ne_of_gt hlt)
    · rcases (hmem j z).1 hz with ⟨rfl, -⟩ | hz
      · have hlt := (h.kept i y hy).accepted
        rw [hserial, serialOf, hold y (hne i y hy)] at heq
        exact absurd heq (Nat.ne_of_lt hlt)
      · rw [serialOf, serialOf, hold y (hne i y hy), hold z (hne j z hz)] at heq
        exact h.inj i j y z hy hz heq
  · have hslots : s.jobs.slots = x :: t.jobs.slots := by
      rw [ht]
      exact (slotGrab_eq_some hgrab).1
    have hnodup := h.wf.free_nodup
    rw [hslots, nodup_cons] at hnodup
    rw [hold y fun heq => hnodup.1 (heq ▸ hy)]
    exact h.unused y (by rw [hslots]; exact mem_cons_of_mem _ hy)
  · have hnx : n ≠ s.accepted := fun heq =>
      hno pending x ((hmem _ _).2 (.inl ⟨rfl, rfl⟩)) (hserial.trans heq.symm)
    have hgone := h.gone n (by omega) fun i y hy heq =>
      hno i y ((hmem i y).2 (.inr hy)) ((congrArg (·.serial) (hold y (hne i y hy))).trans heq)
    refine ⟨?_, ?_, ?_⟩
    · rw [hsame (.freed _) nofun]
      exact hgone.freed
    · rw [hsame (.ran _) nofun]
      exact hgone.ran
    · rw [hsame (.finish _) nofun]
      exact hgone.finish
  · rw [haccepted]
    rw [hlog, mem_append, mem_singleton] at ho
    rcases ho with ho | rfl
    · exact Nat.lt_succ_of_lt (h.known o ho)
    · exact Nat.lt_succ_self _
  · rw [hworker]
    have hfine := h.worker w
    cases hs : s.worker w <;> rw [hs] at hfine <;> try trivial
    case took y | running y | returned y | switching y | cleanUp y | freeing y =>
      have hy := Worker.Fine.mem hfine rfl
      have hin := (hmem working y).2 (.inr hy)
      have hjob : t.jobs.slotData y = s.jobs.slotData y := hold y (hne working y hy)
      simp only [Worker.Fine, hjob] at hfine ⊢
      grind
  · rw [hworker] at hv hw
    exact h.sole v w y hv hw
  · rw [hconsumer]
    have hfine := h.consumer k
    cases hs : s.consumer k <;> rw [hs] at hfine <;> try trivial
    case pointing y | freeing y | calling y =>
      have hy := Consumer.Fine.mem hfine rfl
      have hin := (hmem done y).2 (.inr hy)
      have hjob : t.jobs.slotData y = s.jobs.slotData y := hold y (hne done y hy)
      simp only [Consumer.Fine, hjob] at hfine ⊢
      grind
  · rw [hconsumer] at hi hj
    exact h.solo i j y hi hj
  · rw [hconsumer]
    exact h.idle k (by rw [ht] at hk; exact hk)
  · exact ne_nil_of_mem ((hmem pending x).2 (.inl ⟨rfl, rfl⟩))
  · rw [hlog]
    exact (h.cancelled n).append_of_notMem (by simp)
  · rw [hlog]
    exact (h.handed n).append_of_notMem (by simp)

/-! ## One step -/

/-- **One step.**  An orderly step of a thread keeps the invariant. -/
theorem Act.inv (h : Act s e t) (horderly : Orderly s e) (hs : Inv s) : Inv t := by
  have hlocked := h.locked hs.locked
  cases h with
  | stay => exact hs
  | grow hmax t ht =>
      subst ht
      refine hs.still rfl rfl rfl rfl (fun w => ?_) hs.consumer hs.solo hs.idle
        (fun _ _ hk => hk) hlocked
      simp only [threadsLauch]
      split
      · exact .inr ⟨rfl, trivial, (by simp)⟩
      · exact .inl rfl
  | enqueue proto x jobs hgrab t ht => exact hs.enqueue hgrab hlocked ht
  | signal w _ _ _ t ht =>
      subst ht
      exact hs.still_worker .woken ⟨rfl, trivial⟩ (by simp) rfl rfl rfl rfl rfl rfl hlocked
  | unheard w _ _ t ht =>
      subst ht
      exact hs.still rfl rfl rfl rfl (fun _ => .inl rfl) hs.consumer hs.solo hs.idle
        (fun _ _ hk => hk) hlocked
  | cancel x t ht =>
      refine hs.cancel (fun k => ?_) hlocked ht
      by_cases hk : k < s.consumerCount
      · exact horderly k hk
      · rw [hs.idle k (Nat.le_of_not_lt hk)]
        simp
  | wakeUp w _ t ht =>
      subst ht
      exact hs.still_worker .woken ⟨rfl, trivial⟩ (by simp) rfl rfl rfl rfl rfl rfl hlocked
  | free w _ _ t ht =>
      subst ht
      exact hs.still_worker .free ⟨rfl, trivial⟩ (by simp) rfl rfl rfl rfl rfl rfl hlocked
  | lock w _ _ _ t ht =>
      subst ht
      refine hs.still_worker (w := w)
        (if s.jobs.list pending = [] then .sawEmpty else .sawJob) ?_ ?_ rfl rfl rfl rfl
        rfl rfl hlocked
      · split <;> exact ⟨rfl, trivial⟩
      · intro hsaw hnil
        rw [if_pos hnil] at hsaw
        cases hsaw
  | wait w _ _ t ht =>
      subst ht
      exact hs.still_worker .waiting ⟨rfl, trivial⟩ (by simp) rfl rfl rfl rfl rfl rfl hlocked
  | take w _ hstate x rest hlist t ht =>
      exact hs.take (hlist ▸ mem_cons_self) hstate hlocked ht
  | skip w _ x hstate _ t ht =>
      have hx := hs.worker w
      rw [hstate] at hx
      subst ht
      refine hs.work (w := w) (x := x) (.cleanUp x) (f := fun job => job)
        (by rw [hstate]; rfl) rfl ?_ (fun _ => ⟨rfl, rfl⟩) rfl ?_ ?_ rfl rfl rfl rfl rfl hx.1
      · exact (modifyData_id ..).symm
      · simp
      · exact (hs.kept working x hx.1).ran
  | begin w _ x hstate t ht =>
      have hx := hs.worker w
      rw [hstate] at hx
      subst ht
      refine hs.work (w := w) (x := x) (.running x)
        (f := fun job => { job with runThreadId := w }) (by rw [hstate]; rfl) rfl rfl
        (fun _ => ⟨rfl, rfl⟩) rfl ?_ ?_ rfl rfl rfl rfl rfl ?_
      · simp
      · exact (hs.kept working x hx.1).ran
      · refine ⟨hx.1, ?_⟩
        have hserial : ((s.jobs.modifyData x fun job => { job with runThreadId := w }).slotData
            x).serial = serialOf s x := by
          rw [slotData_modifyData_self]
          rfl
        change (s.log ++ [Obs.touched (serialOf s x)]).count (Obs.ran ((s.jobs.modifyData x
          fun job => { job with runThreadId := w }).slotData x).serial) = 0
        rw [hserial, count_append, count_singleton]
        exact hx.2.2
  | run w _ x hstate next hnext t ht =>
      have hx := hs.worker w
      rw [hstate] at hx
      subst ht
      refine hs.work (w := w) (x := x) next (f := fun job => job) (by rw [hstate]; rfl)
        ?_ ?_ (fun _ => ⟨rfl, rfl⟩) rfl ?_ ?_ rfl rfl rfl rfl rfl ?_
      · rcases hnext with rfl | rfl <;> rfl
      · exact (modifyData_id ..).symm
      · simp
      · rw [show s.log.count (.ran (serialOf s x)) = 0 from hx.2]
        simp
      · rcases hnext with rfl | rfl <;> exact hx.1
  | mark w _ x next hstate t ht =>
      have hheld : (s.worker w).held = some x := by
        rcases hstate with ⟨hstate, -⟩ | ⟨hstate, -⟩ <;> rw [hstate] <;> rfl
      have hx := (hs.worker w).mem hheld
      subst ht
      refine hs.work (w := w) (x := x) next
        (f := fun job => { job with inUse := false, finished := true }) hheld ?_ rfl
        (fun _ => ⟨rfl, rfl⟩) rfl ?_ (hs.kept working x hx).ran rfl rfl rfl rfl rfl ?_
      · rcases hstate with ⟨-, rfl⟩ | ⟨-, rfl⟩ <;> rfl
      · simp
      · have hself := slotData_modifyData_self s.jobs x fun job =>
          { job with inUse := false, finished := true }
        rcases hstate with ⟨-, rfl⟩ | ⟨-, rfl⟩
        · exact ⟨hx, congrArg (·.inUse) hself, congrArg (·.finished) hself⟩
        · exact ⟨hx, congrArg (·.inUse) hself⟩
  | switch w _ x hstate t ht =>
      have hfinish : s.finishNotify = false := horderly (by rw [hstate]; rfl)
      rw [hfinish] at ht
      exact hs.switch hstate hlocked ht
  | notify w _ x serial hstate t ht =>
      have hfine := hs.worker w
      rw [hstate] at hfine
      exact hfine.elim
  | release w _ x hstate t ht =>
      have hfine := hs.worker w
      rw [hstate] at hfine
      subst ht
      have hheld : (s.worker w).held = some x := by
        rw [hstate]
        rfl
      refine hs.release hfine.1 (by decide) hfine.2 rfl rfl rfl (fun v => ?_) (fun k => ?_) rfl
        hlocked
      · by_cases hv : v = w
        · rw [hv]
          exact .inr ThreadPoolBase.worker_setWorker_self
        · exact .inl (hs.others .ready hheld rfl hv)
      · exact .inl ⟨rfl, hs.consumer_held_ne hfine.1 k⟩
  | point k hk hstate x rest hlist t ht =>
      have hx : x ∈ s.jobs.list done := hlist ▸ mem_cons_self
      subst ht
      have hnobody : ∀ j, (s.consumer j).held ≠ some x := by
        intro j
        by_cases hj : j < s.consumerCount
        · have hhead : s.jobs.slotPointToHead done = some x := by
            rw [slotPointToHead, hlist]
            rfl
          exact hhead ▸ horderly hstate (by rw [hhead]; simp) j hj
        · rw [hs.idle j (Nat.le_of_not_lt hj)]
          simp [Consumer.held]
      exact hs.still_consumer (.pointing x) hk (by rw [hstate]; simp) rfl hx
        (fun j _ => hnobody j) rfl rfl rfl rfl rfl rfl hlocked
  | decide k hk x hstate next hnext t ht =>
      have hx := hs.consumer k
      rw [hstate] at hx
      have hheld : (s.consumer k).held = some x := by
        rw [hstate]
        rfl
      subst ht
      refine hs.still_consumer next hk (by rw [hstate]; simp) ?_ ?_
        (fun j hj hjx => hj (hs.solo j k x hjx hheld)) rfl rfl rfl rfl rfl rfl hlocked
      · rcases hnext with ⟨rfl, -⟩ | rfl <;> rfl
      · rcases hnext with ⟨rfl, hcancelled⟩ | rfl
        · exact ⟨hx, hcancelled⟩
        · exact hx
  | finish k _ x hstate t ht => exact hs.finish hstate hlocked ht
  | consumed k _ x hstate t ht =>
      have hx := hs.consumer k
      rw [hstate] at hx
      subst ht
      have hheld : (s.consumer k).held = some x := by
        rw [hstate]
        rfl
      refine hs.release hx (by decide) ((hs.kept done x hx).isDone rfl).1 rfl rfl rfl (fun w => ?_)
        (fun j => ?_) rfl hlocked
      · exact .inl ⟨rfl, hs.worker_held_ne hx w⟩
      · by_cases hj : j = k
        · rw [hj]
          exact .inr ⟨update_self .., hstate⟩
        · refine .inl ⟨update_of_ne hj .., fun hjx => hj (hs.solo j k x hjx hheld)⟩

theorem Inv.not_aborts (h : Inv s) : ¬ Aborts s := by
  rintro (⟨x, jobs, hgrab, huse⟩ | ⟨w, hstate, hlist⟩ | ⟨w, x, hstate, huse⟩ | ⟨k, x, hstate, hno⟩)
  · rw [slotGrab_data hgrab] at huse
    have hfree : x ∈ s.jobs.slots := by
      rw [(slotGrab_eq_some hgrab).1]
      exact mem_cons_self
    exact absurd huse (by rw [show (s.jobs.slotData x).inUse = false from h.unused x hfree]; nofun)
  · exact h.seen w hstate hlist
  · have hfine := h.worker w
    rw [hstate] at hfine
    rw [show (s.job x).inUse = true from hfine.2.1] at huse
    cases huse
  · have hx := h.consumer k
    rw [hstate] at hx
    obtain ⟨huse, hfinished, -⟩ := (h.kept done x hx).isDone rfl
    exact hno ⟨huse, hfinished⟩

theorem inv_new (conf : ThreadPoolBaseConfig) : Inv (new conf) where
  wf := wf_init _ _
  three _ _ hx := nomatch hx
  kept _ _ hx := nomatch hx
  inj _ _ _ _ hx := nomatch hx
  unused _ _ := rfl
  gone _ hn := nomatch hn
  known _ ho := nomatch ho
  worker w := by
    simp only [new, threadsLauch]
    split <;> trivial
  sole v w x hv := by
    simp only [new, threadsLauch] at hv
    split at hv <;> cases hv
  consumer _ := trivial
  solo _ _ _ hx := nomatch hx
  idle _ _ := rfl
  locked w hw := by
    simp only [new, threadsLauch] at hw
    split at hw <;> simp at hw
  seen w hw := by
    simp only [new, threadsLauch] at hw
    split at hw <;> cases hw
  cancelled _ := before_nil
  handed _ := before_nil

/-- **The life of a job.**  In every run of orderly steps no assertion fails, and after each
step the jobs are run, finished, released and handed over as promised. -/
theorem jobs_proper (conf : ThreadPoolBaseConfig) (evs : List Event)
    (horderly : Runs.Meets handle Orderly (.live (new conf)) evs) :
    (runFrom conf evs).fault = none ∧ Proper (runFrom conf evs).state := by
  have hstep : ∀ e s, Inv s → Orderly s e →
      Ends (handle e) s (fun _ => Inv) fun _ _ => False := by
    intro e s hs he
    refine (handle_acts e).mono (fun _ t ht => ht.inv he hs) fun _ t ht => ?_
    exact hs.not_aborts ht.2
  have h := Runs.invariant_run_of hstep (c := .live (new conf)) (inv_new conf) evs horderly
  exact ⟨h.safe.1, h.safe.2.proper⟩

instance (s : ThreadPoolBase) (e : Event) : Decidable (Orderly s e) :=
  match e with
  | .worker _ | .consumer _ => inferInstanceAs (Decidable (_ → _))
  | .cancel x => inferInstanceAs (Decidable (∀ k < s.consumerCount, s.consumer k ≠ .calling x))
  | .grow | .enqueue _ | .signal _ | .wakeUp _ => isTrue trivial

/-- A worker waits, runs a job and gives it away, and it is cancelled, consumed and released;
another job has no value and is released by the worker. -/
def orderlyRun : List Event :=
  [.worker 0, .worker 0, .worker 0, .enqueue ⟨.int, true⟩, .signal 0] ++
    List.replicate 6 (.worker 0) ++ [.consumer 0, .consumer 0, .consumer 0, .cancel 0, .consumer 0,
    .enqueue ⟨.none, true⟩] ++ List.replicate 7 (.worker 0)

theorem jobs_proper_orderly :
    (runFrom { finishNotify := false } orderlyRun).fault = none ∧
      Proper (runFrom { finishNotify := false } orderlyRun).state :=
  jobs_proper _ _ (by decide +kernel)

example : (runFrom { finishNotify := false } orderlyRun).state.log.getLast? = some (.freed 1) := by
  decide +kernel

/-- With notifications the worker reads the job after it put it on the DONE list. -/
theorem notify_touches_done :
    ¬ Proper (runFrom { finishNotify := true }
      ([.worker 0, .enqueue ⟨.int, true⟩] ++ List.replicate 7 (.worker 0))).state := by
  intro h
  have hlog : (runFrom { finishNotify := true }
      ([.worker 0, .enqueue ⟨.int, true⟩] ++ List.replicate 7 (.worker 0))).state.log =
      [.accepted 0, .touched 0, .ran 0, .touched 0, .touched 0, .done 0] ++ .touched 0 :: [] := by
    decide +kernel
  exact h.handed 0 _ _ hlog (by decide)

/-- A job that a worker has is on the WORKING list, one that a consumer has is on the DONE list,
and no other thread has it. -/
structure Unshared (s : ThreadPoolBase) : Prop where
  worker : ∀ w x, (s.worker w).held = some x → x ∈ s.jobs.list working ∧
    (∀ v, (s.worker v).held = some x → v = w) ∧ ∀ k, (s.consumer k).held ≠ some x
  consumer : ∀ k x, (s.consumer k).held = some x → x ∈ s.jobs.list done ∧
    ∀ j, (s.consumer j).held = some x → j = k

/-- **Nobody shares a job.**  No two threads have one job, after any run of orderly steps. -/
theorem jobs_unshared (conf : ThreadPoolBaseConfig) (evs : List Event)
    (horderly : Runs.Meets handle Orderly (.live (new conf)) evs) :
    Unshared (runFrom conf evs).state := by
  have hstep : ∀ e s, Inv s → Orderly s e →
      Ends (handle e) s (fun _ => Inv) fun _ _ => False := by
    intro e s hs he
    exact (handle_acts e).mono (fun _ t ht => ht.inv he hs) fun _ t ht => hs.not_aborts ht.2
  have h := (Runs.invariant_run_of hstep (c := .live (new conf)) (inv_new conf) evs horderly).safe.2
  refine ⟨fun w x hw => ⟨(h.worker w).mem hw, fun v hv => h.sole v w x hv hw, fun k hk => ?_⟩,
    fun k x hk => ⟨(h.consumer k).mem hk, fun j hj => h.solo j k x hj hk⟩⟩
  exact h.consumer_held_ne ((h.worker w).mem hw) k hk

theorem jobs_unshared_orderly :
    Unshared (runFrom { finishNotify := false } (orderlyRun.take 8)).state :=
  jobs_unshared _ _ (by decide +kernel)

end ThreadPool
