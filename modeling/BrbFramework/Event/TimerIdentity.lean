import BrbFramework.Event.Timers

/-!
# The identity of a timer

An event names a slot, and the slot may belong to another timer by the time the event is
dispatched. The invariant ties the filters that the kernel has after the queued changes
to the timers in the slots, and the events that are still to come to the same timers. It
survives all steps but one: a timer that is granted the slot of an event to come.
-/

namespace EvKQTimer

open Handler BrbData List MemSlotBase

variable {s t : EvKQBase} {x : Nat}

/-- Every callback was invoked for an event of its own registration. -/
def Proper (s : EvKQBase) : Prop := ∀ c ∈ s.log, c.event = c.registration

/-- A timer is not added in the slot of an event that is still to be dispatched. -/
def Orderly (s : EvKQBase) : Event → Prop
  | .add .. => ∀ ev ∈ s.eventArr, ev.error = false → s.timer.slots.head? ≠ some ev.ident
  | _ => True

/-- The filter `f` belongs to the timer. -/
structure EvBaseKQTimer.Owns (kqTimer : EvBaseKQTimer) (f : Kqueue.Filter Nat) : Prop where
  inUse : kqTimer.inUse = true
  serial : kqTimer.serial = f.tag
  oneshot : f.oneshot = !kqTimer.persist

/-- If there is still a timer in the slot of an event, then it is that of the event, and
the filter of a volatile one is gone. -/
structure EvBaseKQTimer.Fired (kqTimer : EvBaseKQTimer) (ev : KEvent)
    (f : Option (Kqueue.Filter Nat)) : Prop where
  serial : kqTimer.inUse = true → kqTimer.serial = ev.tag
  gone : kqTimer.inUse = true → kqTimer.persist = false → f = none

structure Inv (s : EvKQBase) : Prop where
  wf : s.timer.WF
  linked : ∀ i, ∀ x ∈ s.timer.list i, i = 0 ∧ (s.kqTimer x).active = true ∧ (s.kqTimer x).timerId = x
  used : ∀ x, (s.kqTimer x).inUse = true ↔ x ∈ s.timer.list 0
  idle : ∀ x, (s.kqTimer x).inUse = false → (s.kqTimer x).active = false
  mirror : ∀ x f, s.table x = some f → (s.kqTimer x).Owns f
  batch : ∀ ev ∈ s.eventArr, ev.error = false → (s.kqTimer ev.ident).Fired ev (s.table ev.ident)
  proper : Proper s

theorem Proper.concat {c : Call} (h : Proper s) (hc : c.event = c.registration)
    (hlog : t.log = s.log ++ [c]) : Proper t := by
  intro d hd
  rw [hlog, mem_append, mem_singleton] at hd
  rcases hd with hd | rfl
  · exact h d hd
  · exact hc

/-! ## Steps on one slot -/

theorem Inv.aside (h : Inv s) (hwf : t.timer.WF)
    (hlists : ∀ i y, y ≠ x → (y ∈ t.timer.list i ↔ y ∈ s.timer.list i))
    (htimers : ∀ y, y ≠ x → t.kqTimer y = s.kqTimer y) (htable : ∀ y, y ≠ x → t.table y = s.table y)
    (hevents : ∀ ev ∈ t.eventArr, ev ∈ s.eventArr) (hproper : Proper t)
    (hlinked : ∀ i, x ∈ t.timer.list i →
      i = 0 ∧ (t.kqTimer x).active = true ∧ (t.kqTimer x).timerId = x)
    (hused : (t.kqTimer x).inUse = true ↔ x ∈ t.timer.list 0)
    (hidle : (t.kqTimer x).inUse = false → (t.kqTimer x).active = false)
    (hmirror : ∀ f, t.table x = some f → (t.kqTimer x).Owns f)
    (hbatch : ∀ ev ∈ t.eventArr, ev.error = false → ev.ident = x →
      (t.kqTimer x).Fired ev (t.table x)) : Inv t := by
  refine ⟨hwf, fun i y hy => ?_, fun y => ?_, fun y hy => ?_, fun y f hf => ?_,
    fun ev hev hok => ?_, hproper⟩
  · by_cases hne : y = x
    · exact hne ▸ hlinked i (hne ▸ hy)
    · rw [htimers y hne]
      exact h.linked i y ((hlists i y hne).1 hy)
  · by_cases hne : y = x
    · exact hne ▸ hused
    · rw [htimers y hne, hlists 0 y hne]
      exact h.used y
  · by_cases hne : y = x
    · subst hne
      exact hidle hy
    · rw [htimers y hne] at hy ⊢
      exact h.idle y hy
  · by_cases hne : y = x
    · subst hne
      exact hmirror f hf
    · rw [htimers y hne]
      exact h.mirror y f (htable y hne ▸ hf)
  · by_cases hne : ev.ident = x
    · rw [hne]
      exact hbatch ev hev hok hne
    · rw [htimers _ hne, htable _ hne]
      exact h.batch ev (hevents ev hev) hok

theorem table_concat {c : Kqueue.Change Nat Nat} (hkernel : t.kernel = s.kernel)
    (hchg : t.chgArr = s.chgArr ++ [c]) : t.table = Kqueue.change s.table c := by
  rw [EvKQBase.table, hkernel, hchg, Kqueue.changes_concat]
  rfl

theorem Inv.add {timer : MemSlotBase EvBaseKQTimer} {f : EvBaseKQTimer → EvBaseKQTimer}
    {new : EvBaseKQTimer} (h : Inv s) (hgrab : s.timer.slotGrab = some (x, timer))
    (htimer : t.timer = timer.modifyData x f) (hf : f (s.kqTimer x) = new) (hkernel : t.kernel = s.kernel)
    (hchg : t.chgArr = s.chgArr ++ [⟨x, .add new.serial (!new.persist)⟩])
    (hevents : t.eventArr = s.eventArr) (hlog : t.log = s.log)
    (hnew : new.inUse = true ∧ new.active = true ∧ new.timerId = x)
    (hstale : ∀ ev ∈ s.eventArr, ev.error = false → ev.ident ≠ x) : Inv t := by
  have hself : t.kqTimer x = new := by
    rw [EvKQBase.kqTimer, htimer, slotData_modifyData_self,
      slotGrab_data hgrab]
    exact hf
  have hmem : ∀ i y, y ∈ t.timer.list i ↔ (y = x ∧ i = 0) ∨ y ∈ s.timer.list i := by
    intro i y
    rw [htimer]
    exact mem_slotGrab hgrab
  have hfresh := h.wf.slotGrab_fresh hgrab
  have htable := table_concat hkernel hchg
  refine h.aside (x := x) ?_ (fun i y hne => ?_) (fun y hne => ?_) (fun y hne => ?_)
    (fun ev hev => hevents ▸ hev) ?_ (fun i hi => ?_) ?_ (fun hno => ?_) (fun f hf => ?_)
    fun ev hev hok hx => ?_
  · rw [htimer]
    exact (h.wf.slotGrab hgrab).modifyData x _
  · rw [hmem]
    simp [hne]
  · rw [EvKQBase.kqTimer, htimer]
    exact (slotData_modifyData_of_ne _ _ _ hne).trans (slotGrab_data hgrab y)
  · rw [htable]
    exact Kqueue.change_of_ne hne
  · rw [Proper, hlog]
    exact h.proper
  · rw [hself]
    rcases (hmem i x).1 hi with ⟨-, rfl⟩ | hi
    · exact ⟨rfl, hnew.2⟩
    · exact absurd hi (hfresh i)
  · rw [hself, hnew.1]
    exact iff_of_true rfl ((hmem 0 x).2 (.inl ⟨rfl, rfl⟩))
  · rw [hself, hnew.1] at hno
    cases hno
  · rw [htable, Kqueue.change_self] at hf
    obtain rfl := Option.some.inj hf
    rw [hself]
    exact ⟨hnew.1, rfl, rfl⟩
  · exact absurd hx (hstale ev (hevents ▸ hev) hok)

theorem Inv.release (h : Inv s) (huse : (s.kqTimer x).inUse = true)
    (htimer : t.timer = (s.timer.modifyData x fun _ => {}).slotFree x)
    (hnone : t.table x = none) (htable : ∀ y, y ≠ x → t.table y = s.table y)
    (hevents : ∀ ev ∈ t.eventArr, ev ∈ s.eventArr) (hproper : Proper t) : Inv t := by
  have hx := (h.used x).1 huse
  have hwf := h.wf.modifyData x fun _ => ({} : EvBaseKQTimer)
  have hin : x ∈ (s.timer.modifyData x fun _ => {}).list 0 := hx
  have hself : t.kqTimer x = {} := by
    rw [EvKQBase.kqTimer, htimer, slotFree_data]
    exact slotData_modifyData_self ..
  have hmem : ∀ i y, y ∈ t.timer.list i ↔ y ≠ x ∧ y ∈ s.timer.list i := by
    intro i y
    rw [htimer]
    exact hwf.mem_slotFree hin
  refine h.aside (x := x) ?_ (fun i y hne => ?_) (fun y hne => ?_) htable hevents hproper
    (fun i hi => ?_) ?_ (fun _ => ?_) (fun f hf => ?_) fun ev _ _ _ => ?_
  · rw [htimer]
    exact hwf.slotFree hin
  · rw [hmem]
    exact and_iff_right hne
  · rw [EvKQBase.kqTimer, htimer, slotFree_data]
    exact slotData_modifyData_of_ne _ _ _ hne
  · exact absurd rfl ((hmem i x).1 hi).1
  · rw [hself]
    exact iff_of_false nofun fun hi => ((hmem 0 x).1 hi).1 rfl
  · rw [hself]
  · rw [hnone] at hf
    cases hf
  · rw [hself]
    exact ⟨nofun, nofun⟩

theorem Inv.switch {action : Kqueue.Action Nat} {enabled : Bool} (h : Inv s)
    (huse : (s.kqTimer x).inUse = true) (haction : action = .enable ∨ action = .disable)
    (htimer : t.timer = s.timer.modifyData x fun kqTimer => { kqTimer with enabled := enabled })
    (hkernel : t.kernel = s.kernel) (hchg : t.chgArr = s.chgArr ++ [⟨x, action⟩])
    (hevents : t.eventArr = s.eventArr) (hlog : t.log = s.log) : Inv t := by
  have hself : t.kqTimer x = { s.kqTimer x with enabled := enabled } := by
    rw [EvKQBase.kqTimer, htimer]
    exact slotData_modifyData_self ..
  have hlist : t.timer.list = s.timer.list := by rw [htimer, modifyData_list]
  have htable := table_concat hkernel hchg
  -- the filter stays what it is, or is still missing
  have hfilter : ∀ f, t.table x = some f →
      ∃ g, s.table x = some g ∧ f.tag = g.tag ∧ f.oneshot = g.oneshot := by
    intro f hf
    rw [htable, Kqueue.change_self] at hf
    cases hold : s.table x with
    | none =>
        rw [hold] at hf
        rcases haction with rfl | rfl <;> cases hf
    | some g =>
        rw [hold] at hf
        rcases haction with rfl | rfl <;> obtain rfl := Option.some.inj hf <;> exact ⟨g, rfl, rfl, rfl⟩
  refine h.aside (x := x) (htimer ▸ h.wf.modifyData x _) (fun i y _ => by rw [hlist])
    (fun y hne => ?_) (fun y hne => ?_) (fun ev hev => hevents ▸ hev) ?_ (fun i hi => ?_) ?_
    (fun hno => ?_) (fun f hf => ?_) fun ev hev hok hx => ?_
  · rw [EvKQBase.kqTimer, htimer]
    exact slotData_modifyData_of_ne _ _ _ hne
  · rw [htable]
    exact Kqueue.change_of_ne hne
  · rw [Proper, hlog]
    exact h.proper
  · rw [hself]
    exact h.linked i x (hlist ▸ hi)
  · rw [hself, hlist]
    exact h.used x
  · rw [hself] at hno
    exact absurd (huse.symm.trans hno) nofun
  · obtain ⟨g, hg, htag, hone⟩ := hfilter f hf
    have hown := h.mirror x g hg
    rw [hself]
    exact ⟨huse, hown.serial.trans htag.symm, hone.trans hown.oneshot⟩
  · have hfired := h.batch ev (hevents ▸ hev) hok
    rw [hx] at hfired
    rw [hself]
    refine ⟨hfired.serial, fun huse hpersist => ?_⟩
    cases hf : t.table x with
    | none => rfl
    | some f =>
        obtain ⟨g, hg, -⟩ := hfilter f hf
        exact absurd (hg.symm.trans (hfired.gone huse hpersist)) nofun

/-! ## The functions -/

section Functions

variable (s)

/-- Where a function ends that keeps the invariant and fails no assertion. -/
abbrev Keeps (x : M PUnit) : Prop := Ends x s (fun _ => Inv) fun _ _ => False

variable {s}

theorem timerGrabFromArena_ends {timerId : Int} {Q : Option Nat → EvKQBase → Prop}
    {E : Fault → EvKQBase → Prop} (hnone : Q none s)
    (hsome : ∀ x : Nat, timerId = x → (s.kqTimer x).inUse = true → Q (some x) s) :
    Ends (timerGrabFromArena timerId) s Q E := by
  simp only [timerGrabFromArena, ends_bind, ends_get, ends_ite, ends_pure]
  refine ⟨fun _ => hnone, fun hpos => ⟨fun huse => ?_, fun _ => hnone⟩⟩
  exact hsome _ (by omega) huse

theorem Inv.of_inUse (h : Inv s) (huse : (s.kqTimer x).inUse = true) :
    (s.kqTimer x).active = true ∧ (s.kqTimer x).timerId = x :=
  (h.linked 0 x ((h.used x).1 huse)).2

theorem timerAdd_keeps (h : Inv s) (action : CommAction) (intervalMs : Int)
    (cbHandler : Option Nat) (cbData : Nat)
    (hstale : ∀ ev ∈ s.eventArr, ev.error = false → s.timer.slots.head? ≠ some ev.ident) :
    Ends (timerAdd action intervalMs cbHandler cbData) s (fun _ => Inv) fun _ _ => False := by
  simp only [timerAdd, ends_bind, ends_ite, ends_pure]
  refine ⟨fun _ => h, fun _ => ⟨fun _ => h, fun _ => ?_⟩⟩
  simp only [timerNewFromArena, ends_bind, ends_get]
  cases hgrab : s.timer.slotGrab with
  | none => exact h
  | some g =>
      obtain ⟨x, timer⟩ := g
      have hslots := (slotGrab_eq_some hgrab).1
      have hunlinked : x ∉ s.timer.list 0 := h.wf.slotGrab_fresh hgrab 0
      have hidle : (s.kqTimer x).active = false := by
        refine h.idle x ?_
        cases huse : (s.kqTimer x).inUse with
        | false => rfl
        | true => exact absurd ((h.used x).1 huse) hunlinked
      have hdata : timer.slotData x = s.kqTimer x := slotGrab_data hgrab x
      simp only [ends_bind, ends_set, ends_pure, ends_get, ends_assertThat, EvKQBase.kqTimer,
        slotData_modifyData_self, hdata, slotGrab_id hgrab]
      refine ⟨fun _ => ⟨fun _ => ?_, fun hactive => ?_⟩, fun hno => absurd hno (by simp)⟩
      · simp only [enqueueTimerChg, adjustIOLoopTimeout, ends_modify, EvKQBase.setTimer,
          modifyData_modifyData]
        refine h.add (f := fun _ =>
          { timerMsec := intervalMs, timerId := x, cbHandler, cbData, inUse := true, active := true
            enabled := true, persist := action ≠ .addVolatile, serial := s.added })
          hgrab rfl rfl rfl ?_ rfl rfl ?_ fun ev hev hok hx => ?_
        · simp
        · exact ⟨rfl, rfl, rfl⟩
        · refine hstale ev hev hok ?_
          rw [hslots, hx]
          rfl
      · rw [show (s.timer.slotData x).active = false from hidle] at hactive
        cases hactive

theorem timerCtl_keeps (h : Inv s) (timerId : Int) (action : CommAction) :
    Keeps s (timerCtl timerId action) := by
  simp only [Keeps, timerCtl, ends_bind, ends_ite, ends_pure]
  refine ⟨fun _ => h, fun _ => timerGrabFromArena_ends h ?_⟩
  rintro x rfl huse
  obtain ⟨hactive, hid⟩ := h.of_inUse huse
  simp only [ends_bind, ends_get, ends_assertThat]
  refine ⟨fun _ => ⟨fun _ => ⟨fun _ => ?_, fun hno => ?_⟩, fun hno => ?_⟩, fun hno => ?_⟩
  · cases action with
    | disable =>
        simp only [ends_ite, ends_bind, enqueueTimerChg, ends_modify, ends_pure]
        exact ⟨fun _ => h.switch huse (.inr rfl) rfl rfl rfl rfl rfl, fun _ => h⟩
    | enable =>
        simp only [ends_ite, ends_bind, enqueueTimerChg, adjustIOLoopTimeout, ends_modify, ends_pure]
        exact ⟨fun _ => h.switch huse (.inl rfl) rfl rfl rfl rfl rfl, fun _ => h⟩
    | delete =>
        simp only [ends_bind, enqueueTimerChg, timerReleaseFromArena, ends_modify]
        generalize ht : EvKQBase.mk _ _ _ _ _ _ _ = t
        have htable : t.table = Kqueue.change s.table ⟨x, .delete⟩ := by
          subst ht
          exact table_concat rfl rfl
        refine h.release huse (by rw [← ht]) ?_ (fun y hne => ?_) (fun ev hev => ?_) ?_
        · rw [htable, Kqueue.change_self]
          cases s.table x <;> rfl
        · rw [htable]
          exact Kqueue.change_of_ne hne
        · rw [← ht] at hev
          exact hev
        · rw [← ht]
          exact h.proper
    | addVolatile => exact h
    | addPersist => exact h
    | addTransition => exact h
    | clear => exact h
  · rw [hid] at hno
    simp at hno
  · cases hactive.symm.trans hno
  · cases huse.symm.trans hno

theorem Inv.kevent (h : Inv s) (fired : List Nat) (data : Nat → Int) :
    Keeps s (keventInvoke fired data) := by
  simp only [Keeps, keventInvoke, ends_modify]
  refine ⟨h.wf, h.linked, h.used, h.idle, fun x f hf => ?_, fun ev hev hok => ?_, h.proper⟩
  · exact h.mirror x f (Kqueue.collect_sub fired hf)
  · rcases mem_append.1 hev with hev | hev
    · obtain ⟨c, -, rfl⟩ := mem_map.1 hev
      cases hok
    · obtain ⟨⟨x, tag⟩, he, rfl⟩ := mem_map.1 hev
      obtain ⟨f, hf, htag, hone⟩ := Kqueue.collect_event fired he
      have hown := h.mirror x f hf
      refine ⟨fun _ => hown.serial.trans htag, fun _ hpersist => hone ?_⟩
      rw [hown.oneshot]
      exact congrArg (!·) hpersist

theorem timerDispatch_keeps (h : Inv s) (event : KEvent)
    (hfired : (s.kqTimer event.ident).Fired event (s.table event.ident)) :
    Keeps s (timerDispatch event.ident event.data event.tag) := by
  simp only [Keeps, timerDispatch, ends_bind]
  refine timerGrabFromArena_ends h ?_
  intro x hx huse
  obtain rfl : event.ident = x := by exact_mod_cast hx
  have hproper := h.proper
  simp only [ends_bind, ends_get, ends_ite, ends_pure]
  refine ⟨fun _ => h, fun _ => ⟨fun hpersist => ?_, fun _ => ?_⟩⟩
  · -- the slot of a volatile timer is released before the callback
    have hgone := hfired.gone huse (by simpa using hpersist)
    simp only [timerReleaseFromArena, ends_modify]
    cases (s.kqTimer event.ident).cbHandler with
    | none => exact h.release huse rfl hgone (fun _ _ => rfl) (fun _ hev => hev) hproper
    | some cbHandler =>
        refine h.release huse rfl hgone (fun _ _ => rfl) (fun _ hev => hev) ?_
        exact hproper.concat (hfired.serial huse).symm rfl
  · cases (s.kqTimer event.ident).cbHandler with
    | none => exact h
    | some cbHandler =>
        exact { h with proper := hproper.concat (hfired.serial huse).symm rfl }

theorem invokeCallbacks_keeps (h : Inv s) : Keeps s invokeCallbacks := by
  simp only [Keeps, invokeCallbacks, ends_bind, ends_get]
  cases hevents : s.eventArr with
  | nil => exact h
  | cons event rest =>
      have hrest : Inv { s with eventArr := rest } :=
        { h with batch := fun ev hev => h.batch ev (hevents ▸ mem_cons_of_mem _ hev) }
      have hfired := h.batch event (hevents ▸ mem_cons_self)
      obtain ⟨p, hp⟩ : ∃ p : EvKQBase, { s with eventArr := rest } = p := ⟨_, rfl⟩
      have htimer : p.kqTimer = s.kqTimer := by
        rw [← hp]
        rfl
      have htable : p.table = s.table := by
        rw [← hp]
        rfl
      simp only [ends_bind, ends_set, ends_ite, ends_pure, hp]
      rw [hp] at hrest
      refine ⟨fun _ => hrest, fun hok => ?_⟩
      rw [← htimer, ← htable] at hfired
      exact timerDispatch_keeps hrest event (hfired (by simpa using hok))

end Functions

/-- **One step.**  An orderly step keeps the invariant, and no assertion fails. -/
theorem handle_keeps (h : Inv s) (e : Event) (horderly : Orderly s e) : Keeps s (handle e) := by
  cases e with
  | add action intervalMs cbHandler cbData =>
      simp only [Keeps, handle, ends_bind, ends_pure]
      exact timerAdd_keeps h action intervalMs cbHandler cbData horderly
  | ctl timerId action => exact timerCtl_keeps h timerId action
  | kevent fired data =>
      simp only [Keeps, handle, ends_bind, ends_get, ends_ite, ends_pure]
      exact ⟨fun _ => h.kevent fired data, fun _ => h⟩
  | dispatch => exact invokeCallbacks_keeps h

theorem inv_new (timerMax : Nat) : Inv (new timerMax) where
  wf := wf_init _ _
  linked _ _ hx := nomatch hx
  used _ := iff_of_false nofun nofun
  idle _ _ := rfl
  mirror _ _ hf := nomatch hf
  batch _ hev := nomatch hev
  proper _ hc := nomatch hc

/-- **The identity of a timer.**  In every run in which no timer is added in the slot of an
event that is still to be dispatched, no assertion fails and each callback is invoked for an
event of its own registration. -/
theorem timers_proper (timerMax : Nat) (evs : List Event)
    (horderly : Runs.Meets handle Orderly (.live (new timerMax)) evs) :
    (runFrom timerMax evs).fault = none ∧ Proper (runFrom timerMax evs).state := by
  have h := Runs.invariant_run_of (A := fun _ _ => False) (fun e s hs he => handle_keeps hs e he)
    (c := .live (new timerMax)) (inv_new timerMax) evs horderly
  exact ⟨h.safe.1, h.safe.2.proper⟩

instance (s : EvKQBase) (e : Event) : Decidable (Orderly s e) :=
  match e with
  | .add .. => inferInstanceAs (Decidable (∀ ev ∈ s.eventArr, ev.error = false →
      s.timer.slots.head? ≠ some ev.ident))
  | .ctl .. | .kevent .. | .dispatch => isTrue trivial

/-- Two timers fire, and the callback of the first deletes the second. -/
def bothFire : List Event :=
  [.add .addPersist 10 (some 7) 0, .add .addPersist 10 (some 8) 0, .kevent [0, 1] fun _ => 1,
    .dispatch, .ctl 1 .delete]

theorem timers_proper_bothFire :
    (runFrom 4 (bothFire ++ [.dispatch, .add .addVolatile 10 (some 9) 0])).fault = none ∧
      Proper (runFrom 4 (bothFire ++ [.dispatch, .add .addVolatile 10 (some 9) 0])).state :=
  timers_proper _ _ (by decide)

/-- If it adds a third one as well, the event of the second fires that. -/
theorem stale_event_fires :
    ¬ Proper (runFrom 4 (bothFire ++ [.add .addVolatile 10 (some 9) 0, .dispatch])).state := by
  intro h
  have hlog : (runFrom 4 (bothFire ++ [.add .addVolatile 10 (some 9) 0, .dispatch])).state.log =
      [⟨0, 1, 7, 0, 0, 0⟩, ⟨1, 1, 9, 0, 1, 2⟩] := by
    decide
  have hstale := h ⟨1, 1, 9, 0, 1, 2⟩ (by rw [hlog]; decide)
  cases hstale

end EvKQTimer
