import BrbFramework.Event.Timeouts
import BrbFramework.Event.TimerIdentity

/-!
# Timeouts and their timers

The timers of the timeouts are volatile and never disabled, so that a timer in use
has its filter in the kernel or an event that is still to be dispatched. Each
belongs to one armed slot of its descriptor, and each armed slot has one.

Three steps break this: a set without a handler on an armed slot, a look-up of a
descriptor that is not active while a slot of it is armed, and an event that is
dispatched to a younger timer than its own.
-/

namespace EvKQTimeout

open Handler BrbData List EvKQTimer MemSlotBase EvKQBase
open EvKQTimer (KEvent EvBaseKQTimer)

/-! ## The timers -/

section Timers

variable {s t : EvKQTimer.EvKQBase} {x : Nat}

/-- A timer that is in use has its filter, or an event of it is still to come. -/
def Live (s : EvKQTimer.EvKQBase) (x : Nat) : Prop :=
  (∃ f, s.table x = some f ∧ f.tag = (s.kqTimer x).serial) ∨
    ∃ ev ∈ s.eventArr, ev.error = false ∧ ev.ident = x ∧ ev.tag = (s.kqTimer x).serial

structure OfTimeout (s : EvKQTimer.EvKQBase) (kqTimer : EvBaseKQTimer) : Prop where
  enabled : kqTimer.enabled = true
  persist : kqTimer.persist = false
  cbHandler : kqTimer.cbHandler = some timeoutInternal
  serial : kqTimer.serial < s.added

structure TimersInv (s : EvKQTimer.EvKQBase) : Prop where
  wf : s.timer.WF
  linked : ∀ i, ∀ x ∈ s.timer.list i,
    i = 0 ∧ (s.kqTimer x).active = true ∧ (s.kqTimer x).timerId = x
  used : ∀ x, (s.kqTimer x).inUse = true ↔ x ∈ s.timer.list 0
  idle : ∀ x, (s.kqTimer x).inUse = false → (s.kqTimer x).active = false
  plain : ∀ x, (s.kqTimer x).inUse = true → OfTimeout s (s.kqTimer x)
  mirror : ∀ x f, s.table x = some f → (s.kqTimer x).Owns f
  tags : ∀ ev ∈ s.eventArr, ev.error = false → ev.tag < s.added
  gone : ∀ ev ∈ s.eventArr, ev.error = false → (s.kqTimer ev.ident).inUse = true →
    (s.kqTimer ev.ident).serial = ev.tag → s.table ev.ident = none
  live : ∀ x, (s.kqTimer x).inUse = true → Live s x

theorem TimersInv.aside (h : TimersInv s) (hwf : t.timer.WF)
    (hlists : ∀ i y, y ≠ x → (y ∈ t.timer.list i ↔ y ∈ s.timer.list i))
    (htimers : ∀ y, y ≠ x → t.kqTimer y = s.kqTimer y) (htable : ∀ y, y ≠ x → t.table y = s.table y)
    (hadded : s.added ≤ t.added) (hevents : ∀ ev ∈ t.eventArr, ev ∈ s.eventArr)
    (hkept : ∀ ev ∈ s.eventArr, ev.ident ≠ x → ev ∈ t.eventArr)
    (hlinked : ∀ i, x ∈ t.timer.list i →
      i = 0 ∧ (t.kqTimer x).active = true ∧ (t.kqTimer x).timerId = x)
    (hused : (t.kqTimer x).inUse = true ↔ x ∈ t.timer.list 0)
    (hidle : (t.kqTimer x).inUse = false → (t.kqTimer x).active = false)
    (hplain : (t.kqTimer x).inUse = true → OfTimeout t (t.kqTimer x))
    (hmirror : ∀ f, t.table x = some f → (t.kqTimer x).Owns f)
    (hgone : ∀ ev ∈ t.eventArr, ev.error = false → ev.ident = x → (t.kqTimer x).inUse = true →
      (t.kqTimer x).serial = ev.tag → t.table x = none)
    (hlive : (t.kqTimer x).inUse = true → Live t x) : TimersInv t := by
  refine ⟨hwf, fun i y hy => ?_, fun y => ?_, fun y hy => ?_, fun y hy => ?_, fun y f hf => ?_,
    fun ev hev hok => ?_, fun ev hev hok huse hserial => ?_, fun y hy => ?_⟩
  · by_cases hne : y = x
    · exact hne ▸ hlinked i (hne ▸ hy)
    · rw [htimers y hne]
      exact h.linked i y ((hlists i y hne).1 hy)
  · by_cases hne : y = x
    · exact hne ▸ hused
    · rw [htimers y hne, hlists 0 y hne]
      exact h.used y
  · by_cases hne : y = x
    · subst hne
      exact hidle hy
    · rw [htimers y hne] at hy ⊢
      exact h.idle y hy
  · by_cases hne : y = x
    · subst hne
      exact hplain hy
    · rw [htimers y hne] at hy ⊢
      have hold := h.plain y hy
      exact ⟨hold.enabled, hold.persist, hold.cbHandler, Nat.lt_of_lt_of_le hold.serial hadded⟩
  · by_cases hne : y = x
    · subst hne
      exact hmirror f hf
    · rw [htimers y hne]
      exact h.mirror y f (htable y hne ▸ hf)
  · exact Nat.lt_of_lt_of_le (h.tags ev (hevents ev hev) hok) hadded
  · by_cases hne : ev.ident = x
    · rw [hne] at huse hserial ⊢
      exact hgone ev hev hok hne huse hserial
    · rw [htimers _ hne] at huse hserial
      rw [htable _ hne]
      exact h.gone ev (hevents ev hev) hok huse hserial
  · by_cases hne : y = x
    · subst hne
      exact hlive hy
    · rw [htimers y hne] at hy
      unfold Live
      rw [htimers y hne, htable y hne]
      rcases h.live y hy with hfilter | ⟨ev, hev, hok, hident, htag⟩
      · exact .inl hfilter
      · exact .inr ⟨ev, hkept ev hev (hident ▸ hne), hok, hident, htag⟩

theorem TimersInv.of_inUse (h : TimersInv s) (huse : (s.kqTimer x).inUse = true) :
    (s.kqTimer x).active = true ∧ (s.kqTimer x).timerId = x :=
  (h.linked 0 x ((h.used x).1 huse)).2

/-- The timer of the slot `x` is gone. -/
structure Removed (x : Nat) (s t : EvKQTimer.EvKQBase) : Prop where
  inv : TimersInv t
  free : (t.kqTimer x).inUse = false
  others : ∀ y, y ≠ x → t.kqTimer y = s.kqTimer y

theorem TimersInv.release (h : TimersInv s) (huse : (s.kqTimer x).inUse = true)
    (htimer : t.timer = (s.timer.modifyData x fun _ => {}).slotFree x)
    (hnone : t.table x = none) (htable : ∀ y, y ≠ x → t.table y = s.table y)
    (hadded : t.added = s.added) (hevents : ∀ ev ∈ t.eventArr, ev ∈ s.eventArr)
    (hkept : ∀ ev ∈ s.eventArr, ev.ident ≠ x → ev ∈ t.eventArr) :
    Removed x s t := by
  have hx := (h.used x).1 huse
  have hwf := h.wf.modifyData x fun _ => ({} : EvBaseKQTimer)
  have hin : x ∈ (s.timer.modifyData x fun _ => {}).list 0 := hx
  have hself : t.kqTimer x = {} := by
    rw [EvKQTimer.EvKQBase.kqTimer, htimer, slotFree_data]
    exact slotData_modifyData_self ..
  have hother : ∀ y, y ≠ x → t.kqTimer y = s.kqTimer y := by
    intro y hne
    rw [EvKQTimer.EvKQBase.kqTimer, htimer, slotFree_data]
    exact slotData_modifyData_of_ne _ _ _ hne
  have hmem : ∀ i y, y ∈ t.timer.list i ↔ y ≠ x ∧ y ∈ s.timer.list i := by
    intro i y
    rw [htimer]
    exact hwf.mem_slotFree hin
  have hfree : (t.kqTimer x).inUse = false := by rw [hself]
  refine ⟨h.aside (x := x) ?_ (fun i y hne => ?_) hother htable (Nat.le_of_eq hadded.symm) hevents
    hkept (fun i hi => ?_) ?_ (fun _ => ?_) (fun huse => ?_) (fun f hf => ?_)
    (fun ev _ _ _ huse => ?_) fun huse => ?_, hfree, hother⟩
  · rw [htimer]
    exact hwf.slotFree hin
  · rw [hmem]
    exact and_iff_right hne
  · exact absurd rfl ((hmem i x).1 hi).1
  · rw [hfree]
    exact iff_of_false (by simp) fun hi => ((hmem 0 x).1 hi).1 rfl
  · rw [hself]
  · cases hfree.symm.trans huse
  · rw [hnone] at hf
    cases hf
  · cases hfree.symm.trans huse
  · cases hfree.symm.trans huse

/-- A timer was added for `fd` in a slot that was free. -/
structure Added (fd x : Nat) (s t : EvKQTimer.EvKQBase) : Prop where
  inv : TimersInv t
  free : (s.kqTimer x).inUse = false
  inUse : (t.kqTimer x).inUse = true
  cbData : (t.kqTimer x).cbData = fd
  others : ∀ y, y ≠ x → t.kqTimer y = s.kqTimer y

theorem TimersInv.add {timer : MemSlotBase EvBaseKQTimer} {f : EvBaseKQTimer → EvBaseKQTimer}
    {new : EvBaseKQTimer} (h : TimersInv s) (hgrab : s.timer.slotGrab = some (x, timer))
    (htimer : t.timer = timer.modifyData x f) (hf : f (s.kqTimer x) = new)
    (hkernel : t.kernel = s.kernel)
    (hchg : t.chgArr = s.chgArr ++ [⟨x, .add new.serial (!new.persist)⟩])
    (hevents : t.eventArr = s.eventArr) (hadded : t.added = s.added + 1)
    (hnew : new.inUse = true ∧ new.active = true ∧ new.timerId = x)
    (hplain : OfTimeout t new) (hserial : new.serial = s.added) : Added new.cbData x s t := by
  have hself : t.kqTimer x = new := by
    rw [EvKQTimer.EvKQBase.kqTimer, htimer, slotData_modifyData_self,
      slotGrab_data hgrab]
    exact hf
  have hother : ∀ y, y ≠ x → t.kqTimer y = s.kqTimer y := by
    intro y hne
    rw [EvKQTimer.EvKQBase.kqTimer, htimer]
    exact (slotData_modifyData_of_ne _ _ _ hne).trans
      (slotGrab_data hgrab y)
  have hmem : ∀ i y, y ∈ t.timer.list i ↔ (y = x ∧ i = 0) ∨ y ∈ s.timer.list i := by
    intro i y
    rw [htimer]
    exact mem_slotGrab hgrab
  have hfresh := h.wf.slotGrab_fresh hgrab
  have htable := table_concat hkernel hchg
  have hfilter : t.table x = some { tag := s.added, oneshot := !new.persist } := by
    rw [htable, Kqueue.change_self, ← hserial]
    rfl
  refine ⟨h.aside (x := x) ?_ (fun i y hne => ?_) hother (fun y hne => ?_)
    (hadded ▸ Nat.le_succ _) (fun ev hev => hevents ▸ hev) (fun ev hev _ => hevents ▸ hev)
    (fun i hi => ?_) ?_ (fun hno => ?_) (fun _ => ?_) (fun f hf => ?_)
    (fun ev hev hok _ _ hold => ?_) (fun _ => .inl ⟨_, hfilter, ?_⟩), ?_, ?_, ?_, hother⟩
  · rw [htimer]
    exact (h.wf.slotGrab hgrab).modifyData x _
  · rw [hmem]
    simp [hne]
  · rw [htable]
    exact Kqueue.change_of_ne hne
  · rw [hself]
    rcases (hmem i x).1 hi with ⟨-, rfl⟩ | hi
    · exact ⟨rfl, hnew.2⟩
    · exact absurd hi (hfresh i)
  · rw [hself, hnew.1]
    exact iff_of_true rfl ((hmem 0 x).2 (.inl ⟨rfl, rfl⟩))
  · rw [hself, hnew.1] at hno
    cases hno
  · rw [hself]
    exact hplain
  · rw [hfilter] at hf
    obtain rfl := Option.some.inj hf
    rw [hself]
    exact ⟨hnew.1, hserial, rfl⟩
  · -- no event bears the number of a timer that was not there
    rw [hself, hserial] at hold
    have hlt := h.tags ev (hevents ▸ hev) hok
    omega
  · rw [hself, hserial]
  · cases huse : (s.kqTimer x).inUse with
    | false => rfl
    | true => exact absurd ((h.used x).1 huse) (hfresh 0)
  · rw [hself]
    exact hnew.1
  · rw [hself]

theorem timerAdd_ends (h : TimersInv s) (intervalMs : Int) (fd : Nat) :
    Ends (timerAdd .addVolatile intervalMs (some timeoutInternal) fd) s
      (fun timerId t => (timerId = -1 ∧ t = s) ∨
        ∃ x : Nat, timerId = x ∧ Added fd x s t ∧ t.eventArr = s.eventArr ∧ t.log = s.log)
      fun _ _ => False := by
  simp only [timerAdd, ends_bind, ends_ite, ends_pure]
  refine ⟨fun _ => .inl (by simp), fun _ => ⟨fun _ => .inl (by simp), fun _ => ?_⟩⟩
  simp only [timerNewFromArena, ends_bind, ends_get]
  cases hgrab : s.timer.slotGrab with
  | none => exact .inl (by simp)
  | some g =>
      obtain ⟨x, timer⟩ := g
      have hunlinked : x ∉ s.timer.list 0 := h.wf.slotGrab_fresh hgrab 0
      have hidle : (s.kqTimer x).active = false := by
        refine h.idle x ?_
        cases huse : (s.kqTimer x).inUse with
        | false => rfl
        | true => exact absurd ((h.used x).1 huse) hunlinked
      have hdata : timer.slotData x = s.kqTimer x := slotGrab_data hgrab x
      simp only [ends_bind, ends_set, ends_pure, ends_get, ends_assertThat,
        EvKQTimer.EvKQBase.kqTimer, slotData_modifyData_self, hdata,
        slotGrab_id hgrab]
      refine ⟨fun _ => ⟨fun _ => ?_, fun hactive => ?_⟩, fun hno => absurd hno (by simp)⟩
      · simp only [enqueueTimerChg, adjustIOLoopTimeout, ends_modify,
          EvKQTimer.EvKQBase.setTimer, modifyData_modifyData]
        refine .inr ⟨x, rfl, ?_, by simp⟩
        refine h.add (f := fun _ =>
          { timerMsec := intervalMs, timerId := x, cbHandler := some timeoutInternal, cbData := fd
            inUse := true, active := true, enabled := true, persist := false, serial := s.added })
          hgrab ?_ rfl rfl ?_ rfl rfl ⟨rfl, rfl, rfl⟩ ⟨rfl, rfl, rfl, ?_⟩ rfl
        · simp
        · simp
        · exact Nat.lt_succ_self _
      · rw [show (s.timer.slotData x).active = false from hidle] at hactive
        cases hactive

theorem timerCtl_delete_ends (h : TimersInv s) (huse : (s.kqTimer x).inUse = true) :
    Ends (timerCtl x .delete) s
      (fun _ t => Removed x s t ∧ t.eventArr = s.eventArr ∧ t.log = s.log) fun _ _ => False := by
  obtain ⟨hactive, hid⟩ := h.of_inUse huse
  simp only [timerCtl, ends_bind, ends_ite, ends_pure]
  refine ⟨fun hneg => absurd hneg (by omega), fun _ => ?_⟩
  simp only [timerGrabFromArena, ends_bind, ends_get, ends_ite, ends_pure]
  refine ⟨fun hneg => absurd hneg (by omega), fun _ => ⟨fun _ => ?_, fun hno => ?_⟩⟩
  · simp only [Int.toNat_natCast, ends_assertThat]
    refine ⟨fun _ => ⟨fun _ => ⟨fun _ => ?_, fun hno => ?_⟩, fun hno => ?_⟩, fun hno => ?_⟩
    · simp only [enqueueTimerChg, timerReleaseFromArena, ends_modify]
      refine ⟨?_, by simp⟩
      generalize ht : EvKQTimer.EvKQBase.mk _ _ _ _ _ _ _ = t
      have htable : t.table = Kqueue.change s.table ⟨x, .delete⟩ := by
        subst ht
        exact table_concat rfl rfl
      refine h.release huse (by rw [← ht]) ?_ (fun y hne => ?_) (by rw [← ht]) (fun ev hev => ?_)
        fun ev hev _ => ?_
      · rw [htable, Kqueue.change_self]
        cases s.table x <;> rfl
      · rw [htable]
        exact Kqueue.change_of_ne hne
      · rw [← ht] at hev
        exact hev
      · rw [← ht]
        exact hev
    · simp [hid] at hno
    · cases hactive.symm.trans hno
    · cases huse.symm.trans hno
  · exact absurd huse (by simpa using hno)

/-- The next event is not for a timer that is older than the one in its slot. -/
def Fresh (s : EvKQTimer.EvKQBase) : Prop :=
  ∀ ev ∈ s.eventArr.head?, ev.error = false → (s.kqTimer ev.ident).inUse = true →
    (s.kqTimer ev.ident).serial = ev.tag

instance (s : EvKQTimer.EvKQBase) : Decidable (Fresh s) :=
  inferInstanceAs (Decidable (∀ ev ∈ s.eventArr.head?, _))

/-- An event is dispatched to its timer, which is gone then, or to nobody. -/
def Dispatched (s t : EvKQTimer.EvKQBase) : Prop :=
  (TimersInv t ∧ t.log = s.log ∧ ∀ y, t.kqTimer y = s.kqTimer y) ∨
    ∃ (x : Nat) (call : EvKQTimer.Call),
      (s.kqTimer x).inUse = true ∧ Removed x s t ∧ t.log = s.log ++ [call] ∧
      call.timerId = x ∧ call.cbData = (s.kqTimer x).cbData

theorem TimersInv.drop {event : KEvent} {rest : List KEvent} (h : TimersInv s)
    (hevents : s.eventArr = event :: rest)
    (hfree : event.error = false → (s.kqTimer event.ident).inUse = false) :
    TimersInv { s with eventArr := rest } := by
  have hsub : ∀ ev ∈ rest, ev ∈ s.eventArr := by
    intro ev hev
    rw [hevents]
    exact mem_cons_of_mem _ hev
  refine ⟨h.wf, h.linked, h.used, h.idle, fun y hy => ?_, h.mirror,
    fun ev hev => h.tags ev (hsub ev hev), fun ev hev => h.gone ev (hsub ev hev), fun y hy => ?_⟩
  · have hold := h.plain y hy
    exact ⟨hold.enabled, hold.persist, hold.cbHandler, hold.serial⟩
  · rcases h.live y hy with hfilter | ⟨ev, hev, hok, rfl, htag⟩
    · exact .inl hfilter
    · rw [hevents] at hev
      rcases mem_cons.1 hev with rfl | hev
      · exact nomatch (hfree hok).symm.trans hy
      · exact .inr ⟨ev, hev, hok, rfl, htag⟩

/-- The timer of `event` leaves its slot and its callback is invoked. -/
def expire (s : EvKQTimer.EvKQBase) (event : KEvent) : EvKQTimer.EvKQBase :=
  { s with
    timer := (s.timer.modifyData event.ident fun _ => {}).slotFree event.ident
    log := s.log ++
      [{ timerId := event.ident, data := event.data, cbHandler := timeoutInternal
         cbData := (s.kqTimer event.ident).cbData, event := event.tag
         registration := (s.kqTimer event.ident).serial }] }

theorem timerDispatch_ends {event : KEvent} (huse : (s.kqTimer event.ident).inUse = true)
    (hactive : (s.kqTimer event.ident).active = true)
    (hplain : OfTimeout s (s.kqTimer event.ident)) :
    Ends (timerDispatch event.ident event.data event.tag) s
      (fun _ t => t = expire s event) fun _ _ => False := by
  simp only [timerDispatch, timerGrabFromArena, ends_bind, ends_get,
    ends_ite, ends_pure]
  refine ⟨fun hneg => absurd hneg (by omega), fun _ => ⟨fun _ => ?_, fun hfree => ?_⟩⟩
  · simp only [Int.toNat_natCast, hactive, hplain.enabled, hplain.persist, hplain.cbHandler,
      timerReleaseFromArena, ends_modify]
    refine ⟨fun hoff => absurd hoff (by simp), fun _ => ⟨fun _ => rfl, fun hon => ?_⟩⟩
    exact absurd hon (by simp)
  · exact absurd huse hfree

theorem invokeCallbacks_ends (h : TimersInv s) (hfresh : Fresh s) :
    Ends EvKQTimer.invokeCallbacks s (fun _ t => Dispatched s t) fun _ _ => False := by
  simp only [EvKQTimer.invokeCallbacks, ends_bind, ends_get]
  cases hevents : s.eventArr with
  | nil => exact .inl ⟨h, rfl, fun _ => rfl⟩
  | cons event rest =>
      have hhead : event ∈ s.eventArr.head? := by
        rw [hevents]
        rfl
      have hmem : event ∈ s.eventArr := mem_of_mem_head? hhead
      have hsame : TimersInv { s with eventArr := rest } →
          Dispatched s { s with eventArr := rest } := fun hinv => .inl ⟨hinv, rfl, fun _ => rfl⟩
      simp only [ends_bind, ends_set, ends_ite, ends_pure]
      refine ⟨fun herror => hsame (h.drop hevents ?_), fun hok => ?_⟩
      · intro hok
        cases herror.symm.trans hok
      have hok : event.error = false := by simpa using hok
      cases huse : (s.kqTimer event.ident).inUse with
      | false =>
          simp only [timerDispatch, timerGrabFromArena, ends_bind, ends_get,
            ends_ite, ends_pure]
          refine ⟨fun hneg => absurd hneg (by omega), fun _ => ⟨fun hused => ?_, fun _ => ?_⟩⟩
          · cases huse.symm.trans hused
          · exact hsame (h.drop hevents fun _ => huse)
      | true =>
          have hgone := h.gone event hmem hok huse (hfresh event hhead hok huse)
          have hplain := h.plain _ huse
          refine (timerDispatch_ends (s := { s with eventArr := rest }) huse (h.of_inUse huse).1
            ⟨hplain.enabled, hplain.persist, hplain.cbHandler, hplain.serial⟩).imp
            (fun _ t ht => ?_)
          subst ht
          refine .inr ⟨event.ident, _, huse, ?_, rfl, rfl, rfl⟩
          refine h.release huse rfl hgone (fun _ _ => rfl) rfl (fun ev hev => ?_)
            fun ev hev hne => ?_
          · rw [hevents]
            exact mem_cons_of_mem _ hev
          · rw [hevents] at hev
            exact (mem_cons.1 hev).resolve_left fun heq => hne (heq ▸ rfl)

theorem TimersInv.kevent (h : TimersInv s) (hempty : s.eventArr = []) (fired : List Nat)
    (data : Nat → Int) :
    Ends (keventInvoke fired data) s (fun _ t => TimersInv t) fun _ _ => False := by
  simp only [keventInvoke, ends_modify]
  have hevent : ∀ ev, ev ∈ (Kqueue.refused s.kernel s.chgArr).map
        (fun c => ({ ident := c.ident, data := 2, error := true, tag := 0 } : KEvent)) ++
      (Kqueue.collect s.table fired).1.map
        (fun e => { ident := e.1, data := data e.1, error := false, tag := e.2 }) →
      ev.error = false → (ev.ident, ev.tag) ∈ (Kqueue.collect s.table fired).1 := by
    intro ev hev hok
    rcases mem_append.1 hev with hev | hev
    · obtain ⟨c, -, rfl⟩ := mem_map.1 hev
      cases hok
    · obtain ⟨e, he, rfl⟩ := mem_map.1 hev
      exact he
  refine ⟨h.wf, h.linked, h.used, h.idle, fun y hy => ?_, fun x f hf => ?_, fun ev hev hok => ?_,
    fun ev hev hok huse _ => ?_, fun x huse => ?_⟩
  · have hold := h.plain y hy
    exact ⟨hold.enabled, hold.persist, hold.cbHandler, hold.serial⟩
  · exact h.mirror x f (Kqueue.collect_sub fired hf)
  · obtain ⟨f, hf, htag, -⟩ := Kqueue.collect_event fired (hevent ev hev hok)
    have hown := h.mirror _ f hf
    have hlt := (h.plain _ hown.inUse).serial
    rw [hown.serial, htag] at hlt
    exact hlt
  · obtain ⟨f, hf, -, hone⟩ := Kqueue.collect_event fired (hevent ev hev hok)
    have hown := h.mirror _ f hf
    refine hone ?_
    rw [hown.oneshot, (h.plain _ hown.inUse).persist]
    rfl
  · rcases h.live x huse with ⟨f, hf, htag⟩ | ⟨ev, hev, -⟩
    · rcases Kqueue.collect_live fired hf with hleft | hfired
      · exact .inl ⟨f, hleft, htag⟩
      · refine .inr
          ⟨{ ident := x, data := data x, error := false, tag := f.tag }, ?_, rfl, rfl, htag⟩
        exact mem_append_right _ (mem_map.2 ⟨_, hfired, rfl⟩)
    · rw [hempty] at hev
      cases hev

theorem kevent_ends (h : TimersInv s) (fired : List Nat) (data : Nat → Int) :
    Ends (EvKQTimer.handle (.kevent fired data)) s
      (fun _ t => TimersInv t ∧ t.log = s.log ∧ ∀ y, t.kqTimer y = s.kqTimer y)
      fun _ _ => False := by
  simp only [EvKQTimer.handle, ends_bind, ends_get, ends_ite]
  refine ⟨fun hempty => ?_, fun _ => ⟨h, by simp⟩⟩
  have hkept := h.kevent (List.isEmpty_iff.1 hempty) fired data
  simp only [EvKQTimer.keventInvoke, ends_modify] at hkept ⊢
  exact ⟨hkept, trivial, fun _ => rfl⟩

end Timers

/-! ## The slots -/

section Slots

def EvKQBase.slot (s : EvKQBase) (fd timeoutType : Nat) : EvBaseKQGenericTimeoutPrototype :=
  (s.fds fd).timeout timeoutType

variable {P : Call → Prop} {before : List Call} {s t : EvKQBase} {fd i x : Nat}

/-- The armed slots and the timers belong together, one to one. `P` holds of what the
armed slots are to invoke, and of what was invoked since `before`. -/
structure Inv (P : Call → Prop) (before : List Call) (s : EvKQBase) : Prop where
  timers : TimersInv s.timers
  armed : ∀ fd i, 0 ≤ s.timerId fd i → i < timeoutLastItem ∧ ∃ x : Nat, s.timerId fd i = x ∧
    (s.timers.kqTimer x).inUse = true ∧ (s.timers.kqTimer x).cbData = fd
  distinct : ∀ fd i j, 0 ≤ s.timerId fd i → s.timerId fd i = s.timerId fd j → i = j
  owned : ∀ x, (s.timers.kqTimer x).inUse = true →
    ∃ i, s.timerId (s.timers.kqTimer x).cbData i = x
  owed : ∀ fd i, 0 ≤ s.timerId fd i → ∀ h, (s.slot fd i).cbHandler = some h →
    P { fd, timeoutType := i, cbHandler := h, cbData := (s.slot fd i).cbData }
  calls : ∃ calls, s.log = before ++ calls ∧ ∀ c ∈ calls, P c

theorem timerId_of_slot {j k : Nat} (h : t.slot fd j = s.slot fd k) :
    t.timerId fd j = s.timerId fd k :=
  congrArg EvBaseKQGenericTimeoutPrototype.timerId h

theorem Inv.keep (h : Inv P before s) (htimers : TimersInv t.timers)
    (hkq : ∀ y, t.timers.kqTimer y = s.timers.kqTimer y)
    (hslots : ∀ fd i, 0 ≤ s.timerId fd i ∨ 0 ≤ t.timerId fd i → t.slot fd i = s.slot fd i)
    (hlog : t.log = s.log) : Inv P before t := by
  have hid : ∀ fd i, 0 ≤ s.timerId fd i ∨ 0 ≤ t.timerId fd i → t.timerId fd i = s.timerId fd i :=
    fun fd i hpos => timerId_of_slot (hslots fd i hpos)
  refine ⟨htimers, fun fd i hpos => ?_, fun fd i j hpos heq => ?_, fun x huse => ?_,
    fun fd i hpos hcb heq => ?_, ?_⟩
  · have hsame := hid fd i (.inr hpos)
    rw [hsame] at hpos ⊢
    obtain ⟨hi, x, hx, huse, hfd⟩ := h.armed fd i hpos
    refine ⟨hi, x, hx, ?_, ?_⟩
    · rw [hkq]
      exact huse
    · rw [hkq]
      exact hfd
  · have hi := hid fd i (.inr hpos)
    have hj := hid fd j (.inr (heq ▸ hpos))
    rw [hi] at hpos heq
    rw [hj] at heq
    exact h.distinct fd i j hpos heq
  · rw [hkq] at huse ⊢
    obtain ⟨i, hi⟩ := h.owned x huse
    have hpos : 0 ≤ s.timerId (s.timers.kqTimer x).cbData i := by omega
    exact ⟨i, (hid _ i (.inl hpos)).trans hi⟩
  · have hslot := hslots fd i (.inr hpos)
    rw [timerId_of_slot hslot] at hpos
    rw [hslot] at heq ⊢
    exact h.owed fd i hpos hcb heq
  · rw [hlog]
    exact h.calls

theorem Inv.disarm (h : Inv P before s) (hid : s.timerId fd i = x)
    (hremoved : Removed x s.timers t.timers) (hself : t.timerId fd i < 0)
    (hothers : ∀ fd' j, ¬(fd' = fd ∧ j = i) → t.slot fd' j = s.slot fd' j)
    (hcalls : ∃ calls, t.log = before ++ calls ∧ ∀ c ∈ calls, P c) : Inv P before t := by
  obtain ⟨-, y, hy, -, hfd⟩ := h.armed fd i (by omega)
  obtain rfl : y = x := by omega
  have hne_of_armed : ∀ fd' j, 0 ≤ t.timerId fd' j → ¬(fd' = fd ∧ j = i) := by
    rintro fd' j hpos ⟨rfl, rfl⟩
    omega
  have hid_of : ∀ fd' j, ¬(fd' = fd ∧ j = i) → t.timerId fd' j = s.timerId fd' j :=
    fun fd' j hne => timerId_of_slot (hothers fd' j hne)
  refine ⟨hremoved.inv, fun fd' j hpos => ?_, fun fd' j k hpos heq => ?_, fun z huse => ?_,
    fun fd' j hpos hcb heq => ?_, hcalls⟩
  · have hne := hne_of_armed fd' j hpos
    rw [hid_of fd' j hne] at hpos ⊢
    obtain ⟨hj, z, hz, huse, hcb⟩ := h.armed fd' j hpos
    have hzx : z ≠ y := by
      rintro rfl
      obtain rfl : fd' = fd := hcb.symm.trans hfd
      exact hne ⟨rfl, h.distinct fd' j i hpos (hz.trans hid.symm)⟩
    refine ⟨hj, z, hz, ?_, ?_⟩
    · rw [hremoved.others z hzx]
      exact huse
    · rw [hremoved.others z hzx]
      exact hcb
  · have hj := hid_of fd' j (hne_of_armed fd' j hpos)
    have hk := hid_of fd' k (hne_of_armed fd' k (heq ▸ hpos))
    rw [hj] at hpos heq
    rw [hk] at heq
    exact h.distinct fd' j k hpos heq
  · have hzx : z ≠ y := by
      rintro rfl
      exact nomatch hremoved.free.symm.trans huse
    rw [hremoved.others z hzx] at huse ⊢
    obtain ⟨j, hj⟩ := h.owned z huse
    refine ⟨j, ?_⟩
    rw [hid_of _ j, hj]
    rintro ⟨hfd', rfl⟩
    rw [hfd'] at hj
    omega
  · have hne := hne_of_armed fd' j hpos
    rw [hid_of fd' j hne] at hpos
    rw [hothers fd' j hne] at heq ⊢
    exact h.owed fd' j hpos hcb heq

theorem Inv.arm (h : Inv P before s) (hi : i < timeoutLastItem) (hfree : s.timerId fd i < 0)
    (hadded : Added fd x s.timers t.timers) (hself : t.timerId fd i = x)
    (hothers : ∀ fd' j, ¬(fd' = fd ∧ j = i) → t.slot fd' j = s.slot fd' j)
    (howed : ∀ hcb, (t.slot fd i).cbHandler = some hcb →
      P { fd, timeoutType := i, cbHandler := hcb, cbData := (t.slot fd i).cbData })
    (hlog : t.log = s.log) : Inv P before t := by
  have hid_of : ∀ fd' j, ¬(fd' = fd ∧ j = i) → t.timerId fd' j = s.timerId fd' j :=
    fun fd' j hne => timerId_of_slot (hothers fd' j hne)
  -- the timers of the other slots were in use before
  have hother : ∀ fd' j, ¬(fd' = fd ∧ j = i) → 0 ≤ t.timerId fd' j →
      j < timeoutLastItem ∧ ∃ z : Nat, z ≠ x ∧ s.timerId fd' j = z ∧
        (s.timers.kqTimer z).inUse = true ∧ (s.timers.kqTimer z).cbData = fd' := by
    intro fd' j hne hpos
    rw [hid_of fd' j hne] at hpos
    obtain ⟨hj, z, hz, huse, hcb⟩ := h.armed fd' j hpos
    refine ⟨hj, z, ?_, hz, huse, hcb⟩
    rintro rfl
    exact nomatch hadded.free.symm.trans huse
  refine ⟨hadded.inv, fun fd' j hpos => ?_, fun fd' j k hpos heq => ?_, fun z huse => ?_,
    fun fd' j hpos hcb heq => ?_, ?_⟩
  · by_cases hne : fd' = fd ∧ j = i
    · obtain ⟨rfl, rfl⟩ := hne
      exact ⟨hi, x, hself, hadded.inUse, hadded.cbData⟩
    · obtain ⟨hj, z, hzx, hz, huse, hcb⟩ := hother fd' j hne hpos
      refine ⟨hj, z, (hid_of fd' j hne).trans hz, ?_, ?_⟩
      · rw [hadded.others z hzx]
        exact huse
      · rw [hadded.others z hzx]
        exact hcb
  · by_cases hj : fd' = fd ∧ j = i
    · obtain ⟨rfl, rfl⟩ := hj
      by_contra hjk
      have hk : ¬(fd' = fd' ∧ k = j) := fun he => hjk he.2.symm
      obtain ⟨-, z, hzx, hz, -⟩ := hother fd' k hk (heq ▸ hpos)
      rw [hself, hid_of fd' k hk, hz] at heq
      omega
    · by_cases hk : fd' = fd ∧ k = i
      · obtain ⟨rfl, rfl⟩ := hk
        obtain ⟨-, z, hzx, hz, -⟩ := hother fd' j hj hpos
        rw [hself, hid_of fd' j hj, hz] at heq
        omega
      · rw [hid_of fd' j hj] at hpos heq
        rw [hid_of fd' k hk] at heq
        exact h.distinct fd' j k hpos heq
  · by_cases hzx : z = x
    · subst hzx
      rw [hadded.cbData]
      exact ⟨i, hself⟩
    · rw [hadded.others z hzx] at huse ⊢
      obtain ⟨j, hj⟩ := h.owned z huse
      refine ⟨j, ?_⟩
      rw [hid_of _ j, hj]
      rintro ⟨hfd, rfl⟩
      rw [hfd] at hj
      omega
  · by_cases hne : fd' = fd ∧ j = i
    · obtain ⟨rfl, rfl⟩ := hne
      exact howed hcb heq
    · rw [hid_of fd' j hne] at hpos
      rw [hothers fd' j hne] at heq ⊢
      exact h.owed fd' j hpos hcb heq
  · rw [hlog]
    exact h.calls

theorem slot_setTimeout (s : EvKQBase) (fd i fd' j : Nat)
    (f : EvBaseKQGenericTimeoutPrototype → EvBaseKQGenericTimeoutPrototype) :
    (s.setTimeout fd i f).slot fd' j =
      if fd' = fd ∧ j = i then f (s.slot fd i) else s.slot fd' j := by
  unfold slot setTimeout setFd
  by_cases hfd : fd' = fd
  · subst hfd
    by_cases hj : j = i
    · subst hj
      simp
    · simp [hj]
  · simp [hfd]

theorem active_setTimeout (s : EvKQBase) (fd i fd' : Nat)
    (f : EvBaseKQGenericTimeoutPrototype → EvBaseKQGenericTimeoutPrototype) :
    ((s.setTimeout fd i f).fds fd').active = (s.fds fd').active := by
  unfold setTimeout setFd
  by_cases hfd : fd' = fd
  · subst hfd
    simp
  · simp [hfd]

/-- No slot is armed by this, and no callback is invoked. -/
structure Frame (s t : EvKQBase) : Prop where
  active : ∀ fd, (t.fds fd).active = (s.fds fd).active
  disarmed : ∀ fd i, s.timerId fd i < 0 → t.timerId fd i < 0
  log : t.log = s.log

theorem Frame.refl (s : EvKQBase) : Frame s s := ⟨fun _ => rfl, fun _ _ h => h, rfl⟩

theorem Frame.trans {u : EvKQBase} (h : Frame s t) (h' : Frame t u) : Frame s u :=
  ⟨fun fd => (h'.active fd).trans (h.active fd),
    fun fd i hneg => h'.disarmed fd i (h.disarmed fd i hneg),
    h'.log.trans h.log⟩

/-- A look-up of `fd` does not overwrite an armed slot. -/
def Intact (s : EvKQBase) (fd : Nat) : Prop :=
  (s.fds fd).active = true ∨ ∀ i < timeoutLastItem, s.timerId fd i < 0

instance (s : EvKQBase) (fd : Nat) : Decidable (Intact s fd) :=
  inferInstanceAs (Decidable (_ ∨ _))

theorem Frame.intact (h : Frame s t) (hs : Intact s fd) : Intact t fd := by
  rcases hs with hactive | hdisarmed
  · exact .inl ((h.active fd).trans hactive)
  · exact .inr fun i hi => h.disarmed fd i (hdisarmed i hi)

theorem Inv.disarmed_of_le (h : Inv P before s) (hi : timeoutLastItem ≤ i) :
    s.timerId fd i < 0 := by
  by_contra hpos
  have hlt := (h.armed fd i (by omega)).1
  omega

abbrev Framed (P : Call → Prop) (before : List Call) (s t : EvKQBase) : Prop :=
  Inv P before t ∧ Frame s t

theorem fdGrabFromArena_framed (h : Inv P before s) (hfd : Intact s fd) :
    Ends (fdGrabFromArena fd) s (fun _ t => Framed P before s t) fun _ _ => False := by
  unfold fdGrabFromArena
  rw [ends_modify]
  split
  · exact ⟨h, Frame.refl s⟩
  · have hidle : ∀ i < timeoutLastItem, s.timerId fd i < 0 := hfd.resolve_left ‹_›
    generalize ht : s.setFd fd _ = t
    have hslot : ∀ fd' i, t.slot fd' i =
        if fd' = fd ∧ i < timeoutLastItem then {} else s.slot fd' i := by
      intro fd' i
      rw [← ht]
      unfold slot setFd
      by_cases hfd : fd' = fd
      · subst hfd
        simp
      · simp [hfd]
    have hneg : ∀ fd' i, s.timerId fd' i < 0 → t.timerId fd' i < 0 := by
      intro fd' i hneg
      change (t.slot fd' i).timerId < 0
      rw [hslot]
      split
      · decide
      · exact hneg
    refine ⟨h.keep ?_ ?_ (fun fd' i harmed => ?_) ?_, ?_, hneg, ?_⟩
    · rw [← ht]
      exact h.timers
    · intro y
      rw [← ht]
      rfl
    · rw [hslot, if_neg]
      rintro ⟨rfl, hi⟩
      have hs := hidle i hi
      have htneg := hneg fd' i hs
      omega
    · rw [← ht]
      rfl
    · intro fd'
      rw [← ht]
      unfold setFd
      by_cases hfd : fd' = fd
      · subst hfd
        simp
      · simp [hfd]
    · rw [← ht]
      rfl

theorem timeoutClearByKQFD_framed (h : Inv P before s) (fd i : Nat) :
    Ends (timeoutClearByKQFD fd i) s
      (fun _ t => Framed P before s t ∧ t.timerId fd i < 0) fun _ _ => False := by
  simp only [timeoutClearByKQFD, timers, ends_bind, ends_get, ends_ite, ends_pure, ends_within]
  refine ⟨fun hi => ⟨⟨h, Frame.refl s⟩, h.disarmed_of_le hi⟩,
    fun _ => ⟨fun hneg => ?_, fun hpos => ?_⟩⟩
  · exact ⟨⟨h, Frame.refl s⟩, hneg⟩
  · obtain ⟨-, x, hx, huse, -⟩ := h.armed fd i (by omega)
    rw [hx]
    refine (timerCtl_delete_ends h.timers huse).imp fun _ u hu => ?_
    simp only [ends_modify]
    generalize ht : setTimeout _ fd i _ = t
    have hslot : ∀ fd' j, t.slot fd' j = if fd' = fd ∧ j = i then {} else s.slot fd' j := by
      intro fd' j
      rw [← ht, slot_setTimeout]
      rfl
    have hself : t.timerId fd i < 0 := by
      change (t.slot fd i).timerId < 0
      rw [hslot, if_pos ⟨rfl, rfl⟩]
      decide
    have hothers : ∀ fd' j, ¬(fd' = fd ∧ j = i) → t.slot fd' j = s.slot fd' j := by
      intro fd' j hne
      rw [hslot, if_neg hne]
    have hlog : t.log = s.log := by
      rw [← ht]
      rfl
    have hremoved : Removed x s.timers t.timers := by
      rw [← ht]
      exact hu.1
    refine ⟨⟨h.disarm hx hremoved hself hothers (hlog ▸ h.calls), ?_, fun fd' j hneg => ?_, hlog⟩,
      hself⟩
    · intro fd'
      rw [← ht, active_setTimeout]
    · by_cases hne : fd' = fd ∧ j = i
      · obtain ⟨rfl, rfl⟩ := hne
        exact hself
      · rw [timerId_of_slot (hothers fd' j hne)]
        exact hneg

theorem timeoutClear_framed (h : Inv P before s) (fd i : Nat)
    (hfd : i < timeoutLastItem → Intact s fd) :
    Ends (timeoutClear fd i) s
      (fun _ t => Framed P before s t ∧ t.timerId fd i < 0) fun _ _ => False := by
  simp only [timeoutClear, ends_bind, ends_ite, ends_pure]
  refine ⟨fun hneg => absurd hneg (by omega), fun _ => ⟨fun hi => ?_, fun hi => ?_⟩⟩
  · exact ⟨⟨h, Frame.refl s⟩, h.disarmed_of_le hi⟩
  · rw [Int.toNat_natCast]
    refine (fdGrabFromArena_framed h (hfd (Nat.lt_of_not_le hi))).imp fun _ t ht => ?_
    refine (timeoutClearByKQFD_framed ht.1 fd i).imp fun _ u hu => ?_
    exact ⟨⟨hu.1.1, ht.2.trans hu.1.2⟩, hu.2⟩

theorem timeoutClearAll_framed (h : Inv P before s) (fd : Nat) (hfd : Intact s fd) :
    Ends (timeoutClearAll fd) s
      (fun _ t => Framed P before s t ∧ ∀ i, t.timerId fd i < 0) fun _ _ => False := by
  simp only [timeoutClearAll, ends_bind, ends_ite, ends_pure]
  refine ⟨fun hneg => absurd hneg (by omega), fun _ => ?_⟩
  refine (timeoutClear_framed h fd timeoutRead fun _ => hfd).imp fun _ t ht => ?_
  have htfd := ht.1.2.intact hfd
  refine (timeoutClear_framed ht.1.1 fd timeoutWrite fun _ => htfd).imp fun _ u hu => ?_
  have hufd := hu.1.2.intact htfd
  refine (timeoutClear_framed hu.1.1 fd timeoutBoth fun _ => hufd).imp fun _ v hv => ?_
  refine ⟨⟨hv.1.1, (ht.1.2.trans hu.1.2).trans hv.1.2⟩, fun i => ?_⟩
  rcases i with _ | _ | _ | i
  · exact hv.1.2.disarmed fd _ (hu.1.2.disarmed fd _ ht.2)
  · exact hv.1.2.disarmed fd _ hu.2
  · exact hv.2
  · exact hv.1.1.disarmed_of_le (Nat.le_add_left _ _)

theorem timeoutSet_arms (h : Inv P before s) {cbHandler cbData : Nat} (hi : i < timeoutLastItem)
    (hfree : s.timerId fd i < 0) (timeoutMs whenTs : Int)
    (howed : P { fd, timeoutType := i, cbHandler, cbData }) :
    Ends (do
        modify fun s => s.setTimeout fd i fun timeout =>
          { timeout with cbHandler := some cbHandler, cbData, whenTs, timeoutMs }
        let timerId ← timers (timerAdd .addVolatile timeoutMs (some timeoutInternal) fd)
        modify fun s => s.setTimeout fd i fun timeout => { timeout with timerId := timerId }) s
      (fun _ t => Inv P before t) fun _ _ => False := by
  simp only [timers, ends_bind, ends_modify, ends_within]
  obtain ⟨p, hp⟩ : ∃ p, (s.setTimeout fd i fun timeout =>
    { timeout with cbHandler := some cbHandler, cbData, whenTs, timeoutMs }) = p := ⟨_, rfl⟩
  have hwritten : ∀ fd' j, p.slot fd' j = if fd' = fd ∧ j = i then
      { s.slot fd i with cbHandler := some cbHandler, cbData, whenTs, timeoutMs }
      else s.slot fd' j := by
    intro fd' j
    rw [← hp, slot_setTimeout]
  have htimers : p.timers = s.timers := by
    rw [← hp]
    rfl
  have hlog : p.log = s.log := by
    rw [← hp]
    rfl
  rw [hp, htimers]
  refine (timerAdd_ends h.timers timeoutMs fd).imp fun timerId u hu => ?_
  generalize ht : setTimeout _ fd i _ = t
  have hslot : ∀ fd' j, t.slot fd' j = if fd' = fd ∧ j = i then
      { cbHandler := some cbHandler, cbData, whenTs, timeoutMs, timerId }
      else s.slot fd' j := by
    intro fd' j
    rw [← ht, slot_setTimeout]
    split
    · change { p.slot fd i with timerId := timerId } = _
      rw [hwritten, if_pos ⟨rfl, rfl⟩]
    · change p.slot fd' j = _
      rw [hwritten, if_neg ‹_›]
  have hself : t.timerId fd i = timerId := by
    change (t.slot fd i).timerId = _
    rw [hslot, if_pos ⟨rfl, rfl⟩]
  have hothers : ∀ fd' j, ¬(fd' = fd ∧ j = i) → t.slot fd' j = s.slot fd' j := by
    intro fd' j hne
    rw [hslot, if_neg hne]
  have hlog' : t.log = s.log := by
    rw [← hlog, ← ht]
    rfl
  have htimers' : t.timers = u := by
    rw [← ht]
    rfl
  rcases hu with ⟨rfl, hsame⟩ | ⟨x, rfl, hadded, -⟩
  · -- no timer could be added
    refine h.keep ?_ (fun y => ?_) (fun fd' j harmed => hothers fd' j ?_) hlog'
    · rw [htimers', hsame]
      exact h.timers
    · rw [htimers', hsame]
    · rintro ⟨rfl, rfl⟩
      rw [hself] at harmed
      omega
  · refine h.arm hi hfree (htimers' ▸ hadded) hself hothers (fun hcb heq => ?_) hlog'
    rw [hslot, if_pos ⟨rfl, rfl⟩] at heq ⊢
    obtain rfl := Option.some.inj heq
    exact howed

theorem Inv.write (h : Inv P before s) (hfree : s.timerId fd i < 0)
    {f : EvBaseKQGenericTimeoutPrototype → EvBaseKQGenericTimeoutPrototype}
    (hf : (f (s.slot fd i)).timerId < 0) :
    Inv P before (s.setTimeout fd i f) ∧ (s.setTimeout fd i f).timerId fd i < 0 := by
  have hself : (s.setTimeout fd i f).timerId fd i < 0 := by
    change ((s.setTimeout fd i f).slot fd i).timerId < 0
    rw [slot_setTimeout, if_pos ⟨rfl, rfl⟩]
    exact hf
  refine ⟨h.keep h.timers (fun _ => rfl) (fun fd' j harmed => ?_) rfl, hself⟩
  rw [slot_setTimeout, if_neg]
  rintro ⟨rfl, rfl⟩
  omega

theorem timeoutSet_keeps (h : Inv P before s) (fd : Nat) (i : Nat) (timeoutMs : Int)
    (cbHandler : Option Nat) (cbData : Nat) (hfd : i < timeoutLastItem → Intact s fd)
    (hnull : cbHandler = none → s.timerId fd i < 0)
    (howed : ∀ h, cbHandler = some h → P { fd, timeoutType := i, cbHandler := h, cbData }) :
    Ends (timeoutSet fd i timeoutMs cbHandler cbData) s
      (fun _ t => Inv P before t ∧ (cbHandler = none → t.timerId fd i < 0))
      fun _ _ => False := by
  simp only [timeoutSet, ends_bind, ends_get, ends_ite, ends_pure]
  refine ⟨fun hneg => absurd hneg (by omega), fun _ => ⟨fun hi => ⟨h, hnull⟩, fun hi => ?_⟩⟩
  simp only [Int.toNat_natCast]
  refine (fdGrabFromArena_framed h (hfd (Nat.lt_of_not_le hi))).imp fun _ t ht => ?_
  obtain ⟨hinv, hframe⟩ := ht
  refine ⟨fun _ => ⟨hinv, fun hnone => hframe.disarmed fd i (hnull hnone)⟩, fun hfree => ?_⟩
  have hneg : t.timerId fd i < 0 := by omega
  cases cbHandler with
  | some hcb =>
      refine (timeoutSet_arms hinv (Nat.lt_of_not_le hi) hneg timeoutMs _ (howed hcb rfl)).imp
        (fun _ u hu => ⟨hu, (by simp)⟩)
  | none =>
      simp only [ends_ite, ends_bind, ends_modify]
      refine ⟨fun hpos => absurd hpos hfree, fun _ => ?_⟩
      have hminus : (-1 : Int) < 0 := by decide
      have hwrite := hinv.write hneg (f := fun _ => { cbData := cbData }) hminus
      exact ⟨hwrite.1, fun _ => hwrite.2⟩

theorem timeoutInternalEvent_keeps (h : Inv P before s) {u : EvKQTimer.EvKQBase}
    (huse : (s.timers.kqTimer x).inUse = true) (hremoved : Removed x s.timers u) :
    Ends (timeoutInternalEvent x (s.timers.kqTimer x).cbData) { s with timers := u }
      (fun _ t => Inv P before t) fun _ _ => False := by
  obtain ⟨fd, hfd⟩ : ∃ fd, (s.timers.kqTimer x).cbData = fd := ⟨_, rfl⟩
  rw [hfd]
  simp only [timeoutInternalEvent, ends_bind, ends_get]
  cases hfind : (List.range timeoutLastItem).find? fun i =>
      timerId { s with timers := u } fd i == (x : Int) with
  | none =>
      -- the timer has a slot
      obtain ⟨i, hi⟩ := h.owned x huse
      rw [hfd] at hi
      have hlt := (h.armed fd i (by omega)).1
      have hnot := find?_eq_none.1 hfind i (mem_range.2 hlt)
      exact absurd (beq_iff_eq.2 hi) hnot
  | some i =>
      have hfound := find?_some hfind
      have hid : s.timerId fd i = x := eq_of_beq hfound
      simp only [ends_bind, ends_modify]
      have hdisarm : ∀ {t : EvKQBase}, t.timers = u →
          (∀ fd' j, t.slot fd' j = if fd' = fd ∧ j = i then {} else s.slot fd' j) →
          (∃ calls, t.log = before ++ calls ∧ ∀ c ∈ calls, P c) → Inv P before t := by
        intro t htimers hslot hcalls
        refine h.disarm hid (htimers ▸ hremoved) ?_ (fun fd' j hne => ?_) hcalls
        · change (t.slot fd i).timerId < 0
          rw [hslot, if_pos ⟨rfl, rfl⟩]
          decide
        · rw [hslot, if_neg hne]
      have hslot : ∀ fd' j,
          (setTimeout { s with timers := u } fd i fun _ => {}).slot fd' j =
            if fd' = fd ∧ j = i then {} else s.slot fd' j := by
        intro fd' j
        rw [slot_setTimeout]
        rfl
      cases hcb : (({ s with timers := u }.fds fd).timeout i).cbHandler with
      | none => exact hdisarm rfl hslot h.calls
      | some cbHandler =>
          refine hdisarm rfl hslot ?_
          obtain ⟨calls, hlog, hall⟩ := h.calls
          have howed := h.owed fd i (by omega) cbHandler hcb
          refine ⟨calls ++ [{ fd, timeoutType := i, cbHandler, cbData := (s.slot fd i).cbData }],
            ?_, fun c hc => ?_⟩
          · change s.log ++ _ = _
            rw [hlog, append_assoc]
            rfl
          · rcases mem_append.1 hc with hc | hc
            · exact hall c hc
            · rw [mem_singleton.1 hc]
              exact howed

theorem invokeCallbacks_keeps (h : Inv P before s) (hfresh : Fresh s.timers) :
    Ends invokeCallbacks s (fun _ t => Inv P before t) fun _ _ => False := by
  simp only [invokeCallbacks, timers, ends_bind, ends_get, ends_within]
  refine (invokeCallbacks_ends h.timers hfresh).imp fun _ u hu => ?_
  rcases hu with ⟨hinv, hlog, hkq⟩ | ⟨x, call, huse, hremoved, hlog, hid, hdata⟩
  · rw [hlog, getElem?_length]
    exact h.keep hinv hkq (fun _ _ _ => rfl) rfl
  · rw [hlog, getElem?_concat_length]
    simp only [hid, hdata]
    exact timeoutInternalEvent_keeps h huse hremoved

theorem Inv.setFd (h : Inv P before s) (fd : Nat) {f : EvBaseKQFileDesc → EvBaseKQFileDesc}
    (hf : ∀ kqFd, (f kqFd).timeout = kqFd.timeout) : Inv P before (s.setFd fd f) := by
  refine h.keep h.timers (fun _ => rfl) (fun fd' i _ => ?_) rfl
  unfold EvKQBase.slot EvKQBase.setFd
  by_cases hfd : fd' = fd
  · subst hfd
    simp [hf]
  · simp [hfd]

theorem timeoutClear_twice (h : Inv P before s) (fd i j : Nat) :
    Ends (timeoutClearByKQFD fd i) s
      (fun _ t => Ends (timeoutClearByKQFD fd j) t (fun _ u => Inv P before u) fun _ _ => False)
      fun _ _ => False := by
  refine (timeoutClearByKQFD_framed h fd i).imp fun _ t ht => ?_
  exact (timeoutClearByKQFD_framed ht.1.1 fd j).imp fun _ _ hu => hu.1.1

theorem fdEventInvoke_keeps (h : Inv P before s) (fd : Nat) (evCode : EvCode) :
    Ends (fdEventInvoke fd evCode) s (fun _ t => Inv P before t) fun _ _ => False := by
  have hvolatile : Inv P before (s.setFd fd fun kqFd =>
      { kqFd with
          cbHandler := Function.update kqFd.cbHandler evCode
            { (s.fds fd).cbHandler evCode with enabled := false } }) :=
    h.setFd fd fun _ => rfl
  simp only [fdEventInvoke]
  rw [ends_bind, ends_get]
  cases evCode with
  | read =>
      simp only [ends_bind, ends_ite, ends_modify]
      refine ⟨fun _ => h, fun _ => ⟨fun _ => h, fun _ => ⟨fun _ => ?_, fun _ => ?_⟩⟩⟩
      · exact timeoutClear_twice hvolatile fd timeoutRead timeoutBoth
      · exact timeoutClear_twice h fd timeoutRead timeoutBoth
  | write =>
      simp only [ends_bind, ends_ite, ends_modify]
      refine ⟨fun _ => h, fun _ => ⟨fun _ => h, fun _ => ⟨fun _ => ?_, fun _ => ?_⟩⟩⟩
      · exact timeoutClear_twice hvolatile fd timeoutWrite timeoutBoth
      · exact timeoutClear_twice h fd timeoutWrite timeoutBoth
  | other evCode =>
      simp only [ends_bind, ends_ite, ends_modify]
      exact ⟨fun _ => h, fun _ => ⟨fun _ => h, fun _ => ⟨fun _ => hvolatile, fun _ => h⟩⟩⟩

end Slots

/-! ## Runs -/

def Event.looksUp : Event → Option Nat
  | .fdInit fd | .timeoutClearAll fd => if fd < 0 then none else some fd.toNat
  | .fdCleanup fd | .setEvent fd .. | .fdEvent fd _ => some fd
  | .timeoutSet fd timeoutType .. | .timeoutClear fd timeoutType =>
      if fd < 0 ∨ timeoutLastItem ≤ timeoutType then none else some fd.toNat
  | .kevent .. | .dispatch => none

/-- No armed slot is overwritten by a look-up or left armed by a set without a handler,
and no event is dispatched to a younger timer. -/
def Sound (s : EvKQBase) (e : Event) : Prop :=
  (∀ fd ∈ e.looksUp, Intact s fd) ∧
    match e with
    | .timeoutSet fd timeoutType _ none _ => 0 ≤ fd → s.timerId fd.toNat timeoutType < 0
    | .dispatch => Fresh s.timers
    | _ => True

instance (s : EvKQBase) (e : Event) : Decidable (Sound s e) := by
  unfold Sound
  cases e with
  | timeoutSet fd timeoutType timeoutMs cbHandler cbData =>
      cases cbHandler <;> infer_instance
  | _ => infer_instance

def Event.owes : Event → Option Call
  | .timeoutSet fd timeoutType _ (some cbHandler) cbData =>
      if fd < 0 then none else some { fd := fd.toNat, timeoutType, cbHandler, cbData }
  | _ => none

/-- The steps that are to leave the slot disarmed. -/
def Event.Disarms (fd timeoutType : Nat) : Event → Prop
  | .timeoutSet fd' i _ none _ => fd' = fd ∧ i = timeoutType
  | .timeoutClear fd' i => fd' = fd ∧ i = timeoutType
  | .timeoutClearAll fd' => fd' = fd
  | .fdCleanup fd' => fd' = fd
  | _ => False

section Runs

variable {P : Call → Prop} {before : List Call} {s t : EvKQBase}

/-- **One step.**  A sound step keeps the slots and the timers together, and disarms what
it is to disarm. -/
theorem handle_keeps (h : Inv P before s) (e : Event) (hsound : Sound s e)
    (howes : ∀ call ∈ e.owes, P call) :
    Ends (handle e) s
      (fun _ t => Inv P before t ∧ ∀ fd i, e.Disarms fd i → t.timerId fd i < 0)
      fun _ _ => False := by
  obtain ⟨hlook, hsound⟩ := hsound
  cases e with
  | fdInit fd =>
      simp only [handle, fdGenericInit, ends_bind, ends_ite, ends_pure, ends_modify]
      refine ⟨fun _ => ⟨h, fun _ _ hno => hno.elim⟩, fun hpos => ?_⟩
      refine (fdGrabFromArena_framed h (hlook fd.toNat (by simp [Event.looksUp, hpos]))).imp
        (fun _ t ht => ⟨?_, fun _ _ hno => hno.elim⟩)
      exact ht.1.setFd fd.toNat fun _ => rfl
  | fdCleanup fd =>
      simp only [handle, fdCleanup, ends_bind, ends_modify]
      refine (timeoutClearAll_framed h fd (hlook fd rfl)).imp fun _ t ht => ?_
      refine ⟨ht.1.1.setFd fd fun _ => rfl, fun fd' i heq => ?_⟩
      obtain rfl : fd = fd' := heq
      have hslot : (t.setFd fd fun kqFd =>
          { kqFd with active := false, cbHandler := fun _ => {} }).slot fd i = t.slot fd i := by
        simp [slot, setFd]
      rw [timerId_of_slot hslot]
      exact ht.2 i
  | setEvent fd evCode evProto =>
      simp only [handle, ends_bind, ends_modify]
      refine (fdGrabFromArena_framed h (hlook fd rfl)).imp
        (fun _ t ht => ⟨?_, fun _ _ hno => hno.elim⟩)
      exact ht.1.setFd fd fun _ => rfl
  | timeoutSet fd i timeoutMs cbHandler cbData =>
      by_cases hneg : fd < 0
      · simp only [handle, timeoutSet, ends_bind, ends_ite, ends_pure]
        refine ⟨fun _ => ⟨h, fun fd' j hdis => ?_⟩, fun hpos => absurd hneg hpos⟩
        cases cbHandler with
        | none => exact absurd hdis.1 (by omega)
        | some hcb => exact hdis.elim
      · obtain ⟨n, rfl⟩ := Int.eq_ofNat_of_zero_le (Int.not_lt.1 hneg)
        refine (timeoutSet_keeps h n i timeoutMs cbHandler cbData (fun hi => ?_) (fun hnone => ?_)
          fun hcb hsome => ?_).imp fun _ t ht => ⟨ht.1, fun fd' j hdis => ?_⟩
        · exact hlook n (by simp [Event.looksUp, hi])
        · subst hnone
          exact hsound (by omega)
        · subst hsome
          exact howes _ (by simp [Event.owes])
        · cases cbHandler with
          | none =>
              obtain ⟨heq, rfl⟩ := hdis
              obtain rfl : n = fd' := by omega
              exact ht.2 rfl
          | some hcb => exact hdis.elim
  | timeoutClear fd i =>
      simp only [handle, ends_bind, ends_pure]
      by_cases hneg : fd < 0
      · simp only [timeoutClear, ends_bind, ends_ite, ends_pure]
        refine ⟨fun _ => ⟨h, fun fd' j hdis => ?_⟩, fun hpos => absurd hneg hpos⟩
        exact absurd hdis.1 (by omega)
      · obtain ⟨n, rfl⟩ := Int.eq_ofNat_of_zero_le (Int.not_lt.1 hneg)
        refine (timeoutClear_framed h n i fun hi => ?_).imp
          (fun _ t ht => ⟨ht.1.1, fun fd' j hdis => ?_⟩)
        · exact hlook n (by simp [Event.looksUp, hi])
        · obtain ⟨heq, rfl⟩ := hdis
          obtain rfl : n = fd' := by omega
          exact ht.2
  | timeoutClearAll fd =>
      simp only [handle, ends_bind, ends_pure]
      by_cases hneg : fd < 0
      · simp only [timeoutClearAll, ends_bind, ends_ite, ends_pure]
        refine ⟨fun _ => ⟨h, fun fd' j hdis => ?_⟩, fun hpos => absurd hneg hpos⟩
        exact absurd hdis (by change fd ≠ fd'; omega)
      · obtain ⟨n, rfl⟩ := Int.eq_ofNat_of_zero_le (Int.not_lt.1 hneg)
        refine (timeoutClearAll_framed h n ?_).imp
          (fun _ t ht => ⟨ht.1.1, fun fd' j hdis => ?_⟩)
        · exact hlook n (by simp [Event.looksUp])
        · have heq : (n : Int) = fd' := hdis
          obtain rfl : n = fd' := by omega
          exact ht.2 j
  | fdEvent fd evCode =>
      simp only [handle, ends_bind]
      refine (fdGrabFromArena_framed h (hlook fd rfl)).imp fun _ t ht => ?_
      exact (fdEventInvoke_keeps ht.1 fd evCode).imp
        (fun _ _ hu => ⟨hu, fun _ _ hno => hno.elim⟩)
  | kevent curInvokeTsSec fired data =>
      simp only [handle, timers, ends_bind, ends_modify, ends_within]
      refine (kevent_ends h.timers fired data).imp fun _ u hu => ?_
      exact ⟨h.keep hu.1 hu.2.2 (fun _ _ _ => rfl) rfl, fun _ _ hno => hno.elim⟩
  | dispatch =>
      exact (invokeCallbacks_keeps h hsound).imp
        (fun _ _ ht => ⟨ht, fun _ _ hno => hno.elim⟩)

theorem new_disarmed (timerMax fd i : Nat) : ¬0 ≤ (new timerMax).timerId fd i :=
  show ¬(0 : Int) ≤ -1 by decide

theorem inv_new (timerMax : Nat) : Inv P [] (new timerMax) where
  timers :=
    { wf := wf_init _ _
      linked := fun _ _ hx => nomatch hx
      used := fun _ => iff_of_false nofun nofun
      idle := fun _ _ => rfl
      plain := fun _ hx => nomatch hx
      mirror := fun _ _ hf => nomatch hf
      tags := fun _ hev => nomatch hev
      gone := fun _ hev => nomatch hev
      live := fun _ hx => nomatch hx }
  armed _ _ hpos := absurd hpos (new_disarmed _ _ _)
  distinct _ _ _ hpos := absurd hpos (new_disarmed _ _ _)
  owned _ hx := nomatch hx
  owed _ _ hpos := absurd hpos (new_disarmed _ _ _)
  calls := ⟨[], rfl, nofun⟩

theorem run_keeps {c : Runs.Config EvKQTimer.Fault EvKQBase} {evs : List Event}
    (hc : Runs.Holds (Inv P before) (fun _ _ => False) c) (hsound : Runs.Meets handle Sound c evs)
    (howes : ∀ e ∈ evs, ∀ call ∈ e.owes, P call) :
    Runs.Holds (Inv P before) (fun _ _ => False) (Runs.run handle c evs) := by
  refine Runs.invariant_run_of (fun e s hs he => ?_) hc evs (hsound.and_forall howes)
  exact (handle_keeps hs e he.1 he.2).imp fun _ _ ht => ht.1

/-- The calls are counted from now on, and may be expected to be those of later sets as
far as the slot `i` of `fd` is concerned, if that is disarmed. -/
theorem Inv.disarmed (h : Inv P before s) {fd i : Nat} (hfree : s.timerId fd i < 0)
    {Q : Call → Prop} (hQ : ∀ call : Call, ¬(call.fd = fd ∧ call.timeoutType = i) → Q call) :
    Inv Q s.log s := by
  refine ⟨h.timers, h.armed, h.distinct, h.owned, fun fd' j hpos hcb _ => hQ _ ?_,
    [], (append_nil _).symm, nofun⟩
  rintro ⟨rfl, rfl⟩
  exact absurd hfree (Int.not_lt.2 hpos)

/-- A slot is armed if and only if a live timer is registered for it. -/
structure Paired (s : EvKQBase) : Prop where
  armed : ∀ fd i, 0 ≤ s.timerId fd i → ∃ x : Nat, s.timerId fd i = x ∧
    (s.timers.kqTimer x).inUse = true ∧ (s.timers.kqTimer x).cbData = fd ∧ Live s.timers x
  alone : ∀ fd i fd' j, 0 ≤ s.timerId fd i → s.timerId fd i = s.timerId fd' j → fd = fd' ∧ i = j
  registered : ∀ x, (s.timers.kqTimer x).inUse = true →
    ∃ i, s.timerId (s.timers.kqTimer x).cbData i = x
  filters : ∀ x f, s.timers.table x = some f →
    (s.timers.kqTimer x).inUse = true ∧ (s.timers.kqTimer x).serial = f.tag

theorem Inv.paired (h : Inv P before s) : Paired s := by
  refine ⟨fun fd i hpos => ?_, fun fd i fd' j hpos heq => ?_, h.owned, fun x f hf => ?_⟩
  · obtain ⟨-, x, hx, huse, hfd⟩ := h.armed fd i hpos
    exact ⟨x, hx, huse, hfd, h.timers.live x huse⟩
  · obtain ⟨-, x, hx, -, hfd⟩ := h.armed fd i hpos
    obtain ⟨-, y, hy, -, hfd'⟩ := h.armed fd' j (heq ▸ hpos)
    obtain rfl : x = y := by omega
    obtain rfl : fd = fd' := hfd.symm.trans hfd'
    exact ⟨rfl, h.distinct fd i j hpos heq⟩
  · have hown := h.timers.mirror x f hf
    exact ⟨hown.inUse, hown.serial⟩

/-- After the step `e` of the run `before ++ e :: after` the slot is disarmed, and what is
invoked for it later was set later. -/
def Silenced (timerMax : Nat) (before : List Event) (e : Event) (after : List Event)
    (fd i : Nat) : Prop :=
  (runFrom timerMax (before ++ [e])).state.timerId fd i < 0 ∧
    ∃ calls, (runFrom timerMax (before ++ e :: after)).state.log =
        (runFrom timerMax (before ++ [e])).state.log ++ calls ∧
      ∀ call ∈ calls, call.fd = fd ∧ call.timeoutType = i →
        ∃ timeoutMs, .timeoutSet fd i timeoutMs (some call.cbHandler) call.cbData ∈ after

/-- **Timeouts and their timers.**  In every run of sound steps a slot is armed if and only
if a live timer is registered for it, a set without a handler and a clear leave the slot
disarmed, and nothing is invoked for it afterwards but what a later set asked for. -/
theorem timeouts_paired (timerMax : Nat) (evs : List Event)
    (hsound : Runs.Meets handle Sound (.live (new timerMax)) evs) :
    (runFrom timerMax evs).fault = none ∧ Paired (runFrom timerMax evs).state ∧
      ∀ before e after fd i, evs = before ++ e :: after → e.Disarms fd i →
        Silenced timerMax before e after fd i := by
  have hkeeps : ∀ {evs : List Event}, Runs.Meets handle Sound (.live (new timerMax)) evs →
      Runs.Holds (Inv (fun _ => True) []) (fun _ _ => False) (runFrom timerMax evs) :=
    fun h => run_keeps (inv_new timerMax) h fun _ _ _ _ => trivial
  have hend := (hkeeps hsound).safe
  refine ⟨hend.1, hend.2.paired, ?_⟩
  rintro before e after fd i rfl hdis
  obtain ⟨hbefore, hfrom⟩ := Runs.meets_append.1 hsound
  obtain ⟨he, hafter⟩ := hfrom
  have hstep : runFrom timerMax (before ++ [e]) = Runs.step handle (runFrom timerMax before) e :=
    Runs.run_append ..
  have hrest : runFrom timerMax (before ++ e :: after) =
      Runs.run handle (Runs.step handle (runFrom timerMax before) e) after :=
    Runs.run_append ..
  have hmid := Runs.holds_step_of (hkeeps hbefore) e fun hnone hinv =>
    (handle_keeps hinv e (he hnone) fun _ _ => trivial)
  obtain ⟨hnone, hinv, hfree⟩ := hmid.safe
  have hneg := hfree fd i hdis
  unfold Silenced
  rw [hstep, hrest]
  refine ⟨hneg, ?_⟩
  let Q : Call → Prop := fun call => call.fd = fd ∧ call.timeoutType = i →
    ∃ timeoutMs, Event.timeoutSet fd i timeoutMs (some call.cbHandler) call.cbData ∈ after
  have hstart : Runs.Holds (Inv Q (Runs.step handle (runFrom timerMax before) e).state.log)
      (fun _ _ => False) (Runs.step handle (runFrom timerMax before) e) := by
    unfold Runs.Holds
    rw [hnone]
    exact hinv.disarmed hneg fun call hother hslot => absurd hslot hother
  refine (run_keeps hstart hafter fun e he call hcall hslot => ?_).safe.2.calls
  cases e with
  | timeoutSet fd' j timeoutMs cbHandler cbData =>
      cases cbHandler with
      | none => cases hcall
      | some hcb =>
          by_cases hneg : fd' < 0
          · simp [Event.owes, hneg] at hcall
          · simp only [Event.owes, hneg, if_false, Option.mem_def, Option.some.injEq] at hcall
            obtain rfl := hcall
            obtain ⟨hfd, rfl⟩ := hslot
            simp only at hfd
            obtain rfl : fd' = fd := by omega
            exact ⟨timeoutMs, he⟩
  | _ => cases hcall

/-- Two descriptors, one of which is cleared and armed again while the other waits. -/
def twoArmed : List Event :=
  [.fdInit 3, .fdInit 4, .timeoutSet 3 0 1000 (some 7) 1, .timeoutSet 4 1 2000 (some 8) 2,
    .timeoutClear 3 0, .timeoutSet 3 0 500 (some 9) 3, .kevent 1 [0, 1] fun _ => 1, .dispatch,
    .timeoutSet 4 2 0 none 0, .dispatch]

theorem timeouts_paired_twoArmed :
    (runFrom 4 twoArmed).fault = none ∧ Paired (runFrom 4 twoArmed).state ∧
      ∀ before e after fd i, twoArmed = before ++ e :: after → e.Disarms fd i →
        Silenced 4 before e after fd i :=
  timeouts_paired 4 twoArmed (by decide)

/-- A set without a handler returns before it deletes the timer of an armed slot. -/
theorem null_set_leaves_armed :
    ¬ (runFrom 4 [.fdInit 3, .timeoutSet 3 0 1000 (some 7) 0,
      .timeoutSet 3 0 0 none 0]).state.timerId 3 0 < 0 := by
  decide

end Runs

end EvKQTimeout
