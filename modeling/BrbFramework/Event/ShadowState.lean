import BrbFramework.Event.Timers
import Mathlib.Data.List.Induction

/-!
# The shadow of the kernel's filters

For each descriptor and direction the base has two flags, `enabled` and `persist`, and the
kernel has a filter or not. The flags decide which changes are queued for the kernel.
Two flags cannot tell a filter that is disabled from one that is missing, nor one that is
enabled from a one-shot that has fired and whose event is still to be dispatched.

The steps of a run are the calls of `EvKQBaseSetEvent`, from anywhere, the call of
`kevent` and the turns of the loop over its events; `EvKQBaseClearEvents` is one call
after the other. Whether a descriptor is deferred is decided elsewhere.
-/

namespace EvKQShadow

open Function

open EvKQTimer (CommAction)

inductive Direction
  | read | write
  deriving DecidableEq, Repr

/-- `EvBaseKQGenericEventPrototype`. -/
structure EventPrototype where
  cbHandler : Option Nat := none
  cbData : Nat := 0
  enabled : Bool := false
  persist : Bool := false
  deriving DecidableEq, Repr

abbrev Ident := Nat × Direction

structure EvKQBase where
  cbHandler : Ident → EventPrototype := fun _ => {}
  deferWrite : Nat → Bool := fun _ => false
  /-- `ke_chg.chg_arr`, where the tag of a filter is its `EV_CLEAR`. -/
  chgArr : List (Kqueue.Change Ident Bool) := []
  kernel : Kqueue.Table Ident Bool := fun _ => none
  eventArr : List Ident := []
  /-- The last action on a descriptor and direction, which no function of the source reads. -/
  last : Ident → Option CommAction := fun _ => none

namespace EvKQBase

variable (s : EvKQBase)

def table : Kqueue.Table Ident Bool := Kqueue.changes s.kernel s.chgArr

def setProto (i : Ident) (f : EventPrototype → EventPrototype) : EvKQBase :=
  { s with cbHandler := Function.update s.cbHandler i (f (s.cbHandler i)) }

end EvKQBase

variable (s : EvKQBase)

/-- The flags of `EvKQBaseEnqueueEvChg` for the actions that are queued. -/
def chgAction : CommAction → Kqueue.Action Bool
  | .delete => .delete
  | .addPersist => .add false false
  | .addTransition => .add true false
  | .addVolatile => .add false true
  | .enable => .enable
  | .disable => .disable
  | .clear => .touch

/-- `EvKQBaseEnqueueEvChg`. -/
def enqueueEvChg (i : Ident) (action : CommAction) : EvKQBase :=
  { s with chgArr := s.chgArr ++ [{ ident := i, action := chgAction action }] }

def addEvent (i : Ident) (action : CommAction) (cbHandler : Option Nat) (cbData : Nat) : EvKQBase :=
  if cbHandler.isSome then
    enqueueEvChg (s.setProto i fun _ =>
      { cbHandler, cbData, enabled := true, persist := action ≠ .addVolatile }) i action
  else s

def deleteEvent (i : Ident) : EvKQBase :=
  let s := if (s.cbHandler i).enabled then enqueueEvChg s i .delete else s
  s.setProto i fun _ => {}

def enableEvent (i : Ident) : EvKQBase :=
  if (s.cbHandler i).enabled then s
  else (enqueueEvChg s i .enable).setProto i fun proto => { proto with enabled := true }

def disableEvent (i : Ident) : EvKQBase :=
  if (s.cbHandler i).enabled then
    (enqueueEvChg s i .disable).setProto i fun proto => { proto with enabled := false }
  else s

/-- `EvKQBaseUpdateReadEvent`. -/
def updateReadEvent (fd : Nat) (action : CommAction) (cbHandler : Option Nat) (cbData : Nat) :
    EvKQBase :=
  match action with
  | .addVolatile | .addTransition | .addPersist => addEvent s (fd, .read) action cbHandler cbData
  | .delete => deleteEvent s (fd, .read)
  | .enable => enableEvent s (fd, .read)
  | .disable => disableEvent s (fd, .read)
  | .clear => enqueueEvChg s (fd, .read) .clear

/-- `EvKQBaseUpdateWriteEvent`. -/
def updateWriteEvent (fd : Nat) (action : CommAction) (cbHandler : Option Nat) (cbData : Nat) :
    EvKQBase :=
  match action with
  | .addVolatile | .addPersist => addEvent s (fd, .write) action cbHandler cbData
  | .delete => deleteEvent s (fd, .write)
  | .enable => if s.deferWrite fd then s else enableEvent s (fd, .write)
  | .disable => disableEvent s (fd, .write)
  | .addTransition | .clear => s

/-- `EvKQBaseSetEvent` of the two directions. -/
def setEvent (fd : Int) (direction : Direction) (action : CommAction) (cbHandler : Option Nat)
    (cbData : Nat) : EvKQBase :=
  if fd < 0 then s
  else
    let i := (fd.toNat, direction)
    let s := { s with last := Function.update s.last i (some action) }
    match direction with
    | .read => updateReadEvent s fd.toNat action cbHandler cbData
    | .write => updateWriteEvent s fd.toNat action cbHandler cbData

/-- `EvKQBaseFDEventInvoke`, up to the callback. -/
def fdEventInvoke (i : Ident) : EvKQBase :=
  let proto := s.cbHandler i
  if proto.enabled && proto.cbHandler.isSome && !proto.persist then
    s.setProto i fun proto => { proto with enabled := false }
  else s

/-- `EvKQBaseKEventInvoke`. -/
def keventInvoke (fired : List Ident) : EvKQBase :=
  { s with
    chgArr := []
    kernel := (Kqueue.collect s.table fired).2
    eventArr := (Kqueue.collect s.table fired).1.map (·.1) }

/-- The next turn of the loop of `EvKQInvokeKQFDCallbacks`, where the descriptor is deferred
or not. -/
def invokeCallbacks (deferred : Bool) : EvKQBase :=
  match s.eventArr with
  | [] => s
  | i :: rest =>
      let s := { s with eventArr := rest }
      if !(s.cbHandler i).enabled || deferred then s else fdEventInvoke s i

inductive Event
  | setEvent (fd : Int) (direction : Direction) (action : CommAction) (cbHandler : Option Nat)
      (cbData : Nat)
  /-- `flags.defer_write` is written. -/
  | defer (fd : Nat) (deferWrite : Bool)
  | kevent (fired : List Ident)
  | dispatch (deferred : Bool)
  deriving DecidableEq, Repr

def step : Event → EvKQBase
  | .setEvent fd direction action cbHandler cbData => setEvent s fd direction action cbHandler cbData
  | .defer fd deferWrite => { s with deferWrite := Function.update s.deferWrite fd deferWrite }
  | .kevent fired => if s.eventArr = [] then keventInvoke s fired else s
  | .dispatch deferred => invokeCallbacks s deferred

/-- The steps `evs` of a new base. -/
def runFrom (evs : List Event) : EvKQBase := evs.foldl step {}

/-- `EvKQBaseClearEvents`, for the two directions. -/
def clearEvents (fd : Int) : List Event :=
  [.setEvent fd .read .delete none 0, .setEvent fd .write .delete none 0]

/-! ## What is promised -/

/-- A filter whose last action was DELETE is gone after the queued changes, and each of
them refers to a filter that is registered. -/
structure Proper (s : EvKQBase) : Prop where
  deleted : ∀ i, s.last i = some .delete → s.table i = none
  accepted : Kqueue.refused s.kernel s.chgArr = []

/-- What the flag and the kernel know of an event. -/
inductive Phase
  | absent
  /-- Registered and enabled. -/
  | armed
  /-- Disabled, but registered. -/
  | muted
  /-- Enabled, but the one-shot has fired and is still to be dispatched. -/
  | spent
  deriving DecidableEq, Repr

def phase (i : Ident) : Phase :=
  match (s.cbHandler i).enabled, s.table i with
  | false, none => .absent
  | true, some _ => .armed
  | false, some _ => .muted
  | true, none => .spent

def Orderly : Event → Prop
  | .setEvent fd direction action _ _ => 0 ≤ fd →
      match action with
      | .delete => phase s (fd.toNat, direction) = .absent ∨ phase s (fd.toNat, direction) = .armed
      | .enable => phase s (fd.toNat, direction) ≠ .absent ∨
          (direction = .write ∧ s.deferWrite fd.toNat = true)
      | .disable => phase s (fd.toNat, direction) ≠ .spent
      | .clear => direction = .read →
          phase s (fd.toNat, direction) = .armed ∨ phase s (fd.toNat, direction) = .muted
      | .addVolatile | .addPersist | .addTransition => True
  | _ => True

section Steps

variable {s} {t : EvKQBase} {i : Ident} {action : CommAction}

theorem table_concat {c : Kqueue.Change Ident Bool} (hkernel : t.kernel = s.kernel)
    (hchg : t.chgArr = s.chgArr ++ [c]) : t.table = Kqueue.change s.table c := by
  rw [EvKQBase.table, hkernel, hchg, Kqueue.changes_concat]
  rfl

theorem proper_iff_of_ignored (i : Ident) (action : CommAction) (h : Proper s) 
    (hkernel : t.kernel = s.kernel) (hchg : t.chgArr = s.chgArr)
    (hlast : t.last = update s.last i (some action)) :
    Proper t ↔ (action = .delete → s.table i = none) := by
  have htable : t.table = s.table := by rw [EvKQBase.table, hkernel, hchg, EvKQBase.table]
  constructor
  · rintro ht rfl
    rw [← htable]
    exact ht.deleted i (by rw [hlast, update_self])
  · intro hdel
    refine ⟨fun j hj => ?_, by rw [hkernel, hchg]; exact h.accepted⟩
    rw [hlast] at hj
    rw [htable]
    by_cases hji : j = i
    · rw [hji, update_self] at hj
      exact hji ▸ hdel (Option.some.inj hj)
    · rw [update_of_ne hji] at hj
      exact h.deleted j hj

theorem proper_iff_of_queued (i : Ident) (action : CommAction) (h : Proper s)
    (hkernel : t.kernel = s.kernel)
    (hchg : t.chgArr = s.chgArr ++ [⟨i, chgAction action⟩])
    (hlast : t.last = update s.last i (some action)) :
    Proper t ↔ ¬ Kqueue.Refused s.table ⟨i, chgAction action⟩ := by
  have htable := table_concat hkernel hchg
  have hrefused : Kqueue.refused t.kernel t.chgArr =
      if Kqueue.Refused s.table ⟨i, chgAction action⟩ then [⟨i, chgAction action⟩] else [] := by
    rw [hkernel, hchg, Kqueue.refused_append, h.accepted]
    simp only [List.nil_append, Kqueue.refused]
    rfl
  constructor
  · intro ht hno
    have haccepted := ht.accepted
    rw [hrefused, if_pos hno] at haccepted
    cases haccepted
  · intro hyes
    refine ⟨fun j hj => ?_, by rw [hrefused, if_neg hyes]⟩
    rw [hlast] at hj
    rw [htable]
    by_cases hji : j = i
    · subst hji
      rw [update_self] at hj
      obtain rfl := Option.some.inj hj
      rw [Kqueue.change_self]
      cases hf : s.table j with
      | none => rfl
      | some f => rfl
    · rw [update_of_ne hji] at hj
      rw [Kqueue.change_of_ne hji]
      exact h.deleted j hj

theorem refused_iff (action : CommAction) (hadd : ∀ tag oneshot, chgAction action ≠ .add tag oneshot) :
    Kqueue.Refused s.table ⟨i, chgAction action⟩ ↔ s.table i = none := by
  unfold Kqueue.Refused
  cases hf : s.table i <;> cases action <;> simp_all [chgAction, Kqueue.Action.apply]

variable {cbHandler : Option Nat} {cbData : Nat}

theorem addEvent_proper (h : Proper s) (hadd : ∃ tag oneshot, chgAction action = .add tag oneshot) :
    Proper (addEvent { s with last := update s.last i (some action) } i action cbHandler
      cbData) := by
  unfold addEvent
  split
  · refine (proper_iff_of_queued i action h (by rfl) (by rfl) (by rfl)).2 ?_
    obtain ⟨tag, oneshot, hadd⟩ := hadd
    rw [hadd]
    nofun
  · refine (proper_iff_of_ignored i action h (by rfl) (by rfl) (by rfl)).2 ?_
    rintro rfl
    obtain ⟨tag, oneshot, hadd⟩ := hadd
    cases hadd

theorem deleteEvent_proper (h : Proper s) :
    Proper (deleteEvent { s with last := update s.last i (some .delete) } i) ↔
      phase s i = .absent ∨ phase s i = .armed := by
  simp only [deleteEvent, phase]
  cases (s.cbHandler i).enabled with
  | true =>
      rw [if_pos rfl]
      refine (proper_iff_of_queued i .delete h (by rfl) (by rfl) (by rfl)).trans ?_
      rw [refused_iff .delete nofun]
      cases s.table i <;> simp
  | false =>
      rw [if_neg nofun]
      refine (proper_iff_of_ignored i .delete h (by rfl) (by rfl) (by rfl)).trans ?_
      cases s.table i <;> simp

theorem enableEvent_proper (h : Proper s) :
    Proper (enableEvent { s with last := update s.last i (some .enable) } i) ↔
      phase s i ≠ .absent := by
  simp only [enableEvent, phase]
  cases (s.cbHandler i).enabled with
  | true =>
      rw [if_pos rfl]
      refine (proper_iff_of_ignored i .enable h (by rfl) (by rfl) (by rfl)).trans ?_
      cases s.table i <;> simp
  | false =>
      rw [if_neg nofun]
      refine (proper_iff_of_queued i .enable h (by rfl) (by rfl) (by rfl)).trans ?_
      rw [refused_iff .enable nofun]
      cases s.table i <;> simp

theorem disableEvent_proper (h : Proper s) :
    Proper (disableEvent { s with last := update s.last i (some .disable) } i) ↔
      phase s i ≠ .spent := by
  simp only [disableEvent, phase]
  cases (s.cbHandler i).enabled with
  | true =>
      rw [if_pos rfl]
      refine (proper_iff_of_queued i .disable h (by rfl) (by rfl) (by rfl)).trans ?_
      rw [refused_iff .disable nofun]
      cases s.table i <;> simp
  | false =>
      rw [if_neg nofun]
      refine (proper_iff_of_ignored i .disable h (by rfl) (by rfl) (by rfl)).trans ?_
      cases s.table i <;> simp

theorem clear_proper (h : Proper s) :
    Proper (enqueueEvChg { s with last := update s.last i (some .clear) } i .clear) ↔
      phase s i = .armed ∨ phase s i = .muted := by
  unfold phase
  refine (proper_iff_of_queued i .clear h (by rfl) (by rfl) (by rfl)).trans ?_
  rw [refused_iff .clear nofun]
  cases (s.cbHandler i).enabled <;> cases s.table i <;> simp

theorem setEvent_proper (h : Proper s) (fd : Int) (direction : Direction) :
    Proper (setEvent s fd direction action cbHandler cbData) ↔
      Orderly s (.setEvent fd direction action cbHandler cbData) := by
  unfold setEvent
  split
  · refine iff_of_true h fun hpos => ?_
    omega
  · have hpos : 0 ≤ fd := by omega
    simp only [Orderly, hpos, true_implies]
    cases direction with
    | read =>
        cases action <;> simp only [updateReadEvent]
        case delete => exact deleteEvent_proper h
        case enable => simpa using enableEvent_proper h
        case disable => exact disableEvent_proper h
        case clear => simpa using clear_proper h
        all_goals exact iff_true_intro (addEvent_proper h ⟨_, _, rfl⟩)
    | write =>
        cases action <;> simp only [updateWriteEvent]
        case delete => exact deleteEvent_proper h
        case enable =>
          by_cases hdefer : s.deferWrite fd.toNat = true
          · rw [if_pos hdefer]
            refine iff_of_true ?_ (.inr ⟨trivial, hdefer⟩)
            exact (proper_iff_of_ignored (fd.toNat, .write) .enable h (by rfl) (by rfl) (by rfl)).2 nofun
          · rw [if_neg hdefer]
            simpa [hdefer] using enableEvent_proper h
        case disable => exact disableEvent_proper h
        case clear =>
          refine iff_of_true ?_ nofun
          exact (proper_iff_of_ignored (fd.toNat, .write) .clear h (by rfl) (by rfl) (by rfl)).2 nofun
        case addTransition =>
          refine iff_true_intro ?_
          exact (proper_iff_of_ignored (fd.toNat, .write) .addTransition h (by rfl) (by rfl)
            (by rfl)).2 nofun
        all_goals exact iff_true_intro (addEvent_proper h ⟨_, _, rfl⟩)

theorem Proper.of_eq (h : Proper s) (hkernel : t.kernel = s.kernel) (hchg : t.chgArr = s.chgArr)
    (hlast : t.last = s.last) : Proper t := by
  have htable : t.table = s.table := by rw [EvKQBase.table, hkernel, hchg, EvKQBase.table]
  refine ⟨fun i hi => ?_, by rw [hkernel, hchg]; exact h.accepted⟩
  rw [htable]
  exact h.deleted i (hlast ▸ hi)

theorem Proper.kevent (h : Proper s) (fired : List Ident) : Proper (keventInvoke s fired) := by
  refine ⟨fun i hi => ?_, rfl⟩
  cases hf : (keventInvoke s fired).table i with
  | none => rfl
  | some f =>
      have hold := Kqueue.collect_sub fired hf
      rw [h.deleted i hi] at hold
      cases hold

theorem Proper.invokeCallbacks (h : Proper s) (deferred : Bool) :
    Proper (invokeCallbacks s deferred) := by
  unfold EvKQShadow.invokeCallbacks
  split
  · exact h
  · simp only [fdEventInvoke]
    split
    · exact h.of_eq rfl rfl rfl
    · split <;> exact h.of_eq rfl rfl rfl

/-- **One step.**  A step keeps the promise if and only if the flags follow it. -/
theorem step_proper (h : Proper s) (e : Event) : Proper (step s e) ↔ Orderly s e := by
  cases e with
  | setEvent fd direction action cbHandler cbData => exact setEvent_proper h fd direction
  | defer fd deferWrite => exact iff_true_intro (h.of_eq rfl rfl rfl)
  | kevent fired =>
      refine iff_true_intro ?_
      simp only [step]
      split
      · exact h.kevent fired
      · exact h
  | dispatch deferred => exact iff_true_intro (h.invokeCallbacks deferred)

end Steps

/-- **The shadow state.**  The promise holds in all the states of a run if and only if the
flags follow each of its steps. -/
theorem shadow_iff (evs : List Event) :
    (∀ before, before <+: evs → Proper (runFrom before)) ↔
      ∀ before e, before ++ [e] <+: evs → Orderly (runFrom before) e := by
  have hstep : ∀ before e, runFrom (before ++ [e]) = step (runFrom before) e := fun before e =>
    List.foldl_concat ..
  constructor
  · intro h before e hpre
    have hbefore := h before ((List.prefix_append _ _).trans hpre)
    refine (step_proper hbefore e).1 ?_
    rw [← hstep]
    exact h _ hpre
  · intro h before hpre
    induction before using List.reverseRecOn with
    | nil => exact ⟨fun _ hi => (nomatch hi), rfl⟩
    | append_singleton before e ih =>
        have hbefore := ih ((List.prefix_append _ _).trans hpre)
        rw [hstep]
        exact (step_proper hbefore e).2 (h before e hpre)

/-- A read event is added, disabled and deleted: the DELETE is not queued. -/
theorem disabled_filter_stays :
    ¬ Proper (runFrom [.setEvent 3 .read .addPersist (some 1) 0, .setEvent 3 .read .disable none 0,
      .setEvent 3 .read .delete none 0]) := by
  intro h
  have hdeleted := h.deleted (3, .read) (by decide)
  revert hdeleted
  decide

end EvKQShadow
