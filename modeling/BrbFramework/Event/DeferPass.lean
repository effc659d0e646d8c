import BrbFramework.Event.Defer
import BrbFramework.Lib.Agenda
import Mathlib.Data.List.Infix

/-!
# One pass over the deferred descriptors

`EvKQBaseDeferBeginCheck` walks the READ list and then the WRITE list. Where it stands is
the lowest frame of the stack, whatever the program does above it, and what is ahead of it
on the two lists is the agenda of the pass. A removal may dispatch a pending event, whose
callback may take other descriptors off the READ list, and may put the one that was removed
back on at its head, behind the walk.

The loop over the WRITE list goes on, after a removal, in the loop over the READ list. And
neither loop survives that the node it stands at, or goes on to, is taken off its list.
-/

namespace EvKQDefer

open Handler List Function EvKQBase
open EvKQTimer (CommAction)
open EvKQShadow (Direction EventPrototype)

variable {s t u : EvKQBase} {fd : Nat}

/-! ## Lists and positions -/

def behind (l : List Nat) (fd : Nat) : List Nat := l.drop (l.idxOf fd + 1)

theorem behind_cons_self (l : List Nat) (fd : Nat) : behind (fd :: l) fd = l := by
  simp [behind]

theorem behind_cons_of_ne (l : List Nat) {n : Nat} (hne : fd ≠ n) :
    behind (fd :: l) n = behind l n := by
  simp [behind, idxOf_cons_ne _ hne]

theorem behind_eq {l : List Nat} (hnodup : l.Nodup) (fd : Nat) :
    behind l fd = match l[l.idxOf fd + 1]? with
      | some n => n :: behind l n
      | none => [] := by
  split
  next n hn =>
    obtain ⟨hlt, rfl⟩ := List.getElem?_eq_some_iff.1 hn
    rw [behind, behind, hnodup.idxOf_getElem]
    exact drop_eq_getElem_cons hlt
  next hnone => exact drop_eq_nil_of_le (List.getElem?_eq_none_iff.1 hnone)

theorem behind_erase {l : List Nat} (hnodup : l.Nodup) {n : Nat} (hne : fd ≠ n) :
    behind (l.erase fd) n = (behind l n).erase fd := by
  induction l with
  | nil => rfl
  | cons x l ih =>
      obtain ⟨hx, hl⟩ := nodup_cons.1 hnodup
      by_cases hfd : x = fd
      · subst hfd
        have hnot : x ∉ behind l n := fun hin => hx (mem_of_mem_drop hin)
        rw [erase_cons_head, behind_cons_of_ne l hne, erase_of_not_mem hnot]
      · rw [erase_cons_tail (by simpa using hfd)]
        by_cases hxn : x = n
        · subst hxn
          rw [behind_cons_self, behind_cons_self]
        · rw [behind_cons_of_ne _ hxn, behind_cons_of_ne _ hxn, ih hl]

theorem not_mem_behind {l : List Nat} (hnodup : l.Nodup) (fd : Nat) : fd ∉ behind l fd := by
  induction l with
  | nil => exact not_mem_nil
  | cons x l ih =>
      obtain ⟨hx, hl⟩ := nodup_cons.1 hnodup
      by_cases hfd : x = fd
      · subst hfd
        rw [behind_cons_self]
        exact hx
      · rw [behind_cons_of_ne l hfd]
        exact ih hl

/-! ## The pass -/

/-- The WRITE list is walked after the READ list. -/
def afterLoop (s : EvKQBase) : Direction → List Node
  | .read => (s.deferList .write).map (.write, ·)
  | .write => []

/-- What is ahead of the walk at a position, with the descriptor it stands at until that
one is checked. -/
def aheadOf (s : EvKQBase) : Frame → List Node
  | .walk loop (some node) _ =>
      (loop, node.2) :: ((behind (s.deferList loop) node.2).map (loop, ·) ++ afterLoop s loop)
  | .walk loop none _ => afterLoop s loop
  | .walked loop node _ => (behind (s.deferList loop) node.2).map (loop, ·) ++ afterLoop s loop
  | _ => []

def agenda (s : EvKQBase) : List Node :=
  match s.stack.getLast? with
  | some base => aheadOf s base
  | none => []

def due (s : EvKQBase) : List Node :=
  (s.deferList .read).map (.read, ·) ++ (s.deferList .write).map (.write, ·)

/-- The check of a descriptor is enabled, and there is a handler to invoke. -/
def checks (s : EvKQBase) (node : Node) : Bool :=
  ((s.fd node.2).deferCheck node.1).enabled && ((s.fd node.2).deferCheck node.1).cbHandler.isSome

/-- The descriptor that a loop of the pass has reached, with the direction of the loop. -/
def reached (s : EvKQBase) : Option Node :=
  match s.stack with
  | .walk loop (some node) _ :: _ => some (loop, node.2)
  | _ => none

/-- The check handler that the pass invokes in a step, by its direction and descriptor. -/
def invoked (s : EvKQBase) : Event → List Node
  | .step => (reached s).toList.filter (checks s)
  | _ => []

/-- A descriptor is not linked, or its check is not enabled when it is reached. -/
def Skipped (node : Node) (s : EvKQBase) : Prop :=
  node.2 ∉ s.deferList node.1 ∨ reached s = some node ∧ checks s node = false

/-- The pass that begins in `s`, where the two answers are not initialized. -/
def begun (s : EvKQBase) (read write : Int) : EvKQBase :=
  s.push [.walk .read (listHead s .read) fun | .read => read | .write => write]

/-- Whose turn it is until the pass is over: the base goes on by itself, or waits for the
program, which may make calls before it answers. -/
def Turn (s : EvKQBase) : Event → Prop
  | .step => s.calls = false
  | .invoke .. | .beginCheck .. | .closeJob .. => False
  | _ => s.calls = true ∧ s.stack ≠ []

/-- The node that the walk stands at, or goes on to. -/
def Frame.node : Frame → Option Node
  | .walk _ node _ => node
  | .walked _ node _ => some node
  | _ => none

/-- The walk stands at a descriptor of the READ list that is flagged. -/
def StandsAt (s : EvKQBase) (fd : Nat) : Prop :=
  (s.fd fd).defer .read = true ∧ s.stack.getLast?.bind Frame.node = some (.read, fd)

/-- No answer ends a deferral in the loop over the WRITE list. Where an enabled check has no
handler the last answer counts again. -/
def KeepsWrite (s : EvKQBase) : Event → Prop
  | .ret answer =>
      match s.stack with
      | .callback :: .walked .write _ _ :: _ => answer ≠ 0
      | _ => True
  | .step =>
      match s.stack with
      | .walk .write (some node) answers :: _ =>
          ((s.fd node.2).deferCheck .write).enabled = true → checks s (.write, node.2) = false →
            answers .write ≠ 0
      | _ => True
  | _ => True

/-- No call of the program takes the node from under the walk. -/
def LeavesNode (s : EvKQBase) : Event → Prop
  | .setDeferCheck .read fd .delete _ _ | .clearEvents fd | .close fd _ => ¬StandsAt s fd
  | _ => True

/-- The steps of a pass whose two loops both stay where they are. -/
structure Undisturbed (s : EvKQBase) (e : Event) : Prop where
  turn : Turn s e
  keepsWrite : KeepsWrite s e
  leavesNode : LeavesNode s e

instance : DecidablePred (Turn s) := by
  intro e
  unfold Turn
  split <;> infer_instance

instance : DecidablePred (StandsAt s) := fun _ =>
  inferInstanceAs (Decidable (_ ∧ _))

instance : DecidablePred (KeepsWrite s) := by
  intro e
  unfold KeepsWrite
  split
  · split <;> infer_instance
  · split <;> infer_instance
  · infer_instance

instance (node : Node) : Decidable (Skipped node s) :=
  inferInstanceAs (Decidable (_ ∨ _ ∧ _))

instance : DecidablePred (LeavesNode s) := by
  intro e
  unfold LeavesNode
  split <;> infer_instance

instance : DecidablePred (Undisturbed s) := fun e =>
  decidable_of_iff (Turn s e ∧ KeepsWrite s e ∧ LeavesNode s e)
    ⟨fun h => ⟨h.1, h.2.1, h.2.2⟩, fun h => ⟨h.turn, h.keepsWrite, h.leavesNode⟩⟩

/-- What the steps of the base and the answers of the program cost. -/
def Event.cost : Event → Nat
  | .ret _ | .step => 1
  | _ => 0

def Event.gain : Event → Nat
  | .ret _ | .step => 0
  | _ => 4

/-- A pass checks every descriptor that was on the lists at the start once, in their order,
with the handler of its own direction, unless it is skipped, and comes to an end. -/
structure Passes (s : EvKQBase) (read write : Int) (evs : List Event) : Prop where
  once : List.Sublist (Runs.notes handle invoked (.live (begun s read write)) evs) (due s)
  all : (Runs.run handle (.live (begun s read write)) evs).fault = none →
    (Runs.run handle (.live (begun s read write)) evs).state.stack = [] →
      ∀ node ∈ due s, node ∈ Runs.notes handle invoked (.live (begun s read write)) evs ∨
        ∃ evs', evs' <+: evs ∧
          Skipped node (Runs.run handle (.live (begun s read write)) evs').state
  ends : (Runs.run handle (.live (begun s read write)) evs).fault = none →
    (evs.map Event.cost).sum ≤ 6 * (due s).length + 2 + (evs.map Event.gain).sum

/-! ## What runs in a pass -/

/-- The frames of a pass: which checks of removed descriptors wait, and where the walk
stands. -/
inductive Nested : List Frame → List Nat → Frame → Prop
  | walk (loop : Direction) (node : Option Node) (answer : Direction → Int) :
      Nested [.walk loop node answer] [] (.walk loop node answer)
  | walked (loop : Direction) (node : Node) (answer : Direction → Int) :
      Nested [.callback, .walked loop node answer] [] (.walked loop node answer)
  | callback {l : List Frame} {waiting : List Nat} {base : Frame} :
      Nested l waiting base → Nested (.callback :: l) waiting base
  | recheck {l : List Frame} {waiting : List Nat} {base : Frame} (fd : Nat) :
      Nested l waiting base → Nested (.recheck .read fd :: l) (fd :: waiting) base
  | checked {l : List Frame} {waiting : List Nat} {base : Frame} (fd : Nat) (eventSz : Int) :
      Nested l waiting base →
        Nested (.callback :: .checked .read fd eventSz :: l) (fd :: waiting) base

/-- The walk stands at a linked node of its own list. -/
def AtNode (s : EvKQBase) : Frame → Prop
  | .walk loop (some node) _ | .walked loop node _ => node.1 = loop ∧ node.2 ∈ s.deferList loop
  | _ => True

/-- A pass is going on. The descriptors whose check waits are off the READ list. -/
structure Walking (s : EvKQBase) (waiting : List Nat) (base : Frame) : Prop where
  nodup : ∀ direction, (s.deferList direction).Nodup
  nested : Nested s.stack waiting base
  once : waiting.Nodup
  off : ∀ fd ∈ waiting, fd ∉ s.deferList .read ∧ (s.fd fd).defer .read = false
  atNode : AtNode s base

def InPass (s : EvKQBase) : Prop := s.stack = [] ∨ ∃ waiting base, Walking s waiting base

def Frame.weight : Frame → Nat
  | .callback | .checked .. => 1
  | .recheck .. => 3
  | .event .. => 0
  | .walk .read .. => 2
  | .walk .write .. => 1
  | .walked .read .. => 6
  | .walked .write .. => 5

def budget (s : EvKQBase) : Nat := (s.stack.map Frame.weight).sum + 6 * (agenda s).length

/-! ## What a step does to the lists and the stack -/

/-- The lists and the stack stay, and no READ flag is raised. -/
structure Lowered (s t : EvKQBase) : Prop where
  deferList : t.deferList = s.deferList
  stack : t.stack = s.stack
  defer : ∀ fd, (s.fd fd).defer .read = false → (t.fd fd).defer .read = false

/-- A flagged descriptor is taken off the READ list, and its pending event is dispatched. -/
structure Taken (fd : Nat) (s t : EvKQBase) : Prop where
  flagged : (s.fd fd).defer .read = true
  deferList : t.deferList = Function.update s.deferList .read ((s.deferList .read).erase fd)
  stack : t.stack = s.stack ∨ t.stack = .recheck .read fd :: s.stack ∨
    t.stack = .callback :: .recheck .read fd :: s.stack
  defer : ∀ x, (s.fd x).defer .read = false ∨ x = fd → (t.fd x).defer .read = false

/-- A descriptor is put at the head of the READ list. -/
structure Added (fd : Nat) (s t : EvKQBase) : Prop where
  deferList : t.deferList = Function.update s.deferList .read (fd :: s.deferList .read)
  stack : t.stack = s.stack
  defer : ∀ x, x ≠ fd → (s.fd x).defer .read = false → (t.fd x).defer .read = false

theorem Lowered.refl (s : EvKQBase) : Lowered s s := ⟨rfl, rfl, fun _ h => h⟩

theorem Lowered.trans (h : Lowered s t) (h' : Lowered t u) : Lowered s u where
  deferList := h'.deferList.trans h.deferList
  stack := h'.stack.trans h.stack
  defer fd hfd := h'.defer fd (h.defer fd hfd)

theorem Taken.trans_lowered (h : Taken fd s t) (h' : Lowered t u) : Taken fd s u where
  flagged := h.flagged
  deferList := h'.deferList.trans h.deferList
  stack := by
    rw [h'.stack]
    exact h.stack
  defer x hx := h'.defer x (h.defer x hx)

theorem Lowered.trans_taken (h : Lowered s t) (h' : Taken fd t u) : Taken fd s u where
  flagged := by
    cases hflag : (s.fd fd).defer .read with
    | true => rfl
    | false => exact absurd (h'.flagged.symm.trans (h.defer fd hflag)) nofun
  deferList := by
    rw [h'.deferList, h.deferList]
  stack := by
    rw [← h.stack]
    exact h'.stack
  defer x hx := h'.defer x (hx.imp_left (h.defer x))

def Called (fd : Nat) (s t : EvKQBase) : Prop := Lowered s t ∨ Taken fd s t

theorem Called.trans_lowered (h : Called fd s t) (h' : Lowered t u) : Called fd s u :=
  h.imp (fun h => h.trans h') fun h => h.trans_lowered h'

theorem lowered_setFd (fd : Nat) (f : EvBaseKQFileDesc → EvBaseKQFileDesc)
    (hf : ∀ kqFd, kqFd.defer .read = false → (f kqFd).defer .read = false) :
    Lowered s (s.setFd fd f) where
  deferList := rfl
  stack := rfl
  defer x hx := by
    by_cases hfd : x = fd
    · subst hfd
      simpa [setFd] using hf _ hx
    · simpa [setFd, update_of_ne hfd] using hx

theorem lowered_setDeferProto (direction : Direction) (fd : Nat)
    (f : EventPrototype → EventPrototype) : Lowered s (s.setDeferProto direction fd f) :=
  lowered_setFd fd _ fun _ h => h

theorem lowered_setEvent (fd : Nat) (direction : Direction) (action : CommAction)
    (cbHandler : Option Nat) (cbData : Nat) :
    Lowered s (s.setEvent fd direction action cbHandler cbData) :=
  ⟨rfl, rfl, fun _ h => h⟩

theorem deferRemove_takes (fd : Nat) :
    Ends (deferRemove .read fd) s
      (fun _ t => ((s.fd fd).defer .read = false ∧ t = s) ∨ Taken fd s t) fun _ _ => False := by
  simp only [deferRemove, ends_bind, ends_get, ends_ite, ends_pure, ends_set, ends_modify]
  refine ⟨fun hnot => .inl ⟨by simpa using hnot, trivial⟩, fun hnot => ?_⟩
  have hflagged : (s.fd fd).defer .read = true := by simpa using hnot
  have hreset : ∀ (c : Prop) u,
      u.deferList = update s.deferList .read ((s.deferList .read).erase fd) →
      u.stack = s.stack → u.fd = s.fd →
      Ends (deferResetIterFlags .read fd) u
        (fun _ t =>
          (c → Ends (fdEventInvoke .read fd) (t.push [.recheck .read fd])
            (fun _ t => ((s.fd fd).defer .read = false ∧ t = s) ∨ Taken fd s t) fun _ _ => False) ∧
          (¬c → ((s.fd fd).defer .read = false ∧ t = s) ∨ Taken fd s t)) fun _ _ => False := by
    intro c u hlist hstack hfd
    rw [deferResetIterFlags, ends_modify]
    have hlower : ∀ x, (s.fd x).defer .read = false ∨ x = fd →
        ((u.setFd fd fun kqFd =>
          { kqFd with
            pendingBytes := update kqFd.pendingBytes .read 0
            transitionSet := update kqFd.transitionSet .read false
            defer := update kqFd.defer .read false }).fd x).defer .read = false := by
      intro x hx
      by_cases heq : x = fd
      · subst heq
        simp [setFd]
      · rw [or_iff_left heq] at hx
        simpa [setFd, update_of_ne heq, hfd] using hx
    refine ⟨fun _ => ?_, fun _ => .inr ⟨hflagged, hlist, .inl hstack, hlower⟩⟩
    rw [fdEventInvoke, ends_modify]
    dsimp only
    split
    · exact .inr ⟨hflagged, hlist, .inr (.inr (by rw [← hstack]; rfl)), hlower⟩
    · exact .inr ⟨hflagged, hlist, .inr (.inl (by rw [← hstack]; rfl)), hlower⟩
  exact ⟨fun _ => ⟨fun _ => hreset _ _ rfl rfl rfl, fun _ => hreset _ _ rfl rfl rfl⟩,
    fun _ => hreset _ _ rfl rfl rfl⟩

theorem deferRemove_called (h : Lowered s t) (fd : Nat) :
    Ends (deferRemove .read fd) t (fun _ => Called fd s) fun _ _ => False := by
  apply (deferRemove_takes fd).imp
  intro _ u hu
  rcases hu with ⟨-, rfl⟩ | hu
  · exact .inl h
  · exact .inr (h.trans_taken hu)

theorem updateDeferCheck_lowered (direction : Direction) (fd : Nat) (action : CommAction)
    (cbHandler : Option Nat) (cbData : Nat) :
    Ends (updateDeferCheck direction fd action cbHandler cbData) s (fun _ => Lowered s)
      fun _ _ => False := by
  have hset : ∀ f b, Lowered s ((s.setDeferProto direction fd f).setDeleted direction fd b) :=
    fun f b => (lowered_setDeferProto direction fd f).trans ⟨rfl, rfl, fun _ h => h⟩
  simp only [updateDeferCheck, ends_bind, ends_get]
  cases action with
  | addVolatile | addPersist =>
      simp only [ends_ite, ends_set, ends_pure]
      exact ⟨fun _ => hset _ _, fun _ => .refl s⟩
  | delete => exact hset _ _
  | enable | disable => exact lowered_setDeferProto direction fd _
  | addTransition | clear => exact .refl s

theorem updateDeferCheckReadEvent_called (h : Lowered s t) (fd : Nat) (action : CommAction)
    (cbHandler : Option Nat) (cbData : Nat) :
    Ends (updateDeferCheckReadEvent fd action cbHandler cbData) t
      (fun _ u => Lowered s u ∨ action = .delete ∧ Taken fd s u) fun _ _ => False := by
  rw [updateDeferCheckReadEvent, ends_bind]
  apply (updateDeferCheck_lowered .read fd action cbHandler cbData).imp
  intro _ u hu
  simp only [ends_ite, ends_pure]
  refine ⟨fun hdelete => ?_, fun _ => .inl (h.trans hu)⟩
  apply (deferRemove_called (h.trans hu) fd).imp
  intro _ v hv
  exact hv.imp_right fun htaken => ⟨hdelete, htaken⟩

theorem setDeferCheck_called (direction : Direction) (fd : Nat) (action : CommAction)
    (cbHandler : Option Nat) (cbData : Nat) :
    Ends (setDeferCheck direction fd action cbHandler cbData) s
      (fun _ t => Lowered s t ∨ (direction = .read ∧ action = .delete) ∧ Taken fd s t)
      fun _ _ => False := by
  cases direction with
  | read =>
      apply (updateDeferCheckReadEvent_called (.refl s) fd action cbHandler cbData).imp
      intro _ t ht
      exact ht.imp_right fun htaken => ⟨⟨rfl, htaken.1⟩, htaken.2⟩
  | write =>
      apply (updateDeferCheck_lowered .write fd action cbHandler cbData).imp
      intro _ t ht
      exact .inl ht

theorem clearEvents_called (h : Lowered s t) (fd : Nat) :
    Ends (clearEvents fd) t (fun _ => Called fd s) fun _ _ => False := by
  simp only [clearEvents, ends_bind, ends_modify]
  have hset := (h.trans (lowered_setEvent fd .read .delete none 0)).trans
    (lowered_setEvent fd .write .delete none 0)
  apply (updateDeferCheckReadEvent_called hset fd .delete none 0).imp
  intro _ u hu
  apply (updateDeferCheck_lowered .write fd .delete none 0).imp
  intro _ v hv
  exact Called.trans_lowered (hu.imp_right And.right) hv

theorem deferReset_lowered (fd : Nat) :
    Ends (deferReset fd) s (fun _ => Lowered s) fun _ _ => False := by
  rw [deferReset, ends_modify]
  exact lowered_setFd fd _ fun _ _ => rfl

theorem fdGenericInit_lowered (fd : Nat) :
    Ends (fdGenericInit fd) s (fun _ => Lowered s) fun _ _ => False := by
  simp only [fdGenericInit, ends_bind, ends_modify]
  apply (deferReset_lowered fd).imp
  intro _ t ht
  exact ht.trans (lowered_setFd fd _ fun _ _ => rfl)

theorem fdDoClose_called (h : Lowered s t) (fd : Nat) :
    Ends (fdDoClose fd) t (fun _ => Called fd s) fun _ _ => True := by
  simp only [fdDoClose, fdCleanup, ends_bind, ends_get, ends_assertThat, ends_set, ends_modify]
  have hjob := h.trans (lowered_setFd fd (fun kqFd => { kqFd with closeJobId := -1 })
    fun _ h => h)
  refine ⟨fun _ => ?_, fun _ => trivial⟩
  apply (clearEvents_called hjob fd).total
  intro _ u hu
  apply (deferReset_lowered fd).total
  intro _ v hv
  exact (hu.trans_lowered hv).trans_lowered (lowered_setFd fd _ fun _ _ => rfl)

theorem socketClose_called (fd : Nat) (jobId : Int) :
    Ends (socketClose fd jobId) s (fun _ => Called fd s) fun _ _ => True := by
  have hclosing : Lowered s (s.setFd fd fun kqFd => { kqFd with closing := true }) :=
    lowered_setFd fd _ fun _ h => h
  have hjob := hclosing.trans (lowered_setFd fd (fun kqFd => { kqFd with closeJobId := jobId })
    fun _ h => h)
  simp only [socketClose, ends_bind, ends_modify, ends_get, ends_ite, ends_set]
  refine ⟨fun _ => ⟨fun _ => fdDoClose_called hjob fd, fun _ => ?_⟩,
    fun _ => fdDoClose_called hclosing fd⟩
  apply (clearEvents_called hjob fd).total
  intro _ u hu
  apply (deferReset_lowered fd).total
  intro _ v hv
  exact hu.trans_lowered hv

theorem deferCheck_asks (fd : Nat) (eventSz : Int) :
    Ends (deferCheck .read fd eventSz) s
      (fun _ t => Lowered s t ∨
        ∃ u, Lowered s u ∧ t = u.push [.callback, .checked .read fd eventSz])
      fun _ _ => False := by
  simp only [deferCheck, ends_bind, ends_get, ends_ite, ends_pure, ends_set]
  refine ⟨fun _ => .inl (.refl s), fun _ => .inr ⟨_, ?_, rfl⟩⟩
  split
  · exact .refl s
  · exact lowered_setDeferProto .read fd _

theorem deferChecked_adds (fd : Nat) (eventSz answer : Int)
    (hdefer : (s.fd fd).defer .read = false) :
    Ends (deferChecked .read fd eventSz answer) s (fun _ t => Lowered s t ∨ Added fd s t)
      fun _ _ => False := by
  simp only [deferChecked, ends_bind, ends_get, ends_ite, ends_pure, ends_modify]
  have hadd : ∀ u, Lowered s u → Added fd s ((u.setList .read (fd :: u.deferList .read)).setFd fd
      fun kqFd =>
        { kqFd with
          pendingBytes := update kqFd.pendingBytes .read eventSz
          defer := update kqFd.defer .read true }) := by
    intro u hu
    refine ⟨?_, hu.stack, fun x hx hfalse => ?_⟩
    · simp only [setFd, setList, hu.deferList]
    · simpa [setFd, setList, update_of_ne hx] using hu.defer x hfalse
  refine ⟨fun _ => ⟨fun _ => .inl (.refl s), fun _ => ⟨fun _ => .inr (hadd _ ?_),
    fun _ => .inr (hadd s (.refl s))⟩⟩, fun _ => ?_⟩
  · exact (lowered_setEvent ..).trans (lowered_setFd fd _ fun _ h => h)
  · apply (deferRemove_takes fd).imp
    intro _ t ht
    rcases ht with ⟨-, rfl⟩ | ht
    · exact .inl (.refl t)
    · exact absurd (hdefer.symm.trans ht.flagged) (by simp)

/-! ## What is ahead of the walk -/

variable {waiting : List Nat} {base : Frame}

theorem Nested.getLast? {l : List Frame} (h : Nested l waiting base) : l.getLast? = some base := by
  induction h with
  | walk | walked => rfl
  | callback h ih | recheck _ h ih | checked _ _ h ih =>
      simp [getLast?_cons, ih]

theorem Walking.agenda_eq (h : Walking s waiting base) : agenda s = aheadOf s base := by
  simp only [agenda, h.nested.getLast?]

theorem aheadOf_congr (hlist : t.deferList = s.deferList) (base : Frame) :
    aheadOf t base = aheadOf s base := by
  have hafter : ∀ loop, afterLoop t loop = afterLoop s loop := by
    intro loop
    cases loop with
    | read => simp only [afterLoop, hlist]
    | write => rfl
  unfold aheadOf
  split <;> simp only [hlist, hafter]

theorem aheadOf_head (s : EvKQBase) (loop : Direction) (answer : Direction → Int) :
    aheadOf s (.walk loop (listHead s loop) answer) =
      (s.deferList loop).map (loop, ·) ++ afterLoop s loop := by
  unfold listHead
  cases hlist : s.deferList loop with
  | nil => rfl
  | cons n l => simp [aheadOf, hlist, behind_cons_self]

theorem atNode_head (s : EvKQBase) (loop : Direction) (answer : Direction → Int) :
    AtNode s (.walk loop (listHead s loop) answer) := by
  unfold listHead
  cases hlist : s.deferList loop with
  | nil => trivial
  | cons n l => exact ⟨rfl, by rw [hlist]; exact mem_cons_self⟩

section Next

variable {loop : Direction} {node : Node} {answer : Direction → Int}

theorem aheadOf_next (hnodup : ∀ direction, (s.deferList direction).Nodup)
    (hat : AtNode s (.walked loop node answer)) (answer' : Direction → Int) :
    aheadOf s (.walk loop (s.nodeNext node) answer') = aheadOf s (.walked loop node answer) := by
  obtain ⟨rfl, hmem⟩ := hat
  have hbehind := behind_eq (hnodup node.1) node.2
  cases hn : (s.deferList node.1)[(s.deferList node.1).idxOf node.2 + 1]? with
  | none =>
      rw [hn] at hbehind
      simp [aheadOf, nodeNext, hmem, hn, hbehind]
  | some n =>
      rw [hn] at hbehind
      simp [aheadOf, nodeNext, hmem, hn, hbehind]

theorem atNode_next (hat : AtNode s (.walked loop node answer)) (answer' : Direction → Int) :
    AtNode s (.walk loop (s.nodeNext node) answer') := by
  obtain ⟨rfl, hmem⟩ := hat
  simp only [nodeNext, if_pos hmem]
  cases hn : (s.deferList node.1)[(s.deferList node.1).idxOf node.2 + 1]? with
  | none => trivial
  | some n => exact ⟨rfl, mem_of_getElem? hn⟩

theorem nodeNext_ne (hnodup : ∀ direction, (s.deferList direction).Nodup)
    (hat : AtNode s (.walked loop node answer)) : s.nodeNext node ≠ some node := by
  obtain ⟨rfl, hmem⟩ := hat
  have hbehind := behind_eq (hnodup node.1) node.2
  simp only [nodeNext, if_pos hmem]
  cases hn : (s.deferList node.1)[(s.deferList node.1).idxOf node.2 + 1]? with
  | none => exact nofun
  | some n =>
      rw [hn] at hbehind
      intro heq
      have hself : n = node.2 := congrArg Prod.snd (Option.some.inj heq)
      apply not_mem_behind (hnodup node.1) node.2
      rw [hbehind, hself]
      exact mem_cons_self

end Next

/-! ## What a step does to the walk -/

theorem Walking.lowered (h : Walking s waiting base) (ht : Lowered s t) :
    Walking t waiting base where
  nodup := by
    rw [ht.deferList]
    exact h.nodup
  nested := by
    rw [ht.stack]
    exact h.nested
  once := h.once
  off fd hfd := by
    rw [ht.deferList]
    exact (h.off fd hfd).imp_right (ht.defer fd)
  atNode := by
    have hat := h.atNode
    unfold AtNode at hat ⊢
    rw [ht.deferList]
    exact hat

theorem Lowered.agenda_eq (h : Lowered s t) : agenda t = agenda s := by
  simp only [agenda, h.stack, aheadOf_congr h.deferList]

theorem atNode_taken (hat : AtNode s base) (hne : base.node ≠ some (.read, fd))
    (hlist : t.deferList = update s.deferList .read ((s.deferList .read).erase fd)) :
    AtNode t base := by
  have hkeep : ∀ (node : Node), node ≠ (.read, fd) → node.2 ∈ s.deferList node.1 →
      node.2 ∈ t.deferList node.1 := by
    rintro ⟨direction, x⟩ hother hmem
    rw [hlist]
    cases direction with
    | read =>
        have hx : x ≠ fd := fun heq => hother (by rw [heq])
        rw [update_self]
        exact (mem_erase_of_ne hx).2 hmem
    | write => exact hmem
  unfold AtNode at hat ⊢
  split at hat
  next loop node answer =>
    obtain ⟨rfl, hmem⟩ := hat
    exact ⟨rfl, hkeep node (fun heq => hne (by rw [← heq]; rfl)) hmem⟩
  next loop node answer =>
    obtain ⟨rfl, hmem⟩ := hat
    exact ⟨rfl, hkeep node (fun heq => hne (by rw [← heq]; rfl)) hmem⟩
  next => trivial

theorem aheadOf_taken (hnodup : ∀ direction, (s.deferList direction).Nodup)
    (hat : AtNode s base) (hne : base.node ≠ some (.read, fd))
    (hlist : t.deferList = update s.deferList .read ((s.deferList .read).erase fd))
    (r : EvKQBase) : Runs.WorksOff Skipped [] (aheadOf s base) (aheadOf t base) r t := by
  have hread : t.deferList .read = (s.deferList .read).erase fd := by
    rw [hlist, update_self]
  have hwrite : t.deferList .write = s.deferList .write := by
    rw [hlist]
    rfl
  have hafter : ∀ loop, afterLoop t loop = afterLoop s loop := by
    intro loop
    cases loop with
    | read => simp only [afterLoop, hwrite]
    | write => rfl
  have hbehind : ∀ node : Node, node ≠ (.read, fd) →
      Runs.WorksOff Skipped []
        ((behind (s.deferList node.1) node.2).map (node.1, ·) ++ afterLoop s node.1)
        ((behind (t.deferList node.1) node.2).map (node.1, ·) ++ afterLoop t node.1) r t := by
    rintro ⟨direction, n⟩ hother
    rw [hafter]
    refine Runs.WorksOff.append ?_ (.refl ..)
    cases direction with
    | read =>
        have hn : fd ≠ n := fun heq => hother (by rw [heq])
        simp only [hread, behind_erase (hnodup .read) hn]
        refine ⟨erase_sublist.map _, fun x hx => .inr ?_⟩
        obtain ⟨y, hy, rfl⟩ := mem_map.1 hx
        by_cases heq : y = fd
        · subst heq
          refine .inr (.inr (.inl ?_))
          rw [hread]
          exact (hnodup .read).not_mem_erase
        · exact .inl (mem_map_of_mem ((mem_erase_of_ne heq).2 hy))
    | write =>
        simp only [hwrite]
        exact .refl ..
  unfold AtNode at hat
  unfold aheadOf
  split at hat
  next loop node answer =>
    obtain ⟨rfl, -⟩ := hat
    have hself : Runs.WorksOff Skipped [] [node] [node] r t := .refl ..
    exact hself.append (hbehind node fun heq => hne (by rw [← heq]; rfl))
  next loop node answer =>
    obtain ⟨rfl, -⟩ := hat
    exact hbehind node fun heq => hne (by rw [← heq]; rfl)
  next hwalk hwalked =>
    split
    next => exact (hwalk _ _ _ rfl).elim
    next loop answer =>
      rw [hafter]
      exact .refl ..
    next => exact (hwalked _ _ _ rfl).elim
    next => exact .refl ..

theorem aheadOf_added (hat : AtNode s base) (hnot : fd ∉ s.deferList .read)
    (hlist : t.deferList = update s.deferList .read (fd :: s.deferList .read)) :
    aheadOf t base = aheadOf s base ∧ AtNode t base := by
  have hread : t.deferList .read = fd :: s.deferList .read := by
    rw [hlist, update_self]
  have hwrite : t.deferList .write = s.deferList .write := by
    rw [hlist]
    rfl
  have hafter : ∀ loop, afterLoop t loop = afterLoop s loop := by
    intro loop
    cases loop with
    | read => simp only [afterLoop, hwrite]
    | write => rfl
  have hbehind : ∀ node : Node, node.2 ∈ s.deferList node.1 →
      behind (t.deferList node.1) node.2 = behind (s.deferList node.1) node.2 ∧
        node.2 ∈ t.deferList node.1 := by
    rintro ⟨direction, n⟩ hmem
    cases direction with
    | read =>
        have hn : fd ≠ n := fun heq => hnot (heq ▸ hmem)
        rw [hread, behind_cons_of_ne _ hn]
        exact ⟨rfl, mem_cons_of_mem _ hmem⟩
    | write =>
        rw [hwrite]
        exact ⟨rfl, hmem⟩
  unfold AtNode at hat ⊢
  unfold aheadOf
  split at hat
  next loop node answer =>
    obtain ⟨rfl, hmem⟩ := hat
    obtain ⟨hsame, hin⟩ := hbehind node hmem
    exact ⟨by simp only [hsame, hafter], rfl, hin⟩
  next loop node answer =>
    obtain ⟨rfl, hmem⟩ := hat
    obtain ⟨hsame, hin⟩ := hbehind node hmem
    exact ⟨by simp only [hsame, hafter], rfl, hin⟩
  next =>
    refine ⟨?_, trivial⟩
    split <;> simp_all

theorem Walking.taken (h : Walking s waiting base) (ht : Taken fd s t)
    (hne : base.node ≠ some (.read, fd)) :
    (∃ waiting', Walking t waiting' base) ∧
      (∀ r, Runs.WorksOff Skipped [] (agenda s) (agenda t) r t) ∧ budget t ≤ budget s + 4 := by
  have hnew : fd ∉ waiting := fun hin =>
    absurd (ht.flagged.symm.trans (h.off fd hin).2) nofun
  have hnodup : ∀ direction, (t.deferList direction).Nodup := by
    intro direction
    rw [ht.deferList]
    cases direction with
    | read =>
        rw [update_self]
        exact (h.nodup .read).erase fd
    | write => exact h.nodup .write
  have hoff : ∀ x ∈ fd :: waiting, x ∉ t.deferList .read ∧ (t.fd x).defer .read = false := by
    intro x hx
    rw [ht.deferList, update_self]
    rcases mem_cons.1 hx with rfl | hx
    · exact ⟨(h.nodup .read).not_mem_erase, ht.defer x (.inr rfl)⟩
    · obtain ⟨hnot, hflag⟩ := h.off x hx
      exact ⟨fun hin => hnot (mem_of_mem_erase hin), ht.defer x (.inl hflag)⟩
  have hat := atNode_taken h.atNode hne ht.deferList
  have hwalking : ∃ waiting', Walking t waiting' base := by
    rcases ht.stack with hstack | hstack | hstack
    · exact ⟨waiting, hnodup, hstack ▸ h.nested, h.once,
        fun x hx => hoff x (mem_cons_of_mem _ hx), hat⟩
    · exact ⟨fd :: waiting, hnodup, hstack ▸ h.nested.recheck fd,
        nodup_cons.2 ⟨hnew, h.once⟩, hoff, hat⟩
    · exact ⟨fd :: waiting, hnodup, hstack ▸ (h.nested.recheck fd).callback,
        nodup_cons.2 ⟨hnew, h.once⟩, hoff, hat⟩
  have hworks : ∀ r, Runs.WorksOff Skipped [] (agenda s) (agenda t) r t := by
    obtain ⟨waiting', hw⟩ := hwalking
    rw [h.agenda_eq, hw.agenda_eq]
    exact aheadOf_taken h.nodup h.atNode hne ht.deferList
  have hlength : (agenda t).length ≤ (agenda s).length := (hworks s).inOrder.length_le
  refine ⟨hwalking, hworks, ?_⟩
  unfold budget
  rcases ht.stack with hstack | hstack | hstack
  · rw [hstack]
    omega
  · rw [hstack]
    simp only [map_cons, sum_cons, Frame.weight]
    omega
  · rw [hstack]
    simp only [map_cons, sum_cons, Frame.weight]
    omega

theorem Walking.added (h : Walking s waiting base) (hwaiting : fd ∉ waiting)
    (hnot : fd ∉ s.deferList .read) (ht : Added fd s t) :
    Walking t waiting base ∧ agenda t = agenda s := by
  obtain ⟨hahead, hat⟩ := aheadOf_added h.atNode hnot ht.deferList
  have hwalking : Walking t waiting base := by
    refine ⟨fun direction => ?_, ?_, h.once, fun x hx => ?_, hat⟩
    · rw [ht.deferList]
      cases direction with
      | read =>
          rw [update_self]
          exact nodup_cons.2 ⟨hnot, h.nodup .read⟩
      | write => exact h.nodup .write
    · rw [ht.stack]
      exact h.nested
    · have hne : x ≠ fd := fun heq => hwaiting (heq ▸ hx)
      rw [ht.deferList, update_self, mem_cons, or_iff_right hne]
      exact (h.off x hx).imp_right (ht.defer x hne)
  refine ⟨hwalking, ?_⟩
  rw [hwalking.agenda_eq, h.agenda_eq, hahead]

/-! ## Steps -/

structure Steps (s : EvKQBase) (e : Event) (t : EvKQBase) : Prop where
  inPass : InPass t
  works : Runs.WorksOff Skipped (invoked s e) (agenda s) (agenda t) s t
  paid : e.cost + budget t ≤ budget s + e.gain

theorem walking_walk (hstack : s.stack = []) (hnodup : ∀ direction, (s.deferList direction).Nodup)
    {loop : Direction} {node : Option Node} {answer : Direction → Int}
    (hat : AtNode s (.walk loop node answer)) :
    Walking (s.push [.walk loop node answer]) [] (.walk loop node answer) where
  nodup := hnodup
  nested := by
    rw [push, hstack]
    exact .walk loop node answer
  once := nodup_nil
  off _ hfd := absurd hfd not_mem_nil
  atNode := hat

theorem walkedNode_steps {loop : Direction} {node : Node} {answer : Direction → Int}
    (hstack : s.stack = []) (hnodup : ∀ direction, (s.deferList direction).Nodup)
    (hat : AtNode s (.walked loop node answer)) (hkeep : loop = .write → answer .write ≠ 0) :
    Ends (walkedNode loop node answer) s
      (fun _ t => InPass t ∧
        (∀ r, Runs.WorksOff Skipped [] (aheadOf s (.walked loop node answer)) (agenda t) r t) ∧
        budget t ≤ (Frame.walked loop node answer).weight +
          6 * (aheadOf s (.walked loop node answer)).length)
      fun _ _ => False := by
  have hwalking := walking_walk hstack hnodup (atNode_next hat answer)
  have hahead := aheadOf_next hnodup hat answer
  have hagenda : agenda (s.push [.walk loop (s.nodeNext node) answer]) =
      aheadOf s (.walked loop node answer) := by
    rw [hwalking.agenda_eq, ← hahead]
    exact aheadOf_congr rfl _
  have hbudget : budget (s.push [.walk loop (s.nodeNext node) answer]) =
      (Frame.walk loop (s.nodeNext node) answer).weight +
        6 * (aheadOf s (.walked loop node answer)).length := by
    rw [budget, hagenda]
    simp [push, hstack]
  simp only [walkedNode, ends_bind, ends_get, ends_ite, ends_set]
  refine ⟨fun _ => ⟨.inr ⟨_, _, hwalking⟩, fun r => ?_, ?_⟩, fun hzero => ?_⟩
  · rw [hagenda]
    exact .refl ..
  · rw [hbudget]
    cases loop <;> simp [Frame.weight]
  · have hread : loop = .read := by
      cases loop with
      | read => rfl
      | write => exact absurd (hkeep rfl) hzero
    subst hread
    apply (deferRemove_takes node.2).imp
    intro _ t ht
    rcases ht with ⟨-, rfl⟩ | ht
    · refine ⟨.inr ⟨_, _, hwalking⟩, fun r => ?_, ?_⟩
      · rw [hagenda]
        exact .refl ..
      · rw [hbudget]
        simp [Frame.weight]
    · have hne : (Frame.walk .read (s.nodeNext node) answer).node ≠ some (.read, node.2) := by
        have hown : (.read, node.2) = node := Prod.ext hat.1.symm rfl
        rw [hown]
        exact nodeNext_ne hnodup hat
      obtain ⟨⟨waiting', hw⟩, hworks, hpaid⟩ := hwalking.taken ht hne
      rw [hagenda] at hworks
      refine ⟨.inr ⟨_, _, hw⟩, hworks, ?_⟩
      rw [hbudget] at hpaid
      simp only [Frame.weight] at hpaid ⊢
      omega

theorem walkNode_steps {v : EvKQBase} {loop : Direction} {node : Option Node}
    {answer : Direction → Int} (h : Walking s waiting (.walk loop node answer))
    (hstack : s.stack = [.walk loop node answer]) (hkeeps : KeepsWrite s .step)
    (hv : v = { s with stack := [] }) :
    Ends (walkNode loop node answer) v (fun _ => Steps s .step) fun _ _ => False := by
  have hagenda := h.agenda_eq
  have hbudget : budget s = (Frame.walk loop node answer).weight + 6 * (agenda s).length := by
    rw [budget, hstack]
    simp
  have hahead : ∀ base, aheadOf v base = aheadOf s base := aheadOf_congr (by rw [hv])
  have hnodup : ∀ direction, (v.deferList direction).Nodup := by
    rw [hv]
    exact h.nodup
  have hempty : v.stack = [] := by rw [hv]
  simp only [walkNode, ends_bind, ends_get]
  split
  next =>
    -- The READ list is done with.
    have hnext := walking_walk hempty hnodup (atNode_head v .write answer)
    have hsame : agenda (v.push [.walk .write (listHead v .write) answer]) = agenda s := by
      rw [hnext.agenda_eq, hagenda, ← hahead]
      change aheadOf v (.walk .write (listHead v .write) answer) = _
      rw [aheadOf_head]
      simp [aheadOf, afterLoop]
    rw [ends_set]
    refine ⟨.inr ⟨_, _, hnext⟩, ?_, ?_⟩
    · rw [hsame]
      simp only [invoked, reached, hstack]
      exact .refl ..
    · rw [budget, hsame, hbudget]
      simp [push, hempty, Frame.weight, Event.cost, Event.gain]
      omega
  next =>
    -- The pass is over.
    refine ⟨.inl hempty, ?_, ?_⟩
    · have hover : agenda v = agenda s := by
        rw [hagenda, agenda, hempty]
        rfl
      rw [hover]
      simp only [invoked, reached, hstack]
      exact .refl ..
    · rw [hbudget]
      simp [budget, agenda, hempty, Frame.weight, Event.cost, Event.gain]
  next node =>
    have hat : AtNode v (.walked loop node answer) := by
      rw [hv]
      exact h.atNode
    have hreached : reached s = some (loop, node.2) := by rw [reached, hstack]
    have hcons : agenda s = (loop, node.2) :: aheadOf v (.walked loop node answer) := by
      rw [hagenda, hahead]
      rfl
    have hchecks : checks s (loop, node.2) = (((v.fd node.2).deferCheck loop).enabled &&
        ((v.fd node.2).deferCheck loop).cbHandler.isSome) := by
      rw [hv]
      rfl
    -- A node that is not checked is skipped.
    have hskips : checks s (loop, node.2) = false → ∀ {l t},
        (∀ r, Runs.WorksOff Skipped [] (aheadOf v (.walked loop node answer)) l r t) →
          Runs.WorksOff Skipped (invoked s .step) (agenda s) l s t := by
      intro hnot l t hworks
      have hnone : invoked s .step = [] := by simp [invoked, hreached, hnot]
      rw [hnone, hcons]
      refine ⟨(hworks s).inOrder.cons _, fun x hx => ?_⟩
      rcases mem_cons.1 hx with rfl | hx
      · exact .inr (.inr (.inl (.inr ⟨hreached, hnot⟩)))
      · exact (hworks s).rest x hx
    have hnext := walking_walk hempty hnodup (atNode_next hat answer)
    have hsame : agenda (v.push [.walk loop (v.nodeNext node) answer]) =
        aheadOf v (.walked loop node answer) := by
      rw [hnext.agenda_eq, ← aheadOf_next hnodup hat answer]
      exact aheadOf_congr rfl _
    have hlength : (agenda s).length = (aheadOf v (.walked loop node answer)).length + 1 := by
      rw [hcons, length_cons]
    simp only [ends_ite, ends_set]
    refine ⟨fun hdisabled => ?_, fun henabled => ⟨fun hsome => ?_, fun hnone => ?_⟩⟩
    · have hnot : checks s (loop, node.2) = false := by
        rw [hchecks]
        simp_all
      refine ⟨.inr ⟨_, _, hnext⟩, hskips hnot fun r => ?_, ?_⟩
      · rw [hsame]
        exact .refl ..
      · rw [budget, hsame, hbudget, hlength]
        simp [push, hempty, Event.cost, Event.gain]
        cases loop <;> simp [Frame.weight] <;> omega
    · have hasked : checks s (loop, node.2) = true := by
        rw [hchecks, hsome, Bool.and_true]
        simpa using henabled
      have hstack' : (v.push [.callback, .walked loop node answer]).stack =
          [.callback, .walked loop node answer] := by
        rw [push, hempty]
        rfl
      have hwalked : Walking (v.push [.callback, .walked loop node answer]) []
          (.walked loop node answer) := by
        refine ⟨hnodup, ?_, nodup_nil, fun _ hfd => absurd hfd not_mem_nil, hat⟩
        rw [hstack']
        exact .walked loop node answer
      have hrest : agenda (v.push [.callback, .walked loop node answer]) =
          aheadOf v (.walked loop node answer) := by
        rw [hwalked.agenda_eq]
        exact aheadOf_congr rfl _
      have hdone : invoked s .step = [(loop, node.2)] := by simp [invoked, hreached, hasked]
      refine ⟨.inr ⟨_, _, hwalked⟩, ?_, ?_⟩
      · rw [hrest, hdone, hcons]
        exact ⟨List.Sublist.refl _, fun x hx => (mem_cons.1 hx).imp mem_singleton.2 .inl⟩
      · rw [budget, hrest, hbudget, hlength, hstack']
        simp [Event.cost, Event.gain]
        cases loop <;> simp [Frame.weight] <;> omega
    · have hnot : checks s (loop, node.2) = false := by
        rw [hchecks]
        simp_all
      have hkeep : loop = .write → answer .write ≠ 0 := by
        rintro rfl
        simp only [KeepsWrite, hstack] at hkeeps
        apply hkeeps _ hnot
        rw [hv] at henabled
        simpa using henabled
      apply (walkedNode_steps hempty hnodup hat hkeep).imp
      intro _ t hpost
      obtain ⟨hpass, hworks, hpaid⟩ := hpost
      refine ⟨hpass, hskips hnot hworks, ?_⟩
      rw [hbudget, hlength]
      simp only [Event.cost, Event.gain]
      cases loop <;> simp only [Frame.weight] at hpaid ⊢ <;> omega

theorem Walking.setStack (h : Walking s waiting base) {l : List Frame} {waiting' : List Nat}
    (hnested : Nested l waiting' base) (honce : waiting'.Nodup)
    (hoff : ∀ fd ∈ waiting', fd ∉ s.deferList .read ∧ (s.fd fd).defer .read = false) :
    Walking { s with stack := l } waiting' base ∧ agenda { s with stack := l } = agenda s := by
  have hwalking : Walking { s with stack := l } waiting' base :=
    ⟨h.nodup, hnested, honce, hoff, h.atNode⟩
  refine ⟨hwalking, ?_⟩
  rw [hwalking.agenda_eq, h.agenda_eq]
  exact aheadOf_congr rfl base

theorem Walking.steps (h : Walking t waiting base) {e : Event} (hagenda : agenda t = agenda s)
    (hinvoked : invoked s e = [])
    (hpaid : e.cost + (t.stack.map Frame.weight).sum ≤ (s.stack.map Frame.weight).sum + e.gain) :
    Steps s e t where
  inPass := .inr ⟨waiting, base, h⟩
  works := by
    rw [hinvoked, hagenda]
    exact .refl ..
  paid := by
    simp only [budget, hagenda]
    omega

theorem goOn_steps (h : Walking s waiting base) (hturn : s.calls = false)
    (hkeeps : KeepsWrite s .step) :
    Ends goOn s (fun _ => Steps s .step) fun _ _ => False := by
  have hnested := h.nested
  simp only [goOn, ends_bind, ends_get]
  split
  next direction fd rest hstack =>
    have hinvoked : invoked s .step = [] := by
      rw [invoked, reached, hstack]
      rfl
    rw [hstack] at hnested
    cases hnested with
    | @recheck _ waiting _ _ hrest =>
        have hoff : ∀ x ∈ waiting, _ := fun x hx => h.off x (mem_cons_of_mem _ hx)
        obtain ⟨hpop, hagenda⟩ := h.setStack hrest (nodup_cons.1 h.once).2 hoff
        rw [ends_bind, ends_set]
        apply (deferCheck_asks fd 0).imp
        intro _ t ht
        rcases ht with ht | ⟨u, hu, rfl⟩
        · apply (hpop.lowered ht).steps (ht.agenda_eq.trans hagenda) hinvoked
          rw [ht.stack, hstack]
          simp [Frame.weight, Event.cost, Event.gain]
        · have hlow := hpop.lowered hu
          have hasks :
              Nested (.callback :: .checked .read fd 0 :: u.stack) (fd :: waiting) base := by
            rw [hu.stack]
            exact hrest.checked fd 0
          obtain ⟨hnext, hsame⟩ := hlow.setStack hasks h.once fun x hx =>
            ⟨hu.deferList ▸ (h.off x hx).1, hu.defer x (h.off x hx).2⟩
          apply hnext.steps ((hsame.trans hu.agenda_eq).trans hagenda) hinvoked
          rw [hu.stack, hstack]
          simp [Frame.weight, Event.cost, Event.gain]
          omega
  next direction fd rest hstack =>
    rw [hstack] at hnested
    cases hnested
  next loop node answer rest hstack =>
    rw [hstack] at hnested
    cases hnested
    rw [ends_bind, ends_set]
    exact walkNode_steps h hstack hkeeps rfl
  next hrecheck _ hwalk =>
    -- Below a callback nothing goes on.
    have hcallback : ∀ rest, s.stack ≠ .callback :: rest := by
      intro rest hstack
      rw [calls, hstack] at hturn
      cases hturn
    generalize hstack : s.stack = l at hnested
    cases hnested with
    | walk => exact (hwalk _ _ _ _ hstack).elim
    | walked | callback | checked => exact (hcallback _ hstack).elim
    | recheck => exact (hrecheck _ _ _ hstack).elim

theorem ret_steps (h : Walking s waiting base) (answer : Int) (hturn : s.calls = true)
    (hkeeps : KeepsWrite s (.ret answer)) :
    Ends (ret answer) s (fun _ => Steps s (.ret answer)) fun _ _ => False := by
  have hnested := h.nested
  simp only [ret, ends_bind, ends_get]
  split
  next direction fd eventSz rest hstack =>
    rw [hstack] at hnested
    cases hnested with
    | callback hchecked => cases hchecked
    | @checked _ waiting _ _ _ hrest =>
        obtain ⟨hnew, honce⟩ := nodup_cons.1 h.once
        obtain ⟨hnot, hdefer⟩ := h.off fd mem_cons_self
        obtain ⟨hpop, hagenda⟩ := h.setStack hrest honce fun x hx =>
          h.off x (mem_cons_of_mem _ hx)
        rw [ends_bind, ends_set]
        apply (deferChecked_adds (s := { s with stack := rest }) fd eventSz answer hdefer).imp
        intro _ t ht
        rcases ht with ht | ht
        · apply (hpop.lowered ht).steps (ht.agenda_eq.trans hagenda) rfl
          rw [ht.stack, hstack]
          simp [Frame.weight, Event.cost, Event.gain]
        · obtain ⟨hnext, hsame⟩ := hpop.added hnew hnot ht
          apply hnext.steps (hsame.trans hagenda) rfl
          rw [ht.stack, hstack]
          simp [Frame.weight, Event.cost, Event.gain]
  next loop node answers rest hstack =>
    rw [hstack] at hnested
    cases hnested with
    | callback hwalked => cases hwalked
    | walked =>
        have hagenda := h.agenda_eq
        have hkeep : loop = .write → update answers loop answer .write ≠ 0 := by
          rintro rfl
          simp only [KeepsWrite, hstack] at hkeeps
          rw [update_self]
          exact hkeeps
        rw [ends_bind, ends_set]
        apply (walkedNode_steps (s := { s with stack := [] }) rfl h.nodup h.atNode hkeep).imp
        intro _ t hpost
        obtain ⟨hpass, hworks, hpaid⟩ := hpost
        have hahead : aheadOf { s with stack := [] }
            (.walked loop node (update answers loop answer)) = agenda s := by
          rw [hagenda]
          exact aheadOf_congr rfl (.walked loop node answers)
        rw [hahead] at hworks hpaid
        refine ⟨hpass, hworks s, ?_⟩
        rw [budget.eq_def s, hstack]
        simp only [map_cons, map_nil, sum_cons, sum_nil, Event.cost,
          Event.gain]
        cases loop <;> simp only [Frame.weight] at hpaid ⊢ <;> omega
  next rest hchecked hwalked hstack =>
    rw [hstack] at hnested
    cases hnested with
    | walked => exact (hwalked _ _ _ _ rfl).elim
    | checked => exact (hchecked _ _ _ _ rfl).elim
    | callback hrest =>
        obtain ⟨hpop, hagenda⟩ := h.setStack hrest h.once h.off
        rw [ends_set]
        apply hpop.steps hagenda rfl
        rw [hstack]
        simp only [map_cons, sum_cons, Frame.weight, Event.cost, Event.gain]
        omega
  next _ _ hcallback =>
    generalize hstack : s.stack = l at hnested
    cases hnested with
    | walk | recheck =>
        rw [calls, hstack] at hturn
        cases hturn
    | walked | callback | checked => exact (hcallback _ hstack).elim

theorem Lowered.steps (ht : Lowered s t) (h : Walking s waiting base) {e : Event}
    (hinvoked : invoked s e = []) (hcost : e.cost = 0) : Steps s e t := by
  apply (h.lowered ht).steps ht.agenda_eq hinvoked
  rw [ht.stack, hcost]
  omega

theorem Called.steps (hcalled : Called fd s t) (h : Walking s waiting base)
    (hleave : ¬StandsAt s fd) {e : Event} (hinvoked : invoked s e = []) (hcost : e.cost = 0)
    (hgain : e.gain = 4) : Steps s e t := by
  rcases hcalled with ht | ht
  · exact ht.steps h hinvoked hcost
  · have hne : base.node ≠ some (.read, fd) := by
      intro heq
      apply hleave
      refine ⟨ht.flagged, ?_⟩
      rw [h.nested.getLast?]
      exact heq
    obtain ⟨⟨waiting', hw⟩, hworks, hpaid⟩ := h.taken ht hne
    refine ⟨.inr ⟨waiting', base, hw⟩, hinvoked ▸ hworks s, ?_⟩
    rw [hcost, hgain]
    omega

theorem handle_steps (e : Event) (s : EvKQBase) (hpass : InPass s) (he : Undisturbed s e) :
    Ends (handle e) s (fun _ => Steps s e) fun _ _ => invoked s e = [] := by
  obtain ⟨hturn, hkeeps, hleave⟩ := he
  rcases hpass with hover | ⟨waiting, base, h⟩
  · cases e with
    | step => simp [Turn, calls, hover] at hturn
    | invoke | beginCheck | closeJob => exact hturn.elim
    | ret | setDeferCheck | setEvent | clearEvents | init | close => exact absurd hover hturn.2
  have hno : ∀ {x : M PUnit}, Ends x s (fun _ => Steps s e) (fun _ _ => False) →
      Ends x s (fun _ => Steps s e) fun _ _ => invoked s e = [] := by
    intro x hx
    exact hx.total fun _ _ ht => ht
  have hcalls : ∀ {x : M PUnit}, Ends x s (fun _ => Steps s e) (fun _ _ => invoked s e = []) →
      s.calls = true → Ends (whenCalls x) s (fun _ => Steps s e) fun _ _ => invoked s e = [] := by
    intro x hx hcalls
    simp only [whenCalls, ends_bind, ends_get, hcalls, if_true]
    exact hx
  have hlowered : ∀ {x : M PUnit}, Ends x s (fun _ => Lowered s) (fun _ _ => False) →
      invoked s e = [] → e.cost = 0 →
        Ends x s (fun _ => Steps s e) fun _ _ => invoked s e = [] := by
    intro x hx hinvoked hcost
    apply hx.total
    intro _ t ht
    exact ht.steps h hinvoked hcost
  cases e with
  | ret answer => exact hno (ret_steps h answer hturn.1 hkeeps)
  | step => exact hno (goOn_steps h hturn hkeeps)
  | invoke | beginCheck | closeJob => exact hturn.elim
  | setDeferCheck direction fd action cbHandler cbData =>
      refine hcalls ?_ hturn.1
      apply (setDeferCheck_called direction fd action cbHandler cbData).mono
      · intro _ t ht
        rcases ht with ht | ⟨⟨rfl, rfl⟩, ht⟩
        · exact ht.steps h rfl rfl
        · exact Called.steps (.inr ht) h hleave rfl rfl rfl
      · intro _ _ _
        rfl
  | setEvent direction fd action cbHandler cbData =>
      refine hcalls (hlowered ?_ rfl rfl) hturn.1
      exact lowered_setEvent fd direction action cbHandler cbData
  | clearEvents fd =>
      refine hcalls ?_ hturn.1
      apply (clearEvents_called (.refl s) fd).mono
      · intro _ t ht
        exact ht.steps h hleave rfl rfl rfl
      · intro _ _ _
        rfl
  | init fd => exact hcalls (hlowered (fdGenericInit_lowered fd) rfl rfl) hturn.1
  | close fd jobId =>
      refine hcalls ?_ hturn.1
      apply (socketClose_called fd jobId).mono
      · intro _ t ht
        exact ht.steps h hleave rfl rfl rfl
      · intro _ _ _
        rfl

/-! ## The pass as a whole -/

theorem begun_walks (hidle : s.stack = []) (hnodup : ∀ direction, (s.deferList direction).Nodup)
    (read write : Int) :
    InPass (begun s read write) ∧ agenda (begun s read write) = due s ∧
      budget (begun s read write) = 6 * (due s).length + 2 := by
  have hwalking := walking_walk hidle hnodup
    (atNode_head s .read fun | .read => read | .write => write)
  have hagenda : agenda (begun s read write) = due s := by
    rw [begun, hwalking.agenda_eq]
    exact aheadOf_head s .read _
  refine ⟨.inr ⟨_, _, hwalking⟩, hagenda, ?_⟩
  rw [budget, hagenda, begun, push, hidle]
  simp [Frame.weight]
  omega

/-- **The pass.**  It checks both lists, each descriptor once and in its own direction, and
comes to an end, as long as the loop over the WRITE list removes nothing and no call of the
program takes the node from under the walk. -/
theorem beginCheck_passes (s : EvKQBase) (hidle : s.stack = [])
    (hnodup : ∀ direction, (s.deferList direction).Nodup) (read write : Int) (evs : List Event)
    (hmeets : Runs.Meets handle Undisturbed (.live (begun s read write)) evs) :
    Passes s read write evs := by
  obtain ⟨hpass, hagenda, hbudget⟩ := begun_walks hidle hnodup read write
  have hworks : ∀ e s, InPass s → Undisturbed s e →
      Ends (handle e) s
        (fun _ t => InPass t ∧ Runs.WorksOff Skipped (invoked s e) (agenda s) (agenda t) s t)
        fun _ _ => List.Sublist (invoked s e) (agenda s) := by
    intro e s hs he
    apply (handle_steps e s hs he).mono
    · intro _ t ht
      exact ⟨ht.inPass, ht.works⟩
    · intro _ _ hnone
      rw [hnone]
      exact nil_sublist _
  have hpaid : ∀ e s, InPass s → Undisturbed s e →
      Ends (handle e) s (fun _ t => InPass t ∧ e.cost + budget t ≤ budget s + e.gain)
        fun _ _ => True := by
    intro e s hs he
    apply (handle_steps e s hs he).mono
    · intro _ t ht
      exact ⟨ht.inPass, ht.paid⟩
    · intro _ _ _
      trivial
  refine ⟨?_, fun hlive hover => ?_, fun hlive => ?_⟩
  · rw [← hagenda]
    exact Runs.notes_sublist hworks hpass evs hmeets
  · intro node hnode
    rw [← hagenda] at hnode
    rcases Runs.notes_or_lost hworks hpass evs hmeets hlive node hnode with hdone | hleft | hlost
    · exact .inl hdone
    · rw [agenda, hover] at hleft
      cases hleft
    · exact .inr hlost
  · rw [← hbudget]
    exact Runs.budget_run hpaid hpass evs hmeets hlive

def beginsDefer (direction : Direction) (fd : Nat) : List Event :=
  [.init fd, .setEvent direction fd .addPersist (some 1) 0,
    .setDeferCheck direction fd .addPersist (some 2) 0, .invoke direction fd 100, .ret 1, .step]

def deferredBoth : EvKQBase :=
  (runFrom false (beginsDefer .read 4 ++ beginsDefer .read 5 ++ beginsDefer .write 6)).state

/-- The first descriptor is not deferred any more, has its event, and is deferred again; the
others stay deferred. -/
theorem beginCheck_passes_both :
    Passes deferredBoth 0 0
      [.step, .ret 0, .ret 0, .step, .ret 1, .step, .ret 1, .step, .step, .ret 1, .step] :=
  beginCheck_passes deferredBoth (by decide) (fun direction => by cases direction <;> decide) 0 0 _
    (by decide)

def deferredRead : EvKQBase := (runFrom false (beginsDefer .read 4 ++ beginsDefer .read 5)).state

def deferredWriteTwo : EvKQBase :=
  (runFrom false (beginsDefer .write 4 ++
    .setDeferCheck .read 4 .addPersist (some 3) 0 :: beginsDefer .write 5)).state

/-- The second of two descriptors is not deferred for writing any more, and the first is
checked once more. -/
def checkedTwice : List Event :=
  [.step, .step, .ret 1, .step, .ret 0, .ret 0, .step, .ret 0, .step, .step, .ret 1, .step]

/-- The first of them is not deferred any more, and the READ check of the second is invoked. -/
def checkedForReading : List Event := [.step, .step, .ret 0, .ret 0, .step, .ret 0, .step]

/-- The first of two descriptors takes its own check back when it is invoked, and the second is
not checked. -/
def takenBack : List Event :=
  [.step, .setDeferCheck .read 5 .delete none 0, .ret 0, .step, .ret 1, .step, .step]

/-- What is removed from the WRITE list sends the walk to the other loop, and what is taken
from under the walk ends it. -/
theorem pass_disturbed :
    (Runs.Meets handle Turn (.live (begun deferredWriteTwo 0 0)) checkedTwice ∧
        ¬Passes deferredWriteTwo 0 0 checkedTwice) ∧
      (Runs.Meets handle Turn (.live (begun deferredWriteTwo 0 0)) checkedForReading ∧
        ¬Passes deferredWriteTwo 0 0 checkedForReading) ∧
      Runs.Meets handle Turn (.live (begun deferredRead 0 0)) takenBack ∧
        ¬Passes deferredRead 0 0 takenBack := by
  refine ⟨⟨by decide, fun h => ?_⟩, ⟨by decide, fun h => ?_⟩, by decide, fun h => ?_⟩
  · exact absurd h.once (by decide)
  · exact absurd h.once (by decide)
  · have hall := h.all (by decide) (by decide) (.read, 4) (by decide)
    have hprefixes : ∀ evs' ∈ takenBack.inits,
        ¬Skipped (.read, 4) (Runs.run handle (.live (begun deferredRead 0 0)) evs').state := by
      decide
    rcases hall with hdone | ⟨evs', hpre, hskipped⟩
    · exact absurd hdone (by decide)
    · exact hprefixes evs' ((mem_inits _ _).2 hpre) hskipped

end EvKQDefer
