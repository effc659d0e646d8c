import BrbFramework.Event.Defer

/-!
# The two lists of deferred descriptors

For the READ direction each flag is lowered where its descriptor leaves the list, and the
DELETE of the DEFER_CHECK event is one such place. The DELETE for the WRITE direction
leaves list and flag alone, and what resets the flags of a descriptor leaves the lists
alone. As long as none of that meets a deferred descriptor, lists and flags agree.
-/

namespace EvKQDefer

open Handler List Function EvKQBase
open EvKQTimer (CommAction)
open EvKQShadow (Direction EventPrototype)

variable {s t u : EvKQBase} {direction : Direction} {fd : Nat}

/-- The lists hold the descriptors that are flagged, and a deleted check defers nothing. -/
structure Proper (s : EvKQBase) : Prop where
  linked : ∀ direction fd, fd ∈ s.deferList direction ↔ (s.fd fd).defer direction = true
  deleted : ∀ direction fd, s.deleted direction fd = true → (s.fd fd).defer direction = false

/-- The steps after which lists and flags still agree. -/
def Orderly (s : EvKQBase) : Event → Prop
  | .setDeferCheck .write fd .delete _ _ => (s.fd fd).defer .write = false
  | .clearEvents fd | .close fd _ | .closeJob fd _ => (s.fd fd).defer .write = false
  | .init fd => (s.fd fd).defer .read = false ∧ (s.fd fd).defer .write = false
  | .ret answer =>
      match s.stack with
      | .callback :: .checked direction fd _ :: _ => answer ≠ 0 → s.deleted direction fd = false
      | _ => True
  | _ => True

instance (answer : Int) (stack : List Frame) : Decidable (match stack with
    | .callback :: .checked direction fd _ :: _ => answer ≠ 0 → s.deleted direction fd = false
    | _ => True) :=
  match stack with
  | .callback :: .checked .. :: _ => inferInstanceAs (Decidable (_ → _))
  | [] | [.callback] | .callback :: .callback :: _ | .callback :: .recheck .. :: _
  | .callback :: .event .. :: _ | .callback :: .walk .. :: _ | .callback :: .walked .. :: _
  | .checked .. :: _ | .recheck .. :: _ | .event .. :: _ | .walk .. :: _ | .walked .. :: _ =>
      isTrue trivial

instance : DecidablePred (Orderly s)
  | .setDeferCheck .write _ .delete _ _ | .clearEvents _ | .close _ _ | .closeJob _ _ =>
      inferInstanceAs (Decidable (_ = false))
  | .init _ => inferInstanceAs (Decidable (_ ∧ _))
  | .ret answer => inferInstanceAs (Decidable (match s.stack with
      | .callback :: .checked direction fd _ :: _ => answer ≠ 0 → s.deleted direction fd = false
      | _ => True))
  | .setDeferCheck .read .. | .setDeferCheck .write _ .addVolatile ..
  | .setDeferCheck .write _ .addPersist .. | .setDeferCheck .write _ .addTransition ..
  | .setDeferCheck .write _ .enable .. | .setDeferCheck .write _ .disable ..
  | .setDeferCheck .write _ .clear .. | .step | .invoke .. | .beginCheck .. | .setEvent .. =>
      isTrue trivial

structure Linked (s : EvKQBase) : Prop where
  nodup : ∀ direction, (s.deferList direction).Nodup
  linked : ∀ direction fd, fd ∈ s.deferList direction ↔ (s.fd fd).defer direction = true

structure Inv (s : EvKQBase) : Prop extends Linked s where
  deleted : ∀ direction fd, s.deleted direction fd = true → (s.fd fd).defer direction = false

theorem Inv.proper (h : Inv s) : Proper s := ⟨h.linked, h.deleted⟩

/-! ## What leaves lists and flags alone -/

structure Same (s t : EvKQBase) : Prop where
  deferList : t.deferList = s.deferList
  defer : ∀ fd, (t.fd fd).defer = (s.fd fd).defer
  deleted : t.deleted = s.deleted

theorem Same.refl (s : EvKQBase) : Same s s := ⟨rfl, fun _ => rfl, rfl⟩

theorem Same.trans (h : Same s t) (h' : Same t u) : Same s u where
  deferList := h'.deferList.trans h.deferList
  defer fd := (h'.defer fd).trans (h.defer fd)
  deleted := h'.deleted.trans h.deleted

theorem Same.linked (h : Same s t) (hs : Linked s) : Linked t where
  nodup direction := by
    rw [h.deferList]
    exact hs.nodup direction
  linked direction fd := by
    rw [h.deferList, h.defer]
    exact hs.linked direction fd

theorem Same.inv (h : Same s t) (hs : Inv s) : Inv t where
  toLinked := h.linked hs.toLinked
  deleted direction fd hdel := by
    rw [h.defer]
    apply hs.deleted
    rw [← h.deleted]
    exact hdel

theorem same_setFd (fd : Nat) (f : EvBaseKQFileDesc → EvBaseKQFileDesc)
    (hf : ∀ kqFd, (f kqFd).defer = kqFd.defer) : Same s (s.setFd fd f) where
  deferList := rfl
  defer x := by
    by_cases hx : x = fd
    · subst hx
      simp [setFd, hf]
    · simp [setFd, update_of_ne hx]
  deleted := rfl

theorem same_setDeferProto (direction : Direction) (fd : Nat)
    (f : EventPrototype → EventPrototype) : Same s (s.setDeferProto direction fd f) :=
  same_setFd fd _ fun _ => rfl

theorem same_push (l : List Frame) : Same s (s.push l) := ⟨rfl, fun _ => rfl, rfl⟩

theorem same_setEvent (fd : Nat) (direction : Direction) (action : CommAction)
    (cbHandler : Option Nat) (cbData : Nat) :
    Same s (s.setEvent fd direction action cbHandler cbData) :=
  ⟨rfl, fun _ => rfl, rfl⟩

theorem fdEventInvoke_ends (direction : Direction) (fd : Nat) :
    Ends (fdEventInvoke direction fd) s (fun _ => Same s) fun _ _ => False := by
  rw [fdEventInvoke, ends_modify]
  dsimp only
  split
  · exact ⟨rfl, fun _ => rfl, rfl⟩
  · exact ⟨rfl, fun _ => rfl, rfl⟩

theorem deferCheck_ends (direction : Direction) (fd : Nat) (eventSz : Int) :
    Ends (deferCheck direction fd eventSz) s (fun _ => Same s) fun _ _ => False := by
  simp only [deferCheck, ends_bind, ends_get, ends_ite, ends_pure, ends_set]
  refine ⟨fun _ => Same.refl s, fun _ => ?_⟩
  split
  · exact same_push _
  · exact (same_setDeferProto direction fd _).trans (same_push _)

theorem invokeEvent_ends (direction : Direction) (fd : Nat) (eventSz : Int) :
    Ends (invokeEvent direction fd eventSz) s (fun _ => Same s) fun _ _ => False := by
  simp only [invokeEvent, ends_bind, ends_get, ends_ite, ends_pure, ends_set]
  refine ⟨fun _ => ?_, fun _ => Same.refl s⟩
  apply (deferCheck_ends direction fd eventSz).imp
  intro _ t ht
  exact (same_push _).trans ht

theorem invokeEventEnd_ends (direction : Direction) (fd : Nat) :
    Ends (invokeEventEnd direction fd) s (fun _ => Same s) fun _ _ => False := by
  simp only [invokeEventEnd, ends_bind, ends_get, ends_ite, ends_pure]
  exact ⟨fun _ => Same.refl s, fun _ => fdEventInvoke_ends direction fd⟩

/-! ## Removal -/

structure Removed (direction : Direction) (fd : Nat) (s t : EvKQBase) : Prop where
  lowered : (t.fd fd).defer direction = false
  other : ∀ d x, (d, x) ≠ (direction, fd) → (t.fd x).defer d = (s.fd x).defer d
  deleted : t.deleted = s.deleted

theorem Removed.of_same (h : Same s t) (hdefer : (s.fd fd).defer direction = false) :
    Removed direction fd s t where
  lowered := by rw [h.defer, hdefer]
  other d x _ := by rw [h.defer]
  deleted := h.deleted

theorem Removed.trans_same (h : Removed direction fd s t) (ht : Same t u) :
    Removed direction fd s u where
  lowered := by rw [ht.defer, h.lowered]
  other d x hx := by rw [ht.defer, h.other d x hx]
  deleted := ht.deleted.trans h.deleted

theorem Removed.inv (h : Removed direction fd s t) (hs : Linked t)
    (hdel : ∀ d x, (d, x) ≠ (direction, fd) → s.deleted d x = true →
      (s.fd x).defer d = false) : Inv t where
  toLinked := hs
  deleted d x hd := by
    rw [h.deleted] at hd
    by_cases hx : (d, x) = (direction, fd)
    · cases hx
      exact h.lowered
    · rw [h.other d x hx]
      exact hdel d x hx hd

theorem Linked.remove (h : Linked s)
    (hlist : t.deferList =
      update s.deferList direction ((s.deferList direction).erase fd))
    (hself : (t.fd fd).defer = update (s.fd fd).defer direction false)
    (hother : ∀ x, x ≠ fd → (t.fd x).defer = (s.fd x).defer) (hdeleted : t.deleted = s.deleted) :
    Linked t ∧ Removed direction fd s t := by
  have hremoved : Removed direction fd s t := by
    refine ⟨by rw [hself, update_self], fun d x hx => ?_, hdeleted⟩
    by_cases hfd : x = fd
    · have hd : d ≠ direction := by
        rintro rfl
        exact hx (by rw [hfd])
      rw [hfd, hself, update_of_ne hd]
    · rw [hother x hfd]
  refine ⟨⟨fun d => ?_, fun d x => ?_⟩, hremoved⟩
  · rw [hlist]
    by_cases hd : d = direction
    · rw [hd, update_self]
      exact (h.nodup direction).erase fd
    · rw [update_of_ne hd]
      exact h.nodup d
  · rw [hlist]
    by_cases hx : (d, x) = (direction, fd)
    · cases hx
      rw [update_self, hremoved.lowered]
      exact iff_of_false (h.nodup direction).not_mem_erase nofun
    · rw [hremoved.other d x hx, ← h.linked]
      by_cases hd : d = direction
      · subst hd
        have hne : x ≠ fd := fun heq => hx (by rw [heq])
        rw [update_self, mem_erase_of_ne hne]
      · rw [update_of_ne hd]

theorem deferResetIterFlags_ends (h : Linked s)
    (hu : Same (s.setList direction ((s.deferList direction).erase fd)) u) :
    Ends (deferResetIterFlags direction fd) u (fun _ t => Linked t ∧ Removed direction fd s t)
      fun _ _ => False := by
  rw [deferResetIterFlags, ends_modify]
  apply h.remove
  · exact hu.deferList
  · simp only [setFd, update_self]
    rw [hu.defer]
    rfl
  · intro x hx
    simp only [setFd, update_of_ne hx]
    exact hu.defer x
  · exact hu.deleted

theorem deferRemove_ends (h : Linked s) (direction : Direction) (fd : Nat) :
    Ends (deferRemove direction fd) s (fun _ t => Linked t ∧ Removed direction fd s t)
      fun _ _ => False := by
  simp only [deferRemove, ends_bind, ends_get, ends_ite, ends_pure, ends_set, ends_modify]
  refine ⟨fun hnot => ⟨h, .of_same (.refl s) (by simpa using hnot)⟩, fun _ => ?_⟩
  -- The pending event is dispatched when the descriptor has left the list.
  have hdispatch : ∀ t, Linked t ∧ Removed direction fd s t →
      Ends (fdEventInvoke direction fd) (t.push [.recheck direction fd])
        (fun _ t => Linked t ∧ Removed direction fd s t) fun _ _ => False := by
    intro t ht
    apply (fdEventInvoke_ends direction fd).imp
    intro _ v hv
    have hsame := (same_push [.recheck direction fd]).trans hv
    exact ⟨hsame.linked ht.1, ht.2.trans_same hsame⟩
  have hreset : ∀ (c : Prop) u, Same (s.setList direction ((s.deferList direction).erase fd)) u →
      Ends (deferResetIterFlags direction fd) u
        (fun _ t =>
          (c → Ends (fdEventInvoke direction fd) (t.push [.recheck direction fd])
            (fun _ t => Linked t ∧ Removed direction fd s t) fun _ _ => False) ∧
          (¬c → Linked t ∧ Removed direction fd s t)) fun _ _ => False := by
    intro c u hu
    apply (deferResetIterFlags_ends h hu).imp
    intro _ t ht
    exact ⟨fun _ => hdispatch t ht, fun _ => ht⟩
  refine ⟨fun _ => ⟨fun _ => ?_, fun _ => ?_⟩, fun _ => hreset _ _ (.refl _)⟩
  · exact hreset _ _ ((same_setEvent ..).trans (same_setEvent ..))
  · exact hreset _ _ (same_setEvent ..)

/-! ## Checks -/

theorem Inv.add (h : Inv s) (hdefer : (s.fd fd).defer direction = false)
    (hdel : s.deleted direction fd = false)
    (hlist : t.deferList = update s.deferList direction (fd :: s.deferList direction))
    (hself : (t.fd fd).defer = update (s.fd fd).defer direction true)
    (hother : ∀ x, x ≠ fd → (t.fd x).defer = (s.fd x).defer) (hdeleted : t.deleted = s.deleted) :
    Inv t := by
  have hnot : fd ∉ s.deferList direction := by
    rw [h.linked, hdefer]
    exact nofun
  have hraised : (t.fd fd).defer direction = true := by rw [hself, update_self]
  have hrest : ∀ d x, (d, x) ≠ (direction, fd) → (t.fd x).defer d = (s.fd x).defer d := by
    intro d x hx
    by_cases hfd : x = fd
    · have hd : d ≠ direction := by
        rintro rfl
        exact hx (by rw [hfd])
      rw [hfd, hself, update_of_ne hd]
    · rw [hother x hfd]
  refine ⟨⟨fun d => ?_, fun d x => ?_⟩, fun d x hd => ?_⟩
  · rw [hlist]
    by_cases hd : d = direction
    · rw [hd, update_self]
      exact nodup_cons.2 ⟨hnot, h.nodup direction⟩
    · rw [update_of_ne hd]
      exact h.nodup d
  · rw [hlist]
    by_cases hx : (d, x) = (direction, fd)
    · cases hx
      rw [update_self]
      exact iff_of_true mem_cons_self hraised
    · rw [hrest d x hx, ← h.linked]
      by_cases hd : d = direction
      · subst hd
        have hne : x ≠ fd := fun heq => hx (by rw [heq])
        rw [update_self, mem_cons, or_iff_right hne]
      · rw [update_of_ne hd]
  · rw [hdeleted] at hd
    have hx : (d, x) ≠ (direction, fd) := by
      rintro heq
      cases heq
      exact absurd hd (by rw [hdel]; exact nofun)
    rw [hrest d x hx]
    exact h.deleted d x hd

theorem remove_inv_ends (h : Inv s) (direction : Direction) (fd : Nat) :
    Ends (deferRemove direction fd) s (fun _ => Inv) fun _ _ => False := by
  apply (deferRemove_ends h.toLinked direction fd).imp
  intro _ t ⟨hlinked, hremoved⟩
  exact hremoved.inv hlinked fun d x _ => h.deleted d x

theorem deferChecked_ends (h : Inv s) (direction : Direction) (fd : Nat) (eventSz answer : Int)
    (hdel : answer ≠ 0 → s.deleted direction fd = false) :
    Ends (deferChecked direction fd eventSz answer) s (fun _ => Inv) fun _ _ => False := by
  simp only [deferChecked, ends_bind, ends_get, ends_ite, ends_pure, ends_modify]
  refine ⟨fun hanswer => ⟨fun _ => h, fun hdefer => ?_⟩, fun _ => remove_inv_ends h direction fd⟩
  have hlink : ∀ u, Same s u → Inv ((u.setList direction (fd :: u.deferList direction)).setFd fd
      fun kqFd =>
        { kqFd with
          pendingBytes := update kqFd.pendingBytes direction eventSz
          defer := update kqFd.defer direction true }) := by
    intro u hu
    have hlower : (u.fd fd).defer direction = false := by
      rw [hu.defer]
      simpa using hdefer
    apply (hu.inv h).add hlower
    · rw [hu.deleted]
      exact hdel hanswer
    · rfl
    · simp only [setFd, setList, update_self]
    · intro x hx
      simp only [setFd, setList, update_of_ne hx]
    · rfl
  refine ⟨fun _ => ?_, fun _ => hlink s (.refl s)⟩
  exact hlink _ ((same_setEvent ..).trans (same_setFd _ _ fun _ => rfl))

theorem walkedNode_ends (h : Inv s) (loop : Direction) (node : Node) (answer : Direction → Int) :
    Ends (walkedNode loop node answer) s (fun _ => Inv) fun _ _ => False := by
  simp only [walkedNode, ends_bind, ends_get, ends_ite, ends_set]
  refine ⟨fun _ => (same_push _).inv h, fun _ => ?_⟩
  exact remove_inv_ends ((same_push _).inv h) loop node.2

theorem walkNode_ends (h : Inv s) (loop : Direction) (node : Option Node)
    (answer : Direction → Int) :
    Ends (walkNode loop node answer) s (fun _ => Inv) fun _ _ => False := by
  simp only [walkNode, ends_bind, ends_get]
  split
  · rw [ends_set]
    exact (same_push _).inv h
  · exact h
  · simp only [ends_ite, ends_set]
    refine ⟨fun _ => (same_push _).inv h, fun _ => ⟨fun _ => (same_push _).inv h, fun _ => ?_⟩⟩
    exact walkedNode_ends h loop _ answer

/-! ## The events of a descriptor -/

theorem Inv.setDeleted (h : Inv s) (direction : Direction) (fd : Nat) (b : Bool)
    (hdefer : b = true → (s.fd fd).defer direction = false) :
    Inv (s.setDeleted direction fd b) where
  toLinked := ⟨h.nodup, h.linked⟩
  deleted d x hd := by
    by_cases hx : d = direction ∧ x = fd
    · obtain ⟨rfl, rfl⟩ := hx
      apply hdefer
      simpa [EvKQBase.setDeleted] using hd
    · apply h.deleted d x
      rw [← hd]
      simp only [EvKQBase.setDeleted]
      by_cases hdir : d = direction
      · subst hdir
        have hne : x ≠ fd := fun heq => hx ⟨rfl, heq⟩
        rw [update_self, update_of_ne hne]
      · rw [update_of_ne hdir]

theorem updateDeferCheck_ends (h : Inv s) (direction : Direction) (fd : Nat) (action : CommAction)
    (cbHandler : Option Nat) (cbData : Nat)
    (hdefer : action = .delete → (s.fd fd).defer direction = false) :
    Ends (updateDeferCheck direction fd action cbHandler cbData) s
      (fun _ t => Inv t ∧ ∀ x, (t.fd x).defer = (s.fd x).defer) fun _ _ => False := by
  have hsame : ∀ f, Same s (s.setDeferProto direction fd f) := same_setDeferProto direction fd
  have hset : ∀ f b, (b = true → (s.fd fd).defer direction = false) →
      Inv ((s.setDeferProto direction fd f).setDeleted direction fd b) ∧
        ∀ x, (((s.setDeferProto direction fd f).setDeleted direction fd b).fd x).defer =
          (s.fd x).defer := by
    intro f b hb
    refine ⟨((hsame f).inv h).setDeleted direction fd b fun hdel => ?_, (hsame f).defer⟩
    rw [(hsame f).defer]
    exact hb hdel
  cases action with
  | addVolatile | addPersist =>
      simp only [updateDeferCheck, ends_bind, ends_get, ends_ite, ends_set, ends_pure]
      exact ⟨fun _ => hset _ false (by simp), fun _ => ⟨h, fun _ => trivial⟩⟩
  | delete => exact hset _ true fun _ => hdefer rfl
  | enable | disable => exact ⟨(hsame _).inv h, (hsame _).defer⟩
  | addTransition | clear => exact ⟨h, fun _ => rfl⟩

theorem deleteReadEvent_ends (h : Inv s) (fd : Nat) (cbHandler : Option Nat) (cbData : Nat) :
    Ends (updateDeferCheckReadEvent fd .delete cbHandler cbData) s
      (fun _ t => Inv t ∧ (t.fd fd).defer .read = false ∧
        (t.fd fd).defer .write = (s.fd fd).defer .write) fun _ _ => False := by
  have hsame := same_setDeferProto (s := s) .read fd fun _ => {}
  simp only [updateDeferCheckReadEvent, updateDeferCheck, ends_bind, ends_get, ends_set, if_true]
  have hlinked := hsame.linked h.toLinked
  apply (deferRemove_ends (s := (s.setDeferProto .read fd fun _ => {}).setDeleted .read fd true)
    ⟨hlinked.nodup, hlinked.linked⟩ .read fd).imp
  intro _ t hpost
  obtain ⟨ht, hremoved⟩ := hpost
  refine ⟨hremoved.inv ht fun d x hx hd => ?_, hremoved.lowered, ?_⟩
  · have hold : s.deleted d x = true := by
      rw [← hd]
      simp only [setDeleted]
      by_cases hdir : d = .read
      · subst hdir
        have hne : x ≠ fd := fun heq => hx (by rw [heq])
        rw [update_self, update_of_ne hne]
        rfl
      · rw [update_of_ne hdir]
        rfl
    exact (congrFun (hsame.defer x) d).trans (h.deleted d x hold)
  · rw [hremoved.other .write fd (by simp)]
    exact congrFun (hsame.defer fd) .write

theorem setDeferCheck_ends (h : Inv s) (direction : Direction) (fd : Nat) (action : CommAction)
    (cbHandler : Option Nat) (cbData : Nat)
    (hwrite : direction = .write → action = .delete → (s.fd fd).defer .write = false) :
    Ends (setDeferCheck direction fd action cbHandler cbData) s (fun _ => Inv)
      fun _ _ => False := by
  cases direction with
  | write =>
      apply (updateDeferCheck_ends h .write fd action cbHandler cbData (hwrite rfl)).imp
      intro _ t ht
      exact ht.1
  | read =>
      by_cases haction : action = .delete
      · subst haction
        apply (deleteReadEvent_ends h fd cbHandler cbData).imp
        intro _ t ht
        exact ht.1
      · simp only [setDeferCheck, updateDeferCheckReadEvent, ends_bind, if_neg haction, ends_pure]
        apply (updateDeferCheck_ends h .read fd action cbHandler cbData
          fun heq => absurd heq haction).imp
        intro _ t ht
        exact ht.1

theorem clearEvents_ends (h : Inv s) (hwrite : (s.fd fd).defer .write = false) :
    Ends (clearEvents fd) s (fun _ t => Inv t ∧ ∀ direction, (t.fd fd).defer direction = false)
      fun _ _ => False := by
  simp only [clearEvents, ends_bind, ends_modify]
  have hset : Same s ((s.setEvent fd .read .delete none 0).setEvent fd .write .delete none 0) :=
    (same_setEvent ..).trans (same_setEvent ..)
  apply (deleteReadEvent_ends (hset.inv h) fd none 0).imp
  intro _ t hpost
  obtain ⟨ht, hread, hkept⟩ := hpost
  have hlow : (t.fd fd).defer .write = false := by
    rw [hkept, hset.defer, hwrite]
  apply (updateDeferCheck_ends ht .write fd .delete none 0 fun _ => hlow).imp
  intro _ u hpost
  obtain ⟨hu, hflags⟩ := hpost
  refine ⟨hu, fun direction => ?_⟩
  rw [hflags]
  cases direction with
  | read => exact hread
  | write => exact hlow

theorem same_setFd_of_lowered (hlow : ∀ direction, (s.fd fd).defer direction = false)
    (f : EvBaseKQFileDesc → EvBaseKQFileDesc) (hf : ∀ kqFd, (f kqFd).defer = fun _ => false) :
    Same s (s.setFd fd f) where
  deferList := rfl
  defer x := by
    by_cases hx : x = fd
    · subst hx
      simp only [setFd, update_self, hf]
      exact (funext hlow).symm
    · simp only [setFd, update_of_ne hx]
  deleted := rfl

theorem deferReset_ends (h : Inv s) (hlow : ∀ direction, (s.fd fd).defer direction = false) :
    Ends (deferReset fd) s (fun _ t => Inv t ∧ ∀ direction, (t.fd fd).defer direction = false)
      fun _ _ => False := by
  rw [deferReset, ends_modify]
  have hsame := same_setFd_of_lowered hlow
    (fun kqFd =>
      { kqFd with
        deferCheck := fun _ => {}, pendingBytes := fun _ => 0, transitionSet := fun _ => false
        defer := fun _ => false }) fun _ => rfl
  refine ⟨hsame.inv h, fun direction => ?_⟩
  rw [hsame.defer]
  exact hlow direction

theorem fdGenericInit_ends (h : Inv s) (hlow : ∀ direction, (s.fd fd).defer direction = false) :
    Ends (fdGenericInit fd) s (fun _ => Inv) fun _ _ => False := by
  simp only [fdGenericInit, ends_bind, ends_modify]
  apply (deferReset_ends h hlow).imp
  intro _ t hpost
  obtain ⟨ht, hlow⟩ := hpost
  exact (same_setFd_of_lowered hlow _ fun _ => rfl).inv ht

/-! ## Closing -/

theorem clearAndReset_ends (h : Inv s) (hwrite : (s.fd fd).defer .write = false) :
    Ends (do clearEvents fd; deferReset fd) s
      (fun _ t => Inv t ∧ ∀ direction, (t.fd fd).defer direction = false) fun _ _ => False := by
  rw [ends_bind]
  apply (clearEvents_ends h hwrite).imp
  intro _ t ⟨ht, hlow⟩
  exact deferReset_ends ht hlow

theorem fdDoClose_ends (h : Inv s) (hwrite : (s.fd fd).defer .write = false) :
    Ends (fdDoClose fd) s (fun _ => Inv) fun _ => Inv := by
  have hsame := same_setFd (s := s) fd (fun kqFd => { kqFd with closeJobId := -1 }) fun _ => rfl
  simp only [fdDoClose, ends_bind, ends_get, ends_assertThat, ends_set]
  refine ⟨fun _ => ?_, fun _ => h⟩
  have hclean := clearAndReset_ends (hsame.inv h) (by rw [hsame.defer]; exact hwrite)
  simp only [ends_bind] at hclean
  simp only [fdCleanup, ends_bind, ends_modify]
  apply hclean.total
  intro _ t ht
  apply ht.total
  intro _ u hpost
  obtain ⟨hu, hlow⟩ := hpost
  exact (same_setFd_of_lowered hlow _ fun _ => rfl).inv hu

theorem fdCloseJob_ends (h : Inv s) (hwrite : (s.fd fd).defer .write = false) (jobId : Int) :
    Ends (fdCloseJob fd jobId) s (fun _ => Inv) fun _ => Inv := by
  simp only [fdCloseJob, ends_bind, ends_get, ends_assertThat]
  exact ⟨fun _ => ⟨fun _ => ⟨fun _ => fdDoClose_ends h hwrite, fun _ => h⟩, fun _ => h⟩, fun _ => h⟩

theorem socketClose_ends (h : Inv s) (hwrite : (s.fd fd).defer .write = false) (jobId : Int) :
    Ends (socketClose fd jobId) s (fun _ => Inv) fun _ => Inv := by
  have hclosing := same_setFd (s := s) fd (fun kqFd => { kqFd with closing := true }) fun _ => rfl
  have hjob := hclosing.trans (same_setFd fd (fun kqFd => { kqFd with closeJobId := jobId })
    fun _ => rfl)
  simp only [socketClose, ends_bind, ends_modify, ends_get, ends_ite, ends_set]
  refine ⟨fun _ => ⟨fun _ => ?_, fun _ => ?_⟩, fun _ => ?_⟩
  · exact fdDoClose_ends (hjob.inv h) (by rw [hjob.defer]; exact hwrite)
  · have hclear := clearAndReset_ends (hjob.inv h) (by rw [hjob.defer]; exact hwrite)
    rw [ends_bind] at hclear
    apply hclear.total
    intro _ t ht
    apply ht.total
    intro _ u hu
    exact hu.1
  · exact fdDoClose_ends (hclosing.inv h) (by rw [hclosing.defer]; exact hwrite)

/-! ## Runs -/

theorem ret_ends (h : Inv s) (answer : Int) (horderly : Orderly s (.ret answer)) :
    Ends (ret answer) s (fun _ => Inv) fun _ _ => False := by
  have hpop : ∀ rest, Inv { s with stack := rest } := fun rest => ⟨⟨h.nodup, h.linked⟩, h.deleted⟩
  simp only [ret, ends_bind, ends_get]
  split
  next direction fd eventSz rest hstack =>
    simp only [Orderly, hstack] at horderly
    exact deferChecked_ends (hpop rest) direction fd eventSz answer horderly
  next loop node answers rest hstack => exact walkedNode_ends (hpop rest) loop node _
  next rest _ _ hstack => exact hpop rest
  next => exact h

theorem goOn_ends (h : Inv s) : Ends goOn s (fun _ => Inv) fun _ _ => False := by
  have hpop : ∀ rest, Inv { s with stack := rest } := fun rest => ⟨⟨h.nodup, h.linked⟩, h.deleted⟩
  simp only [goOn, ends_bind, ends_get]
  split
  next direction fd rest hstack =>
    apply (deferCheck_ends direction fd 0).imp
    intro _ t ht
    exact ht.inv (hpop rest)
  next direction fd rest hstack =>
    apply (invokeEventEnd_ends direction fd).imp
    intro _ t ht
    exact ht.inv (hpop rest)
  next loop node answer rest hstack => exact walkNode_ends (hpop rest) loop node answer
  next => exact h

theorem whenIdle_ends {x : M PUnit} (h : Inv s) (hx : Ends x s (fun _ => Inv) fun _ => Inv) :
    Ends (whenIdle x) s (fun _ => Inv) fun _ => Inv := by
  simp only [whenIdle, ends_bind, ends_get, ends_ite, ends_pure]
  exact ⟨fun _ => hx, fun _ => h⟩

theorem whenCalls_ends {x : M PUnit} (h : Inv s) (hx : Ends x s (fun _ => Inv) fun _ => Inv) :
    Ends (whenCalls x) s (fun _ => Inv) fun _ => Inv := by
  simp only [whenCalls, ends_bind, ends_get, ends_ite, ends_pure]
  exact ⟨fun _ => hx, fun _ => h⟩

theorem handle_ends (e : Event) (s : EvKQBase) (h : Inv s) (horderly : Orderly s e) :
    Ends (handle e) s (fun _ => Inv) fun _ => Inv := by
  have hno : ∀ {x : M PUnit}, Ends x s (fun _ => Inv) (fun _ _ => False) →
      Ends x s (fun _ => Inv) fun _ => Inv := by
    intro x hx
    exact hx.total fun _ _ ht => ht
  cases e with
  | ret answer => exact hno (ret_ends h answer horderly)
  | step => exact hno (goOn_ends h)
  | invoke direction fd eventSz =>
      apply whenIdle_ends h
      apply (invokeEvent_ends direction fd eventSz).total
      intro _ t ht
      exact ht.inv h
  | beginCheck read write => exact whenIdle_ends h ((same_push _).inv h)
  | closeJob fd jobId => exact whenIdle_ends h (fdCloseJob_ends h horderly jobId)
  | setDeferCheck direction fd action cbHandler cbData =>
      apply whenCalls_ends h
      apply hno
      apply setDeferCheck_ends h
      rintro rfl rfl
      exact horderly
  | setEvent direction fd action cbHandler cbData => exact whenCalls_ends h ((same_setEvent ..).inv h)
  | clearEvents fd =>
      apply whenCalls_ends h
      apply (clearEvents_ends h horderly).total
      intro _ t ht
      exact ht.1
  | init fd =>
      apply whenCalls_ends h
      apply hno
      apply fdGenericInit_ends h
      intro direction
      cases direction with
      | read => exact horderly.1
      | write => exact horderly.2
  | close fd jobId => exact whenCalls_ends h (socketClose_ends h horderly jobId)

theorem inv_new (closeLinger : Bool) : Inv { closeLinger } where
  nodup _ := nodup_nil
  linked _ _ := iff_of_false not_mem_nil nofun
  deleted _ _ := nofun

/-- **Lists and flags.**  In the runs whose steps meet no descriptor that is deferred in a
direction they forget about, the lists hold the flagged descriptors, and no check that is
deleted defers. -/
theorem defer_proper (closeLinger : Bool) (evs : List Event)
    (horderly : Runs.Meets handle Orderly (.live { closeLinger }) evs) :
    Proper (runFrom closeLinger evs).state := by
  have hnew : Runs.Holds (ε := Fault) Inv (fun _ => Inv) (.live { closeLinger }) :=
    inv_new closeLinger
  exact (Runs.invariant_run_of handle_ends hnew evs horderly).always.proper

def deferredWrite : List Event :=
  [.init 4, .setEvent .write 4 .addPersist (some 1) 0, .setDeferCheck .write 4 .addPersist (some 2) 0,
    .invoke .write 4 100, .ret 1, .step]

/-- It is asked again, is not deferred any more, and is closed. -/
theorem defer_proper_closed :
    Proper (runFrom false
      (deferredWrite ++ [.beginCheck 0 0, .step, .step, .ret 0, .ret 0, .step, .ret 0, .step, .step,
        .close 4 0])).state :=
  defer_proper false _ (by decide)

/-- The check is deleted, or the descriptor is closed, while it is deferred. -/
theorem deferred_write_kept :
    ¬ Proper (runFrom false (deferredWrite ++ [.setDeferCheck .write 4 .delete none 0])).state ∧
      ¬ Proper (runFrom false (deferredWrite ++ [.close 4 0])).state := by
  constructor
  · intro h
    exact absurd (h.deleted .write 4 (by decide)) (by decide)
  · intro h
    exact absurd ((h.linked .write 4).1 (by decide)) (by decide)

end EvKQDefer
