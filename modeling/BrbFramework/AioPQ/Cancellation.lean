import BrbFramework.AioPQ.Moves

/-!
# Cancelled requests stay silent

While `canceled_notify` is off, a pending request that is flagged cancelled is
never called back: what the pool does to it later takes it out of its list or
out of its client, and no more. Requests are told apart by the numbers they got
when they were accepted, since the slots are used again.

A request of another owner is left as it is by the cancellation. It stays
pending until its callback is invoked or until it is cancelled itself. It may be
sent sooner, though: a cancelled query that was waiting before it is not sent.
-/

namespace EvAIOPQ

open Relation Handler BrbData List EvAIOPQBase

/-! ## The numbers of the requests -/

/-- A pending request has a number of its own, below the next one, and its
callback is flagged as invoked once it is. -/
structure Numbered (s : EvAIOPQBase) : Prop where
  lt : ∀ req, s.Pending req → (s.request req).serial < s.countTotal
  inj : ∀ req req', s.Pending req → s.Pending req' →
    (s.request req).serial = (s.request req').serial → req = req'
  calledLt : ∀ n ∈ calledSerials s.log, n < s.countTotal
  flagged : ∀ req, s.Pending req → (s.request req).serial ∈ calledSerials s.log →
    (s.request req).cbCalled = true

/-- Whoever has the number `n` is cancelled, and cancelled requests are not
called back. -/
structure Mute (n : Nat) (s : EvAIOPQBase) : Prop where
  off : s.canceledNotify = false
  old : n < s.countTotal
  silent : n ∉ calledSerials s.log
  cancelled : ∀ req, s.Pending req → (s.request req).serial = n →
    (s.request req).cancelled = true

/-- The record of `req` is that of the same request. It may have been
cancelled or called back. -/
structure Same (req : Nat) (s t : EvAIOPQBase) : Prop where
  serial : (t.request req).serial = (s.request req).serial
  ownerId : (t.request req).ownerId = (s.request req).ownerId
  hasCb : (t.request req).hasCb = (s.request req).hasCb
  cancelled : (s.request req).cancelled = true → (t.request req).cancelled = true
  cbCalled : (s.request req).cbCalled = true → (t.request req).cbCalled = true

/-- What is pending was pending before, or is the one request that was accepted. -/
structure Traced (s t : EvAIOPQBase) : Prop where
  notify : t.canceledNotify = s.canceledNotify
  total : s.countTotal ≤ t.countTotal
  back : ∃ new, ∀ req, t.Pending req → s.Pending req ∧ Same req s t ∨
    req = new ∧ (t.request req).serial = s.countTotal ∧ s.countTotal < t.countTotal

section Records

variable {s t : EvAIOPQBase} {m : Mode} {req cli : Nat}

theorem same_of_request_eq (h : t.request req = s.request req) : Same req s t := by
  refine ⟨?_, ?_, ?_, fun hc => ?_, fun hc => ?_⟩
  · rw [h]
  · rw [h]
  · rw [h]
  · rw [h]
    exact hc
  · rw [h]
    exact hc

theorem Same.trans {u : EvAIOPQBase} (h : Same req s t) (h' : Same req t u) : Same req s u :=
  ⟨h'.serial.trans h.serial, h'.ownerId.trans h.ownerId, h'.hasCb.trans h.hasCb,
    fun hc => h'.cancelled (h.cancelled hc), fun hc => h'.cbCalled (h.cbCalled hc)⟩

theorem Quiet.pending (h : Quiet s t) : t.Pending req ↔ s.Pending req := by
  unfold EvAIOPQBase.Pending requests replies
  rw [h.reqslot]

theorem Quiet.same (h : Quiet s t) : Same req s t := by
  apply same_of_request_eq
  unfold request
  rw [h.reqslot]

theorem request_setRequest (s : EvAIOPQBase) (i req : Nat)
    (f : EvAIOPQRequest → EvAIOPQRequest) :
    (s.setRequest i f).request req = if req = i then f (s.request i) else s.request req := by
  unfold request setRequest
  split
  · subst req
    exact MemSlotBase.slotData_modifyData_self _ _ _
  · exact MemSlotBase.slotData_modifyData_of_ne _ _ _ ‹_›

theorem same_cancel (s : EvAIOPQBase) (i : Nat) :
    Same req s (s.setRequest i fun r => { r with cancelled := true }) := by
  by_cases hi : req = i
  · subst hi
    constructor <;> simp [request_setRequest]
  · apply same_of_request_eq
    simp [request_setRequest, hi]

theorem same_setParent (s : EvAIOPQBase) (i cli : Nat) : Same req s (s.setParent i cli) := by
  unfold setParent
  by_cases hi : req = i
  · subst hi
    constructor <;> simp [request_setRequest]
  · apply same_of_request_eq
    simp [request_setRequest, hi]

theorem same_calledBack (s : EvAIOPQBase) (i : Nat) : Same req s (s.calledBack i) := by
  have h : (s.calledBack i).request req =
      (s.setRequest i fun r => { r with cbCalled := true }).request req := rfl
  by_cases hi : req = i
  · subst hi
    constructor <;> simp [h, request_setRequest]
  · apply same_of_request_eq
    simp [h, request_setRequest, hi]

theorem same_attach (s : EvAIOPQBase) (cli i : Nat) : Same req s (s.attach cli i) := by
  refine ⟨attach_view (·.serial) (fun _ => rfl) req, attach_view (·.ownerId) (fun _ => rfl) req,
    attach_view (·.hasCb) (fun _ => rfl) req, fun hc => ?_, fun hc => ?_⟩
  · rw [attach_view (·.cancelled) (fun _ => rfl) req]
    exact hc
  · rw [attach_view (·.cbCalled) (fun _ => rfl) req]
    exact hc

theorem same_requestDestroy (s : EvAIOPQBase) (i : Nat) : Same req s (s.requestDestroy i) := by
  refine ⟨requestDestroy_view (·.serial) (fun _ => rfl) req,
    requestDestroy_view (·.ownerId) (fun _ => rfl) req,
    requestDestroy_view (·.hasCb) (fun _ => rfl) req, fun hc => ?_, fun hc => ?_⟩
  · rw [requestDestroy_view (·.cancelled) (fun _ => rfl) req]
    exact hc
  · rw [requestDestroy_view (·.cbCalled) (fun _ => rfl) req]
    exact hc

theorem pending_attach (cli : Nat) (hf : Formed (s, m)) {i : Nat} (h : i ∈ s.requests) :
    (s.attach cli i).Pending req ↔ s.Pending req := by
  unfold EvAIOPQBase.Pending
  rw [hf.attach_requests h, hf.attach_replies h, mem_cons]
  by_cases hi : req = i
  · subst hi
    simp [h]
  · simp [hi, mem_erase_of_ne]

theorem pending_drop (hf : Formed (s, m)) {i : Nat} (h : i ∈ s.requests) (hi : req ≠ i) :
    (s.requestDestroy i).Pending req ↔ s.Pending req := by
  unfold EvAIOPQBase.Pending
  rw [hf.drop_requests h, hf.drop_replies h, mem_erase_of_ne hi]

theorem pending_release (hf : Formed (s, .idle)) {i : Nat} (h : i ∈ s.replies) (hi : req ≠ i) :
    ((s.detach cli i).requestDestroy i).Pending req ↔ s.Pending req := by
  obtain ⟨hd, hmem⟩ := hf.detach_reply h cli
  unfold EvAIOPQBase.Pending
  rw [hd.release_requests hmem, hd.release_replies hmem, mem_erase_of_ne hi,
    requests, replies, detach_reqslot]
  exact Iff.rfl

theorem not_pending_drop (hf : Formed (s, m)) {i : Nat} (h : i ∈ s.requests) :
    ¬(s.requestDestroy i).Pending i := by
  have hnodup : s.requests.Nodup := hf.wf.list_nodup queryListRequest
  rintro (hreq | hrep)
  · rw [hf.drop_requests h] at hreq
    exact hnodup.not_mem_erase hreq
  · rw [hf.drop_replies h] at hrep
    exact absurd (hf.wf.list_unique h hrep) (by decide)

theorem not_pending_release (hf : Formed (s, .idle)) {i : Nat} (h : i ∈ s.replies) :
    ¬((s.detach cli i).requestDestroy i).Pending i := by
  obtain ⟨hd, hmem⟩ := hf.detach_reply h cli
  have hnodup : (s.detach cli i).replies.Nodup := hd.wf.list_nodup queryListReply
  rintro (hreq | hrep)
  · rw [hd.release_requests hmem] at hreq
    exact absurd (hd.wf.list_unique hreq hmem) (by decide)
  · rw [hd.release_replies hmem] at hrep
    exact hnodup.not_mem_erase hrep

theorem pending_accept {reqslot : MemSlotBase EvAIOPQRequest} {i : Nat} {r : EvAIOPQRequest}
    (hgrab : s.reqslot.slotGrab = some (i, reqslot)) :
    (s.accept reqslot i r).Pending req ↔ s.Pending req ∨ req = i := by
  unfold EvAIOPQBase.Pending
  rw [accept_requests hgrab, accept_replies hgrab]
  simp only [mem_append, mem_singleton]
  exact or_right_comm

theorem not_pending_grabbed (hf : Formed (s, m)) {reqslot : MemSlotBase EvAIOPQRequest}
    {i : Nat} (hgrab : s.reqslot.slotGrab = some (i, reqslot)) : ¬s.Pending i := by
  have hslots : s.reqslot.slots = i :: reqslot.slots :=
    (MemSlotBase.slotGrab_eq_some hgrab).1
  have hfree : i ∈ s.reqslot.slots := by simp [hslots]
  rintro (h | h)
  · exact hf.wf.free_unlinked i hfree _ h
  · exact hf.wf.free_unlinked i hfree _ h

theorem same_accept {reqslot : MemSlotBase EvAIOPQRequest} {i : Nat} {r : EvAIOPQRequest}
    (hgrab : s.reqslot.slotGrab = some (i, reqslot)) (hi : req ≠ i) :
    Same req s (s.accept reqslot i r) :=
  same_of_request_eq (accept_request_of_ne hgrab hi)

end Records

/-! ## What a move does to them -/

section Move

variable {s t : EvAIOPQBase} {p q : EvAIOPQBase × Option Nat}

theorem Ask.called (h : Ask s t) : calledSerials t.log = calledSerials s.log := by
  cases h with
  | quiet h => exact h.called
  | @accept m reqslot req hf r hgrab hserial =>
      change calledSerials (s.log ++ [_]) = _
      simp [calledSerials, Obs.calledSerial]
  | cancel req => rfl
  | attach cli hf h =>
      change calledSerials (s.log ++ [_]) = _
      simp [calledSerials, Obs.calledSerial]

theorem Ask.kept (h : Ask s t) {req : Nat} (hreq : s.Pending req) :
    t.Pending req ∧ Same req s t := by
  cases h with
  | quiet h => exact ⟨h.pending.mpr hreq, h.same⟩
  | @accept m reqslot i hf r hgrab hserial =>
      have hne : req ≠ i := by
        rintro rfl
        exact not_pending_grabbed hf hgrab hreq
      exact ⟨(pending_accept hgrab).mpr (.inl hreq), same_accept hgrab hne⟩
  | cancel i => exact ⟨hreq, same_cancel s i⟩
  | @attach m cli i hf h => exact ⟨(pending_attach cli hf h).mpr hreq, same_attach s cli i⟩

theorem asks_called (h : Asks s t) : calledSerials t.log = calledSerials s.log := by
  induction h with
  | refl => rfl
  | tail _ hstep ih => exact hstep.called.trans ih

theorem asks_kept (h : Asks s t) {req : Nat} (hreq : s.Pending req) :
    t.Pending req ∧ Same req s t := by
  induction h with
  | refl => exact ⟨hreq, same_of_request_eq rfl⟩
  | tail _ hstep ih =>
      obtain ⟨hpending, hsame⟩ := hstep.kept ih.1
      exact ⟨hpending, ih.2.trans hsame⟩

theorem Traced.of_pending (hnotify : t.canceledNotify = s.canceledNotify)
    (htotal : t.countTotal = s.countTotal)
    (h : ∀ req, t.Pending req → s.Pending req ∧ Same req s t) : Traced s t :=
  ⟨hnotify, Nat.le_of_eq htotal.symm, 0, fun req hreq => .inl (h req hreq)⟩

theorem Ask.traced (h : Ask s t) : Traced s t := by
  cases h with
  | quiet h =>
      exact .of_pending h.canceledNotify h.countTotal fun req hreq => ⟨h.pending.mp hreq, h.same⟩
  | @accept m reqslot i hf r hgrab hserial =>
      refine ⟨rfl, Nat.le_succ _, i, fun req hreq => ?_⟩
      by_cases hi : req = i
      · subst hi
        refine .inr ⟨rfl, ?_, Nat.lt_succ_self _⟩
        rw [accept_request_self, hserial]
      · have hold := ((pending_accept hgrab).mp hreq).resolve_right hi
        exact .inl ⟨hold, same_accept hgrab hi⟩
  | cancel i => exact .of_pending rfl rfl fun req hreq => ⟨hreq, same_cancel s i⟩
  | @attach m cli i hf h =>
      refine .of_pending rfl rfl fun req hreq => ?_
      exact ⟨(pending_attach cli hf h).mp hreq, same_attach s cli i⟩

theorem detach_rest (s : EvAIOPQBase) (cli i : Nat) :
    (s.detach cli i).canceledNotify = s.canceledNotify ∧
      (s.detach cli i).countTotal = s.countTotal ∧ (s.detach cli i).log = s.log := by
  simp only [detach]
  split
  · exact ⟨rfl, rfl, rfl⟩
  · exact ⟨rfl, rfl, rfl⟩

theorem same_release (s : EvAIOPQBase) (cli i req : Nat) :
    Same req s ((s.detach cli i).requestDestroy i) := by
  have hdetach : Same req s (s.detach cli i) := by
    apply same_of_request_eq
    rw [request, detach_reqslot]
    rfl
  exact hdetach.trans (same_requestDestroy _ i)

theorem Move.traced (h : Move p q) : Traced p.1 q.1 := by
  cases h with
  | ask h => exact h.traced
  | parent s owed i cli => exact .of_pending rfl rfl fun req hreq => ⟨hreq, same_setParent s i cli⟩
  | @call s owed i h hheard =>
      exact .of_pending rfl rfl fun req hreq => ⟨hreq, same_calledBack s i⟩
  | giveUp h hcancelled =>
      exact .of_pending rfl rfl fun req hreq => ⟨hreq, same_of_request_eq rfl⟩
  | @drop s m i hf h =>
      refine .of_pending rfl rfl fun req hreq => ?_
      have hi : req ≠ i := by
        rintro rfl
        exact not_pending_drop hf h hreq
      exact ⟨(pending_drop hf h hi).mp hreq, same_requestDestroy s i⟩
  | @release s cli i hf h =>
      obtain ⟨hnotify, htotal, -⟩ := detach_rest s cli i
      refine .of_pending hnotify htotal fun req hreq => ?_
      have hi : req ≠ i := by
        rintro rfl
        exact not_pending_release hf h hreq
      exact ⟨(pending_release hf h hi).mp hreq, same_release s cli i req⟩

theorem Move.called (h : Move p q) :
    calledSerials q.1.log = calledSerials p.1.log ∨
      ∃ req, p.1.Pending req ∧ (q.1.request req).cbCalled = true ∧
        (p.1.canceledNotify = true ∨ (p.1.request req).cancelled = false) ∧
        calledSerials q.1.log = calledSerials p.1.log ++ [(p.1.request req).serial] := by
  cases h with
  | ask h => exact .inl h.called
  | parent s owed i cli => exact .inl rfl
  | @call s owed i h hheard =>
      refine .inr ⟨i, h, ?_, hheard, ?_⟩
      · change ((s.setRequest i fun r => { r with cbCalled := true }).request i).cbCalled = true
        simp [request_setRequest]
      · change calledSerials (s.log ++ [_]) = _
        simp [calledSerials, Obs.calledSerial]
  | giveUp h hcancelled => exact .inl rfl
  | drop hf h => exact .inl rfl
  | @release s cli i hf h =>
      left
      change calledSerials (s.detach cli i).log = _
      rw [(detach_rest s cli i).2.2]

theorem Move.numbered (h : Move p q) (hp : Numbered p.1) : Numbered q.1 := by
  have htraced := h.traced
  obtain ⟨new, hback⟩ := htraced.back
  have hlt : ∀ req, q.1.Pending req → (q.1.request req).serial < q.1.countTotal := by
    intro req hreq
    rcases hback req hreq with ⟨hold, hsame⟩ | ⟨-, hserial, hmore⟩
    · rw [hsame.serial]
      exact Nat.lt_of_lt_of_le (hp.lt req hold) htraced.total
    · rw [hserial]
      exact hmore
  refine ⟨hlt, fun req req' hreq hreq' heq => ?_, fun n hn => ?_, fun req hreq hn => ?_⟩
  · rcases hback req hreq with ⟨hold, hsame⟩ | ⟨rfl, hserial, -⟩
    · rcases hback req' hreq' with ⟨hold', hsame'⟩ | ⟨rfl, hserial', -⟩
      · rw [hsame.serial, hsame'.serial] at heq
        exact hp.inj req req' hold hold' heq
      · rw [hsame.serial, hserial'] at heq
        exact absurd heq (Nat.ne_of_lt (hp.lt req hold))
    · rcases hback req' hreq' with ⟨hold', hsame'⟩ | ⟨rfl, -, -⟩
      · rw [hserial, hsame'.serial] at heq
        exact absurd heq.symm (Nat.ne_of_lt (hp.lt req' hold'))
      · rfl
  · rcases h.called with hsame | ⟨req, hreq, -, -, hcalled⟩
    · rw [hsame] at hn
      exact Nat.lt_of_lt_of_le (hp.calledLt n hn) htraced.total
    · rw [hcalled, mem_append, mem_singleton] at hn
      rcases hn with hn | rfl
      · exact Nat.lt_of_lt_of_le (hp.calledLt n hn) htraced.total
      · exact Nat.lt_of_lt_of_le (hp.lt req hreq) htraced.total
  · rcases hback req hreq with ⟨hold, hsame⟩ | ⟨-, hserial, -⟩
    · rw [hsame.serial] at hn
      rcases h.called with hcalled | ⟨req', hreq', hflag, -, hcalled⟩
      · rw [hcalled] at hn
        exact hsame.cbCalled (hp.flagged req hold hn)
      · rw [hcalled, mem_append, mem_singleton] at hn
        rcases hn with hn | hn
        · exact hsame.cbCalled (hp.flagged req hold hn)
        · obtain rfl := hp.inj req req' hold hreq' hn
          exact hflag
    · -- the number of a new request is not in the log yet
      rw [hserial] at hn
      rcases h.called with hcalled | ⟨req', hreq', -, -, hcalled⟩
      · rw [hcalled] at hn
        exact absurd (hp.calledLt _ hn) (Nat.lt_irrefl _)
      · rw [hcalled, mem_append, mem_singleton] at hn
        rcases hn with hn | hn
        · exact absurd (hp.calledLt _ hn) (Nat.lt_irrefl _)
        · exact absurd hn (Nat.ne_of_gt (hp.lt req' hreq'))

theorem Move.mute {n : Nat} (h : Move p q) (hp : Mute n p.1) : Mute n q.1 := by
  have htraced := h.traced
  obtain ⟨new, hback⟩ := htraced.back
  refine ⟨htraced.notify.trans hp.off, Nat.lt_of_lt_of_le hp.old htraced.total, ?_,
    fun req hreq hn => ?_⟩
  · rcases h.called with hcalled | ⟨req, hreq, -, hheard, hcalled⟩
    · rw [hcalled]
      exact hp.silent
    · rw [hcalled, mem_append, mem_singleton, not_or]
      refine ⟨hp.silent, fun hn => ?_⟩
      have hcancelled := hp.cancelled req hreq hn.symm
      simp [hp.off, hcancelled] at hheard
  · rcases hback req hreq with ⟨hold, hsame⟩ | ⟨-, hserial, -⟩
    · exact hsame.cancelled (hp.cancelled req hold (hsame.serial ▸ hn))
    · exact absurd (hserial.symm.trans hn) (Nat.ne_of_gt hp.old)

theorem moves_numbered (h : Moves p q) (hp : Numbered p.1) : Numbered q.1 := by
  induction h with
  | refl => exact hp
  | tail _ hstep ih => exact hstep.numbered ih

theorem moves_mute {n : Nat} (h : Moves p q) (hp : Mute n p.1) : Mute n q.1 := by
  induction h with
  | refl => exact hp
  | tail _ hstep ih => exact hstep.mute ih

theorem moves_notify (h : Moves p q) : q.1.canceledNotify = p.1.canceledNotify := by
  induction h with
  | refl => rfl
  | tail _ hstep ih => exact hstep.traced.notify.trans ih

theorem moves_called (h : Moves p q) {n : Nat} (hn : n ∈ calledSerials p.1.log) :
    n ∈ calledSerials q.1.log := by
  induction h with
  | refl => exact hn
  | tail _ hstep ih =>
      rcases hstep.called with hcalled | ⟨_, _, _, _, hcalled⟩
      · rw [hcalled]
        exact ih
      · rw [hcalled]
        exact mem_append_left _ ih

theorem numbered_baseNew (conf : EvAIOPQBaseConf) : Numbered (baseNew conf) := by
  have hnone : ∀ req, ¬(baseNew conf).Pending req := by
    intro req hreq
    rcases hreq with h | h <;>
      simp [requests, replies, baseNew, MemSlotBase.init] at h
  refine ⟨fun req hreq => absurd hreq (hnone req), fun req _ hreq => absurd hreq (hnone req), ?_,
    fun req hreq => absurd hreq (hnone req)⟩
  simp [calledSerials, baseNew]

end Move

/-! ## The call -/

section Call

variable {s t : EvAIOPQBase} {ownerId : Int}

/-- The requests of `ownerId` among `reqs` are flagged, if they were not called
back yet, and nothing else has changed. -/
structure OwnerCancelled (ownerId : Int) (reqs : List Nat) (s t : EvAIOPQBase) : Prop where
  rest : t = { s with reqslot := t.reqslot }
  list : t.reqslot.list = s.reqslot.list
  record : ∀ i, t.request i = s.request i ∨
    (s.request i).ownerId = ownerId ∧ (s.request i).cbCalled = false ∧
      t.request i = { s.request i with cancelled := true }
  flagged : ∀ i ∈ reqs, (s.request i).ownerId = ownerId → (s.request i).cbCalled = false →
    (t.request i).cancelled = true

theorem OwnerCancelled.same {reqs : List Nat} (h : OwnerCancelled ownerId reqs s t) (i : Nat) :
    Same i s t := by
  rcases h.record i with heq | ⟨-, -, heq⟩
  · exact same_of_request_eq heq
  · constructor <;> simp [heq]

theorem OwnerCancelled.spares {reqs : List Nat} (h : OwnerCancelled ownerId reqs s t) {i : Nat}
    (hi : (s.request i).ownerId ≠ ownerId) : t.request i = s.request i :=
  (h.record i).resolve_right fun hc => hi hc.1

theorem OwnerCancelled.pending {reqs : List Nat} (h : OwnerCancelled ownerId reqs s t) {i : Nat} :
    t.Pending i ↔ s.Pending i := by
  unfold EvAIOPQBase.Pending requests replies
  rw [h.list]

theorem OwnerCancelled.append {u : EvAIOPQBase} {reqs reqs' : List Nat}
    (h : OwnerCancelled ownerId reqs s t) (h' : OwnerCancelled ownerId reqs' t u) :
    OwnerCancelled ownerId (reqs ++ reqs') s u := by
  refine ⟨?_, h'.list.trans h.list, fun i => ?_, fun i hi howner hcb => ?_⟩
  · have hu := h'.rest
    rw [h.rest] at hu
    exact hu
  · rcases h.record i with heq | ⟨howner, hcb, heq⟩
    · rcases h'.record i with heq' | ⟨howner', hcb', heq'⟩
      · exact .inl (heq'.trans heq)
      · rw [heq] at howner' hcb' heq'
        exact .inr ⟨howner', hcb', heq'⟩
    · rcases h'.record i with heq' | ⟨-, -, heq'⟩
      · exact .inr ⟨howner, hcb, heq'.trans heq⟩
      · refine .inr ⟨howner, hcb, ?_⟩
        rw [heq', heq]
  · rcases mem_append.mp hi with hi | hi
    · exact (h'.same i).cancelled (h.flagged i hi howner hcb)
    · rcases h.record i with heq | ⟨-, -, heq⟩
      · rw [← heq] at howner hcb
        exact h'.flagged i hi howner hcb
      · refine (h'.same i).cancelled ?_
        rw [heq]

theorem ownerCancelled_nil (s : EvAIOPQBase) : OwnerCancelled ownerId [] s s :=
  ⟨rfl, rfl, fun _ => .inl rfl, fun i hi => by simp at hi⟩

theorem cancelOwner_ends (reqs : List Nat) :
    Ends (cancelOwner ownerId reqs) s (fun _ t => OwnerCancelled ownerId reqs s t)
      fun _ _ => False := by
  induction reqs generalizing s with
  | nil => exact ownerCancelled_nil s
  | cons req reqs ih =>
      simp only [cancelOwner, ends_bind, ends_get]
      rw [ends_ite]
      refine ⟨fun hmatch => ?_, fun hmatch => ?_⟩
      · simp only [ends_bind, ends_modify]
        refine ih.imp fun _ t ht => ?_
        have hone : OwnerCancelled ownerId [req] s
            (s.setRequest req fun r => { r with cancelled := true }) := by
          simp only [Bool.and_eq_true, Bool.not_eq_true', beq_iff_eq] at hmatch
          refine ⟨rfl, rfl, fun i => ?_, fun i hi _ _ => ?_⟩
          · rw [request_setRequest]
            split
            · subst i
              exact .inr ⟨hmatch.2, hmatch.1, rfl⟩
            · exact .inl rfl
          · rw [mem_singleton] at hi
            simp [request_setRequest, hi]
        exact hone.append ht
      · refine ih.imp fun _ t ht => ?_
        refine ⟨ht.rest, ht.list, ht.record, fun i hi howner hcb => ?_⟩
        rcases mem_cons.mp hi with rfl | hi
        · simp [howner, hcb] at hmatch
        · exact ht.flagged i hi howner hcb

theorem queryCancelByOwnerID_ends (ownerId : Int) (s : EvAIOPQBase) :
    Ends (queryCancelByOwnerID ownerId) s
      (fun _ t => OwnerCancelled ownerId (s.requests ++ s.replies) s t) fun _ _ => False := by
  simp only [queryCancelByOwnerID, ends_bind, ends_get]
  refine (cancelOwner_ends s.requests).imp fun _ t ht => ?_
  exact (cancelOwner_ends s.replies).imp fun _ _ hu => ht.append hu

theorem OwnerCancelled.mute {req : Nat}
    (h : OwnerCancelled ownerId (s.requests ++ s.replies) s t) (hs : Numbered s)
    (hoff : s.canceledNotify = false) (hreq : s.Pending req)
    (howner : (s.request req).ownerId = ownerId) (hcb : (s.request req).cbCalled = false) :
    Mute (s.request req).serial t := by
  refine ⟨?_, ?_, fun hn => ?_, fun i hi hn => ?_⟩
  · rw [h.rest]
    exact hoff
  · rw [h.rest]
    exact hs.lt req hreq
  · rw [h.rest] at hn
    exact absurd (hs.flagged req hreq hn) (by simp [hcb])
  · rw [(h.same i).serial] at hn
    obtain rfl := hs.inj i req (h.pending.mp hi) hreq hn
    exact h.flagged i (mem_append.mpr hreq) howner hcb

end Call

/-! ## What becomes of a request that is not cancelled -/

/-- Request `req` with the number `n` is pending and has a callback. -/
structure Waiting (req n : Nat) (s : EvAIOPQBase) : Prop where
  pending : s.Pending req
  serial : (s.request req).serial = n
  hasCb : (s.request req).hasCb = true

instance (req n : Nat) (s : EvAIOPQBase) : Decidable (Waiting req n s) :=
  decidable_of_iff (s.Pending req ∧ (s.request req).serial = n ∧ (s.request req).hasCb = true)
    ⟨fun h => ⟨h.1, h.2.1, h.2.2⟩, fun h => ⟨h.pending, h.serial, h.hasCb⟩⟩

/-- It is not cancelled, and cancelled requests are not called back. -/
structure Spared (req n : Nat) (s : EvAIOPQBase) : Prop extends Waiting req n s where
  heard : (s.request req).cancelled = false
  off : s.canceledNotify = false

/-- Number `n` was called back, or still waits. -/
def Served (req n : Nat) (s : EvAIOPQBase) : Prop := n ∈ calledSerials s.log ∨ Waiting req n s

section Served

variable {env : Nat → Answer} {s t : EvAIOPQBase} {req n : Nat}

theorem Waiting.kept (h : Waiting req n s) (hk : t.Pending req ∧ Same req s t) :
    Waiting req n t :=
  ⟨hk.1, hk.2.serial.trans h.serial, hk.2.hasCb.trans h.hasCb⟩

theorem Waiting.quiet (h : Waiting req n s) (hq : Quiet s t) : Waiting req n t :=
  h.kept ⟨hq.pending.mpr h.pending, hq.same⟩

theorem Spared.kept (h : Spared req n s) (hk : t.Pending req ∧ Same req s t)
    (hcancelled : (t.request req).cancelled = (s.request req).cancelled)
    (hnotify : t.canceledNotify = s.canceledNotify) : Spared req n t :=
  ⟨h.toWaiting.kept hk, hcancelled.trans h.heard, hnotify.trans h.off⟩

theorem Spared.quiet (h : Spared req n s) (hq : Quiet s t) : Spared req n t := by
  refine h.kept ⟨hq.pending.mpr h.pending, hq.same⟩ ?_ hq.canceledNotify
  unfold request
  rw [hq.reqslot]

theorem leave_formed (hf : Formed (s, .idle)) {cli i : Nat}
    (hatt : (s.clients cli).aiopqReq = some i) :
    Ends (leave cli i) s (fun _ t => Formed (t, .idle)) fun _ _ => True := by
  simp only [leave, requestDestroy, ends_bind, ends_get, ends_assertThat, ends_modify]
  exact ⟨fun _ => hf.release hatt, fun _ => trivial⟩

theorem leave_served (hf : Formed (s, .idle)) {cli i : Nat}
    (hatt : (s.clients cli).aiopqReq = some i)
    (h : n ∈ calledSerials s.log ∨ Waiting req n s ∧ req ≠ i) :
    Ends (leave cli i) s (fun _ t => Served req n t) fun _ _ => True := by
  simp only [leave, requestDestroy, ends_bind, ends_get, ends_assertThat, ends_modify]
  refine ⟨fun _ => ?_, fun _ => trivial⟩
  have hmem : i ∈ s.replies := hf.attached cli i (by simp [Mode.idle]) hatt
  rcases h with hn | ⟨hwait, hne⟩
  · left
    change n ∈ calledSerials (s.detach cli i).log
    rw [(detach_rest s cli i).2.2]
    exact hn
  · refine .inr (hwait.kept ⟨?_, same_release s cli i req⟩)
    exact (pending_release hf hmem hne).mpr hwait.pending

theorem Waiting.called {i : Nat} (h : Waiting req n s) (hasks : Asks (s.calledBack i) t) :
    n ∈ calledSerials t.log ∨ Waiting req n t ∧ req ≠ i := by
  by_cases hi : req = i
  · left
    subst hi
    rw [asks_called hasks]
    change n ∈ calledSerials (s.log ++ [.called (s.request req).serial])
    simp [calledSerials, Obs.calledSerial, h.serial]
  · have hmark : Waiting req n (s.calledBack i) := h.kept ⟨h.pending, same_calledBack s i⟩
    exact .inr ⟨hmark.kept (asks_kept hasks hmark.pending), hi⟩

theorem invokeAndLeave_served (hf : Formed (s, .idle)) {cli i : Nat}
    (hatt : (s.clients cli).aiopqReq = some i) (hspared : Spared req n s) :
    Ends (invokeAndLeave env cli i) s (fun _ t => Served req n t) fun _ _ => True := by
  have hother : req ≠ i → Ends (leave cli i) s (fun _ t => Served req n t) fun _ _ => True :=
    fun hne => leave_served hf hatt (.inr ⟨hspared.toWaiting, hne⟩)
  simp only [invokeAndLeave, ends_bind, ends_get]
  rw [ends_ite]
  refine ⟨fun _ => ?_, fun hnone => hother ?_⟩
  · rw [ends_ite]
    refine ⟨fun _ => ?_, fun hdeaf => hother ?_⟩
    · rw [ends_bind]
      refine ((invokeCb_asks hf rfl i).and (invokeCb_sends hf .refl rfl i)).mono
        (fun _ t ht => ?_) fun _ _ _ => trivial
      obtain ⟨hasks, hsends⟩ := ht
      exact leave_served (sends_formed hsends hf) (sends_attached hsends hatt)
        (hspared.toWaiting.called hasks)
    · rintro rfl
      simp [hspared.heard] at hdeaf
  · rintro rfl
    exact hnone hspared.hasCb

theorem bufferDispatch_spared (hf : Formed (s, { ticking := true })) (h : Spared req n s) :
    Ends (bufferDispatch env) s (fun _ t => Spared req n t) fun _ _ => True := by
  simp only [bufferDispatch, ends_bind, ends_get]
  cases hhead : s.reqslot.slotPointToHead queryListRequest with
  | none => exact h
  | some i =>
      simp only [ends_bind]
      refine ((clientGrabFree_quiet true s).and (clientGrabFree_probes .refl true)).mono
        (fun o t ht => ?_) fun _ _ _ => trivial
      obtain ⟨hq, hprobes, -⟩ := ht
      have hformed : Formed (t, { ticking := true }) := hf.frame hprobes.frame
      have hmem : i ∈ t.requests := by
        rw [requests, hq.reqslot]
        exact mem_of_mem_head? hhead
      have hgrabbed : Spared req n t := h.quiet hq
      cases o with
      | none => exact hgrabbed
      | some cli =>
          simp only [ends_bind, ends_get]
          rw [ends_ite]
          refine ⟨fun hcancelled => ?_, fun _ => ?_⟩
          · simp only [ends_bind, ends_modify]
            rw [ends_ite]
            refine ⟨fun hnotify => absurd hnotify (by simp [hgrabbed.off]), fun _ => ?_⟩
            have hne : req ≠ i := by
              rintro rfl
              simp [hgrabbed.heard] at hcancelled
            have hcount : Formed (t.countOut, _) := hformed.frame (Touch.countCancel t).frame
            have hcounted : Spared req n t.countOut :=
              hgrabbed.kept ⟨hgrabbed.pending, same_of_request_eq rfl⟩ rfl rfl
            have hdrop := (pending_drop hcount hmem hne).mpr hcounted.pending
            exact hcounted.kept ⟨hdrop, same_requestDestroy _ i⟩
              (requestDestroy_view (·.cancelled) (fun _ => rfl) req) rfl
          · rw [ends_bind]
            refine (assertSelected_same cli t).mono (fun _ u hu => ?_) fun _ _ _ => trivial
            subst hu
            simp only [ends_bind, ends_modify, ends_ask]
            have hparent : Spared req n (t.setParent i cli) :=
              hgrabbed.kept ⟨hgrabbed.pending, same_setParent t i cli⟩
                (setRequest_view (·.cancelled) (fun r => { r with parentCli := some cli })
                  (fun _ => rfl) req) rfl
            have hasked := hparent.quiet (quiet_clock _)
            have hready := (hformed.setParent i cli).frame (Touch.ask _).frame
            rw [ends_ite]
            refine ⟨fun _ => hasked, fun _ => ?_⟩
            have hpending := (pending_attach cli hready hmem).mpr hasked.pending
            have hsent := hasked.kept ⟨hpending, same_attach _ cli i⟩
              (attach_view (·.cancelled) (fun _ => rfl) req) rfl
            simp only [attach, ends_bind, ends_modify]
            rw [ends_ite]
            exact ⟨fun _ => hsent.quiet (quiet_setClient _ cli _), fun _ => hsent⟩

theorem dispatchLoop_spared (hf : Formed (s, { ticking := true })) (h : Spared req n s)
    (fuel : Nat) :
    Ends (dispatchLoop env fuel) s (fun _ t => Spared req n t) fun _ _ => True := by
  induction fuel generalizing s with
  | zero => trivial
  | succ fuel ih =>
      rw [dispatchLoop, ends_bind]
      refine ((bufferDispatch_spared hf h).and (bufferDispatch_path hf .refl)).mono
        (fun _ t ht => ?_) fun _ _ _ => trivial
      obtain ⟨hspared, hpath⟩ := ht
      rw [ends_ite]
      refine ⟨fun _ => hspared, fun _ => ?_⟩
      rw [ends_bind]
      exact (ih (path_formed hpath hf) hspared).mono (fun _ _ hu => hu) fun _ _ _ => trivial

theorem bufferedRequestTimerTick_served (hf : Formed (s, .idle)) (h : Spared req n s)
    (fuel : Nat) :
    Ends (bufferedRequestTimerTick env fuel) s (fun _ t => Served req n t)
      fun _ _ => True := by
  simp only [bufferedRequestTimerTick, ends_bind, ends_modify, ends_get]
  have hstart : Spared req n { s with timerId := -1 } :=
    h.quiet ⟨rfl, rfl, rfl, rfl, rfl, rfl, rfl, rfl⟩
  rw [ends_ite]
  refine ⟨fun _ => .inr ?_, fun _ => ?_⟩
  · exact hstart.toWaiting.quiet ⟨rfl, rfl, rfl, rfl, rfl, rfl, rfl, rfl⟩
  · rw [ends_bind]
    refine (dispatchLoop_spared ((Act.tickStart s).formed hf) hstart fuel).mono
      (fun count t ht => ?_) fun _ _ _ => trivial
    simp only [ends_bind, ends_modify]
    have hdone := ht.quiet (quiet_countFail t (if count == 0 then t.countFail + 1 else 0))
    exact (armTimer_quiet _).mono (fun _ _ hu => .inr (hdone.toWaiting.quiet hu))
      fun _ _ _ => trivial

theorem Along.served {α : Type} {x : M α} (hx : Along Quiet x) (h : Spared req n s) :
    Ends x s (fun _ t => Served req n t) fun _ _ => True :=
  (hx s).mono (fun _ _ hq => .inr (h.toWaiting.quiet hq)) fun _ _ _ => trivial

/-- **One event** calls a waiting request back or leaves it waiting. -/
theorem handle_served (hf : Formed (s, .idle)) (h : Spared req n s) (e : Event) :
    Ends (handle env e) s (fun _ t => Served req n t) fun _ _ => True := by
  have onClient_served : ∀ (cli : Nat) (x : M Unit),
      Ends x s (fun _ t => Served req n t) (fun _ _ => True) →
      Ends (onClient cli x) s (fun _ t => Served req n t) fun _ _ => True := by
    intro cli x hx
    simp only [onClient, ends_bind, ends_get]
    rw [ends_ite]
    exact ⟨fun _ => hx, fun _ => .inr h.toWaiting⟩
  cases e with
  | user u =>
      refine (userCall_asks hf rfl u).mono (fun _ t ht => .inr ?_) fun _ _ _ => trivial
      exact h.toWaiting.kept (asks_kept ht h.pending)
  | dispatchTick fuel =>
      simp only [handle, ends_bind, ends_get]
      rw [ends_ite]
      exact ⟨fun _ => bufferedRequestTimerTick_served hf h fuel, fun _ => .inr h.toWaiting⟩
  | healthTick => exact Along.served (along_get_bind fun _ => healthFrom_quiet 0 _) h
  | decreaseTick =>
      simp only [handle, ends_bind, ends_get]
      rw [ends_ite]
      exact ⟨fun _ => Along.served checkDecreasePQCliTimer_quiet h, fun _ => .inr h.toWaiting⟩
  | readReady cli =>
      refine onClient_served cli _ ?_
      simp only [clientEventRead, ends_bind, ends_get]
      cases hatt : (s.clients cli).aiopqReq with
      | none => exact .inr h.toWaiting
      | some i =>
          simp only [ends_bind, ends_ask]
          have hasked := h.quiet (quiet_clock s)
          rw [ends_ite]
          refine ⟨fun _ => .inr hasked.toWaiting, fun _ => ?_⟩
          exact invokeAndLeave_served (hf.frame (Touch.ask s).frame) hatt hasked
  | writeReady cli fd canWriteSz =>
      exact onClient_served cli _ (Along.served (clientEventWrite_quiet cli fd canWriteSz) h)
  | eof cli fd =>
      exact onClient_served cli _ (Along.served (clientEventClose_quiet cli fd) h)

/-- What the runs keep of a request that is served. -/
def Serving (req n : Nat) (s : EvAIOPQBase) : Prop :=
  Formed (s, .idle) ∧ s.canceledNotify = false ∧ Served req n s

/-- The request was found cancelled between two events. -/
def FoundCancelled (env : Nat → Answer) (req n : Nat) (c : Config) (evs : List Event) : Prop :=
  ∃ evs₁, evs₁ <+: evs ∧ Waiting req n (Runs.run (handle env) c evs₁).state ∧
    ((Runs.run (handle env) c evs₁).state.request req).cancelled = true

theorem run_served {c : Config} (hc : Runs.Holds (Serving req n) (fun _ _ => True) c)
    (evs : List Event) :
    FoundCancelled env req n c evs ∨
      Runs.Holds (Serving req n) (fun _ _ => True) (Runs.run (handle env) c evs) := by
  induction evs generalizing c with
  | nil => exact .inr hc
  | cons e evs ih =>
      by_cases hfound : Waiting req n c.state ∧ (c.state.request req).cancelled = true
      · exact .inl ⟨[], nil_prefix, hfound⟩
      have hstep : Runs.Holds (Serving req n) (fun _ _ => True)
          (Runs.step (handle env) c e) := by
        refine Runs.holds_step hc e fun _ hserving => ?_
        obtain ⟨hf, hoff, hserved⟩ := hserving
        have hmoves := (@handle_moves env _ hf e).and (handle_path hf e .refl)
        rcases hserved with hn | hwait
        · refine hmoves.mono (fun _ t ht => ?_) fun _ _ _ => trivial
          exact ⟨path_formed ht.2 hf, (moves_notify ht.1).trans hoff, .inl (moves_called ht.1 hn)⟩
        · have hheard : (c.state.request req).cancelled = false := by
            simpa using fun hcancelled => hfound ⟨hwait, hcancelled⟩
          refine (hmoves.and (handle_served hf ⟨hwait, hheard, hoff⟩ e)).mono
            (fun _ t ht => ?_) fun _ _ _ => trivial
          exact ⟨path_formed ht.1.2 hf, (moves_notify ht.1.1).trans hoff, ht.2⟩
      rcases ih hstep with ⟨evs₁, hprefix, hcancelled⟩ | hserved
      · exact .inl ⟨e :: evs₁, cons_prefix_cons.mpr ⟨rfl, hprefix⟩, hcancelled⟩
      · exact .inr hserved

end Served

/-! ## The moment of a user call -/

/-- `EvAIOPQClientEventRead` has entered the callback of `req`. -/
def EvAIOPQBase.inCallback (s : EvAIOPQBase) (req : Nat) : EvAIOPQBase :=
  let s := { s with clock := s.clock + 1 }.calledBack req
  { s with clock := s.clock + 1 }

/-- In `s₀` the reply of `req` is read from `cli`, and in its callback the user
makes the call `u` when the pool is in the state `s`, after the calls `us` and
before the calls `us'`. -/
structure CallMade (env : Nat → Answer) (u : UserCall) (s₀ s : EvAIOPQBase) (cli req : Nat)
    (us us' : List UserCall) : Prop where
  cli_lt : cli < s₀.cliCountCur
  attached : (s₀.clients cli).aiopqReq = some req
  reply : ((env s₀.clock).consumeInput && (env s₀.clock).isBusy) = false
  hasCb : (s₀.request req).hasCb = true
  heard : (s₀.request req).cancelled = false
  calls : (env (s₀.clock + 1)).callback = us ++ u :: us'
  done : exec (userCalls env us) (s₀.inCallback req) = (s, none)

/-- In some run the user makes the call `u` when the pool is in the state `s`, and
`c` is the configuration after the event in which he makes it. The call is an
event of its own, or it is made in the callback of a reply; while
`canceled_notify` is off there are no other callbacks. -/
inductive Moment (env : Nat → Answer) (conf : EvAIOPQBaseConf) (u : UserCall) :
    EvAIOPQBase → Config → Prop
  | event {evs s} (hlive : runFrom env conf evs = .live s) :
      Moment env conf u s (runFrom env conf (evs ++ [.user u]))
  | callback {evs cli req us us' s₀ s} (hlive : runFrom env conf evs = .live s₀)
      (hmade : CallMade env u s₀ s cli req us us') :
      Moment env conf u s (runFrom env conf (evs ++ [.readReady cli]))

/-- The state in which `EvAIOPQQueryCancelByOwnerID` returns. -/
def EvAIOPQBase.cancelledBy (s : EvAIOPQBase) (ownerId : Int) : EvAIOPQBase :=
  (exec (queryCancelByOwnerID ownerId) s).1

section Moment

variable {env : Nat → Answer} {conf : EvAIOPQBaseConf} {s : EvAIOPQBase} {c : Config}
  {ownerId : Int}

theorem ends_userCalls_append {us us' : List UserCall} {Q : PUnit → EvAIOPQBase → Prop}
    {E : Fault → EvAIOPQBase → Prop} :
    Ends (userCalls env (us ++ us')) s Q E ↔
      Ends (userCalls env us) s (fun _ t => Ends (userCalls env us') t Q E) E := by
  induction us generalizing s with
  | nil => exact Iff.rfl
  | cons u us ih => simp [userCalls, ends_bind, ih]

theorem cancelledBy_spec {m : Mode} (s : EvAIOPQBase) (ownerId : Int) :
    OwnerCancelled ownerId (s.requests ++ s.replies) s (s.cancelledBy ownerId) ∧
      Sends (s, m) (s.cancelledBy ownerId, m) := by
  have h := (queryCancelByOwnerID_ends ownerId s).and
    (queryCancelByOwnerID_sends (.refl (a := (s, m))) ownerId)
  rcases exec_of_ends h with ⟨_, _, hcancelled, hsends⟩ | ⟨_, _, hfalse, -⟩
  · exact ⟨hcancelled, hsends⟩
  · exact hfalse.elim

theorem ends_cancelledBy {Q : PUnit → EvAIOPQBase → Prop} {E : Fault → EvAIOPQBase → Prop} :
    Ends (userCall env (.cancelByOwnerID ownerId)) s Q E ↔
      Q PUnit.unit (s.cancelledBy ownerId) := by
  have h := queryCancelByOwnerID_ends ownerId s
  unfold cancelledBy
  rw [userCall, ends_bind]
  unfold Ends at h ⊢
  unfold exec
  cases hx : queryCancelByOwnerID ownerId s with
  | ok n t => exact Iff.rfl
  | error f t => simp [hx] at h

theorem Formed.inCallback (hf : Formed (s, .idle)) (req : Nat) :
    Formed (s.inCallback req, .idle) :=
  ((hf.frame (Touch.ask s).frame).calledBack req).frame (Touch.ask _).frame

theorem waiting_cancelledBy {req n : Nat} (h : Waiting req n s) :
    Waiting req n (s.cancelledBy ownerId) := by
  obtain ⟨hcancelled, -⟩ := cancelledBy_spec (m := .idle) s ownerId
  exact h.kept ⟨hcancelled.pending.mpr h.pending, hcancelled.same req⟩

theorem notify_cancelledBy :
    (s.cancelledBy ownerId).canceledNotify = s.canceledNotify := by
  obtain ⟨hcancelled, -⟩ := cancelledBy_spec (m := .idle) s ownerId
  rw [hcancelled.rest]

theorem runFrom_live {evs : List Event} (hlive : runFrom env conf evs = .live s) :
    Formed (s, .idle) ∧ Moves (baseNew conf, none) (s, none) := by
  have hreached := runFrom_reached env conf evs
  rw [hlive] at hreached
  exact hreached

theorem runFrom_snoc {evs : List Event} (hlive : runFrom env conf evs = .live s) (e : Event) :
    runFrom env conf (evs ++ [e]) = Runs.step (handle env) (.live s) e := by
  unfold runFrom at hlive ⊢
  rw [Runs.run_append, hlive]
  rfl

section CallMade

variable {u : UserCall} {s₀ : EvAIOPQBase} {cli req : Nat} {us us' : List UserCall}

theorem CallMade.ends {Q : PUnit → EvAIOPQBase → Prop} {E : Fault → EvAIOPQBase → Prop}
    (h : CallMade env u s₀ s cli req us us')
    (hrest : Ends (userCall env u) s (fun _ t => Ends (userCalls env us') t
      (fun _ v => Ends (leave cli req) v Q E) E) E) :
    Ends (handle env (.readReady cli)) s₀ Q E := by
  simp only [handle, onClient, clientEventRead, ends_bind, ends_get]
  rw [ends_ite]
  refine ⟨fun _ => ?_, fun hout => absurd h.cli_lt hout⟩
  simp only [h.attached, ends_bind, ends_get, ends_ask]
  rw [ends_ite]
  refine ⟨fun hmore => absurd hmore (by simp [h.reply]), fun _ => ?_⟩
  simp only [invokeAndLeave, ends_bind, ends_get]
  rw [ends_ite]
  refine ⟨fun _ => ?_, fun hnone => absurd h.hasCb hnone⟩
  rw [ends_ite]
  refine ⟨fun _ => ?_, fun hdeaf => ?_⟩
  · simp only [invokeCb, ends_bind, ends_get, ends_assertThat, ends_modify, ends_ask]
    refine ⟨fun _ => ?_, fun hnone => absurd (h.hasCb.symm.trans hnone) (by simp)⟩
    change Ends (userCalls env (env (s₀.clock + 1)).callback) (s₀.inCallback req) _ _
    rw [h.calls, ends_userCalls_append, ends_of_exec h.done, userCalls, ends_bind]
    simp only [leave, ends_bind, ends_get, ends_assertThat, ends_modify] at hrest
    exact hrest
  · change ¬(s₀.canceledNotify || !(s₀.request req).cancelled) = true at hdeaf
    simp [h.heard] at hdeaf

theorem CallMade.before (h : CallMade env u s₀ s cli req us us') (hf : Formed (s₀, .idle)) :
    Asks (s₀.calledBack req) s ∧ Sends (s₀.inCallback req, .idle) (s, .idle) := by
  have hin := hf.inCallback req
  have hends := (@userCalls_asks env _ _ hin rfl us).and (userCalls_sends hin .refl rfl us)
  rcases exec_of_ends hends with ⟨_, _, hasks, hsends⟩ | ⟨_, hsome, _⟩
  · rw [h.done] at hasks hsends
    have hquiet : Quiet (s₀.calledBack req) (s₀.inCallback req) :=
      ⟨rfl, rfl, rfl, rfl, rfl, rfl, rfl, rfl⟩
    exact ⟨(ReflTransGen.single (.quiet hquiet)).trans hasks, hsends⟩
  · rw [h.done] at hsome
    simp at hsome

theorem CallMade.pending (h : CallMade env u s₀ s cli req us us') (hf : Formed (s₀, .idle)) :
    s₀.Pending req :=
  .inr (hf.attached cli req (by simp [Mode.idle]) h.attached)

theorem CallMade.moves (h : CallMade env u s₀ s cli req us us') (hf : Formed (s₀, .idle)) :
    Moves (s₀, none) (s, none) :=
  (ReflTransGen.single (.call (h.pending hf) (.inr h.heard))).trans
    (moves_asks (h.before hf).1)

theorem CallMade.called (h : CallMade env u s₀ s cli req us us') (hf : Formed (s₀, .idle)) :
    (s.request req).serial ∈ calledSerials s.log := by
  obtain ⟨hasks, -⟩ := h.before hf
  have hsame := (asks_kept hasks (h.pending hf)).2
  rw [asks_called hasks, hsame.serial, (same_calledBack s₀ req).serial]
  change (s₀.request req).serial ∈ calledSerials (s₀.log ++ [.called (s₀.request req).serial])
  simp [calledSerials, Obs.calledSerial]

/-- A cancellation in a callback is followed by the other calls of the callback
and by the release of its request. -/
theorem CallMade.cancelled {Q : EvAIOPQBase → Prop} {E : Fault → EvAIOPQBase → Prop}
    (h : CallMade env (.cancelByOwnerID ownerId) s₀ s cli req us us') (hf : Formed (s₀, .idle))
    (hE : ∀ f t, Asks (s.cancelledBy ownerId) t → E f t)
    (hQ : ∀ t, Asks (s.cancelledBy ownerId) t → Formed (t, .idle) →
      (t.clients cli).aiopqReq = some req → Ends (leave cli req) t (fun _ => Q) E) :
    Ends (handle env (.readReady cli)) s₀ (fun _ => Q) E := by
  obtain ⟨-, hin⟩ := h.before hf
  obtain ⟨-, hsends⟩ := cancelledBy_spec (m := .idle) s ownerId
  have hsent := hin.trans hsends
  have hf' : Formed (s.cancelledBy ownerId, .idle) := sends_formed hsent (hf.inCallback req)
  have hatt : ((s.cancelledBy ownerId).clients cli).aiopqReq = some req :=
    sends_attached hsent h.attached
  refine h.ends (ends_cancelledBy.mpr ?_)
  refine ((userCalls_asks hf' rfl us').and (userCalls_sends hf' .refl rfl us')).mono
    (fun _ t ht => ?_) fun f t he => hE f t he.1
  exact hQ t ht.1 (sends_formed ht.2 hf') (sends_attached ht.2 hatt)

end CallMade

/-- The call is made in a state of a run, and what comes after it is reached from
the state in which it returns. -/
theorem Moment.cancelled (hoff : conf.canceledNotify = false)
    (h : Moment env conf (.cancelByOwnerID ownerId) s c) :
    Numbered s ∧ s.canceledNotify = false ∧ Reached (s.cancelledBy ownerId) c ∧
      ∀ req n, Waiting req n s → Runs.Holds (Serving req n) (fun _ _ => True) c := by
  obtain ⟨hcancelled, hsends⟩ := cancelledBy_spec (m := .idle) s ownerId
  have hoff_of : ∀ {t : EvAIOPQBase}, Moves (baseNew conf, none) (t, none) →
      t.canceledNotify = false := fun hmoves => (moves_notify hmoves).trans hoff
  cases h with
  | event hlive =>
      obtain ⟨hf, hmoves⟩ := runFrom_live hlive
      have hf' : Formed (s.cancelledBy ownerId, .idle) := sends_formed hsends hf
      have hends : Ends (handle env (.user (.cancelByOwnerID ownerId))) s
          (fun _ t => t = s.cancelledBy ownerId) fun _ _ => False := by
        change Ends (userCall env (.cancelByOwnerID ownerId)) s _ _
        exact ends_cancelledBy.mpr rfl
      rw [runFrom_snoc hlive, Runs.step_live hends]
      refine ⟨moves_numbered hmoves (numbered_baseNew conf), hoff_of hmoves, ⟨hf', .refl⟩,
        fun req n hwait => ⟨hf', ?_, .inr (waiting_cancelledBy hwait)⟩⟩
      exact notify_cancelledBy.trans (hoff_of hmoves)
  | @callback evs cli i us us' s₀ _ hlive hmade =>
      obtain ⟨hf, hmoves⟩ := runFrom_live hlive
      have hcall := hmoves.trans (hmade.moves hf)
      have hoff' : (s.cancelledBy ownerId).canceledNotify = false :=
        notify_cancelledBy.trans (hoff_of hcall)
      have hlast : ∀ {I : EvAIOPQBase → Prop} {A : Fault → EvAIOPQBase → Prop},
          Ends (handle env (.readReady cli)) s₀ (fun _ => I) A →
          Runs.Holds I A (Runs.step (handle env) (.live s₀) (.readReady cli)) := by
        intro I A hends
        have hat : Runs.Holds (· = s₀) A (.live s₀) := rfl
        refine Runs.holds_step_of hat _ fun _ _ => ?_
        exact hends
      rw [runFrom_snoc hlive]
      refine ⟨moves_numbered hcall (numbered_baseNew conf), hoff_of hcall, ?_,
        fun req n hwait => ?_⟩
      · apply hlast
        refine hmade.cancelled hf (fun f t ht => ⟨none, moves_asks ht⟩) fun t ht hft hatt => ?_
        refine ((leave_moves hft hatt).and (leave_formed hft hatt)).mono (fun _ v hv => ?_)
          fun _ _ hb => broken_of_moves (moves_asks ht) hb.1
        exact ⟨hv.2, (moves_asks ht).trans hv.1⟩
      · apply hlast
        refine hmade.cancelled hf (fun _ _ _ => trivial) fun t ht hft hatt => ?_
        have hserved : n ∈ calledSerials t.log ∨ Waiting req n t ∧ req ≠ i := by
          by_cases hi : req = i
          · left
            subst hi
            rw [asks_called ht, hcancelled.rest, ← hwait.serial]
            exact hmade.called hf
          · have hwait' : Waiting req n (s.cancelledBy ownerId) := waiting_cancelledBy hwait
            exact .inr ⟨hwait'.kept (asks_kept ht hwait'.pending), hi⟩
        refine (((leave_moves hft hatt).and (leave_formed hft hatt)).and
          (leave_served hft hatt hserved)).mono (fun _ v hv => ?_) fun _ _ _ => trivial
        refine ⟨hv.1.2, ?_, hv.2⟩
        exact (moves_notify ((moves_asks ht).trans hv.1.1)).trans hoff'

end Moment

/-! ## Cancellation by owner -/

/-- The callbacks of the pending requests of other owners are invoked in a run
with the cancellation if and only if they are in the run without it. -/
def OthersUnaffected (env : Nat → Answer) (conf : EvAIOPQBaseConf) (evs : List Event)
    (ownerId : Int) (evs' : List Event) : Prop :=
  ∀ req, (runFrom env conf evs).state.Pending req →
    ((runFrom env conf evs).state.request req).ownerId ≠ ownerId →
    (((runFrom env conf evs).state.request req).serial ∈ calledSerials
        (runFrom env conf (evs ++ .user (.cancelByOwnerID ownerId) :: evs')).state.log ↔
      ((runFrom env conf evs).state.request req).serial ∈ calledSerials
        (runFrom env conf (evs ++ evs')).state.log)

/-- Two queries of owner 1 and one of owner 2, which is the last to be sent. -/
def threeQueries : List Event :=
  [.user (.sendReq (some "SELECT 1") true 1), .user (.sendReq (some "SELECT 2") true 1),
    .user (.sendReq (some "SELECT 3") true 2)]

/-- Two replies, and the dispatch timer between them. -/
def twoReplies : List Event := [.readReady 0, .dispatchTick 3, .readReady 0]

/-- The second query of owner 1 is not sent any more, so that the second reply is
the one that owner 2 waits for. -/
theorem cancellation_lets_others_pass :
    ¬OthersUnaffected (fun _ => {}) {} threeQueries 1 twoReplies := by
  intro h
  have hwith : (2 : Nat) ∈ calledSerials (runFrom (fun _ => {}) {}
      (threeQueries ++ .user (.cancelByOwnerID 1) :: twoReplies)).state.log := by
    decide +kernel
  have hwithout : (2 : Nat) ∉ calledSerials (runFrom (fun _ => {}) {}
      (threeQueries ++ twoReplies)).state.log := by
    decide +kernel
  exact hwithout ((h 2 (by decide) (by decide)).mp hwith)

/-- **Cancellation by owner**, while `canceled_notify` is off. After the call
returns no later event invokes the callback of a request of that owner that was
pending and had not been called back. The requests of other owners are left as
they are, and each that has a callback is called back or stays pending, unless
it is found cancelled itself. -/
theorem cancelled_owner_is_silent (env : Nat → Answer) (conf : EvAIOPQBaseConf)
    (hoff : conf.canceledNotify = false) (ownerId : Int) {s : EvAIOPQBase} {c : Config}
    (h : Moment env conf (.cancelByOwnerID ownerId) s c) (evs : List Event) :
    (∀ req, s.Pending req → (s.request req).ownerId = ownerId →
      (s.request req).cbCalled = false →
      (s.request req).serial ∉ calledSerials (Runs.run (handle env) c evs).state.log) ∧
    (s.cancelledBy ownerId).reqslot.list = s.reqslot.list ∧
    (∀ req, (s.request req).ownerId ≠ ownerId →
      (s.cancelledBy ownerId).request req = s.request req) ∧
    ∀ req, s.Pending req → (s.request req).ownerId ≠ ownerId → (s.request req).hasCb = true →
      FoundCancelled env req (s.request req).serial c evs ∨
        Runs.Holds (Served req (s.request req).serial) (fun _ _ => True)
          (Runs.run (handle env) c evs) := by
  obtain ⟨hnumbered, hoffs, hreached, hserving⟩ := h.cancelled hoff
  obtain ⟨hcancelled, -⟩ := cancelledBy_spec (m := .idle) s ownerId
  refine ⟨fun req hreq howner hcb => ?_, hcancelled.list, fun req hne => hcancelled.spares hne,
    fun req hreq _ hhas => ?_⟩
  · have hmute := hcancelled.mute hnumbered hoffs hreq howner hcb
    have hsilent : Runs.Holds (Mute (s.request req).serial)
        (fun _ => Mute (s.request req).serial) (Runs.run (handle env) c evs) := by
      refine (hreached.run evs).mono (fun t ht => moves_mute ht.2 hmute) fun _ t ht => ?_
      obtain ⟨owed, hmoves⟩ := ht
      exact moves_mute hmoves hmute
    exact hsilent.always.silent
  · rcases run_served (hserving req _ ⟨hreq, rfl, hhas⟩) evs with hfound | hserved
    · exact .inl hfound
    · exact .inr (hserved.mono (fun _ ht => ht.2.2) fun _ _ _ => trivial)

/-- Owner 1 takes his two queries back before the first reply. -/
theorem cancelled_owner_is_silent_three_queries :
    let s := (runFrom (fun _ => {}) {} threeQueries).state
    ∀ req, s.Pending req → (s.request req).ownerId = 1 → (s.request req).cbCalled = false →
      (s.request req).serial ∉ calledSerials (Runs.run (handle fun _ => {})
        (runFrom (fun _ => {}) {} (threeQueries ++ [.user (.cancelByOwnerID 1)]))
        twoReplies).state.log := by
  have hlive : runFrom (fun _ => {}) {} threeQueries =
      .live (runFrom (fun _ => {}) {} threeQueries).state := by
    have hnone : (runFrom (fun _ => {}) {} threeQueries).fault = none := by decide
    rw [Runs.Config.live, ← hnone]
  exact (cancelled_owner_is_silent _ _ rfl 1 (.event hlive) twoReplies).1

end EvAIOPQ
