import BrbFramework.ThreadAio.Base

/-!
# What is pending

`pending` of an opcode is computed from its two counters when a request is completed. The
counters balance with the requests in flight as long as every accepted submission counts
for its own opcode.
-/

namespace ThreadAIO

open Handler BrbData List Function

/-- No request to truncate is accepted: there is no slot for it, or no job. -/
def NoTruncate (s : ThreadAIOBase) : Event → Prop
  | .submit api _ _ jobId =>
      api.submission.opcode = .opTruncate → jobId < 0 ∨ s.reqQueue.memslot.slots = []
  | _ => True

instance (s : ThreadAIOBase) : ∀ e, Decidable (NoTruncate s e)
  | .submit api _ _ jobId =>
      inferInstanceAs (Decidable (api.submission.opcode = .opTruncate →
        jobId < 0 ∨ s.reqQueue.memslot.slots = []))
  | .submitAndDestroy .. | .work .. | .finish .. | .release .. | .cancel .. => isTrue trivial

/-! ## The slots of the requests -/

/-- The requests `held` have slots of their own, out of `n`. -/
structure Slots (q : EvAIOReqQueue) (n : Nat) (held : List Nat) : Prop where
  wf : q.memslot.WF
  slotted : q.queueSlotted = true
  nodup : held.Nodup
  held : ∀ r ∈ held, r ∈ q.memslot.list 0
  bound : ∀ r, r ∈ q.memslot.list 0 ∨ r ∈ q.memslot.slots → r < n

variable {q t : EvAIOReqQueue} {n r : Nat} {held : List Nat} {s : ThreadAIOBase}

namespace Slots

theorem congr (h : Slots q n held) (hmem : t.memslot = q.memslot)
    (hslotted : t.queueSlotted = q.queueSlotted) : Slots t n held := by
  refine ⟨?_, hslotted.trans h.slotted, h.nodup, ?_, ?_⟩
  · rw [hmem]
    exact h.wf
  · rw [hmem]
    exact h.held
  · rw [hmem]
    exact h.bound

theorem perm (h : Slots q n held) {held' : List Nat} (hperm : held'.Perm held) :
    Slots q n held' :=
  { h with
    nodup := hperm.nodup_iff.mpr h.nodup
    held := fun r hr => h.held r (hperm.mem_iff.mp hr) }

theorem setReq (h : Slots q n held) (r : Nat) (f : EvAIOReq → EvAIOReq) :
    Slots (q.setReq r f) n held :=
  { h with wf := h.wf.modifyData r f }

theorem length_le (h : Slots q n held) : held.length ≤ n := by
  have hsub : held ⊆ List.range n := fun r hr =>
    mem_range.mpr (h.bound r (.inl (h.held r hr)))
  have hle := h.nodup.length_le_of_subset hsub
  rwa [length_range] at hle

theorem tail (h : Slots q n (r :: held)) : Slots q n held :=
  { h with
    nodup := (nodup_cons.mp h.nodup).2
    held := fun i hi => h.held i (mem_cons_of_mem _ hi) }

theorem grab (h : Slots q n held) {memslot : MemSlotBase EvAIOReq}
    (hgrab : q.memslot.slotGrab = some (r, memslot)) :
    Slots { q with memslot := memslot } n (r :: held) := by
  refine ⟨h.wf.slotGrab hgrab, h.slotted, nodup_cons.mpr ⟨fun hr => ?_, h.nodup⟩, ?_, ?_⟩
  · exact h.wf.slotGrab_fresh hgrab 0 (h.held r hr)
  · intro i hi
    rw [MemSlotBase.mem_slotGrab hgrab]
    rcases mem_cons.mp hi with rfl | hi
    · exact .inl ⟨rfl, rfl⟩
    · exact .inr (h.held i hi)
  · intro i hi
    obtain ⟨hslots, -, -⟩ := MemSlotBase.slotGrab_eq_some hgrab
    refine h.bound i ?_
    rw [hslots]
    rcases hi with hi | hi
    · rcases (MemSlotBase.mem_slotGrab hgrab).mp hi with ⟨rfl, -⟩ | hi
      · exact .inr mem_cons_self
      · exact .inl hi
    · exact .inr (mem_cons_of_mem _ hi)

theorem free (h : Slots q n (r :: held)) :
    Slots { q with memslot := q.memslot.slotFree r } n held := by
  have hr := h.held r mem_cons_self
  obtain ⟨hout, hnodup⟩ := nodup_cons.mp h.nodup
  refine ⟨h.wf.slotFree hr, h.slotted, hnodup, fun i hi => ?_, fun i hi => h.bound i ?_⟩
  · rw [h.wf.mem_slotFree hr]
    exact ⟨ne_of_mem_of_not_mem hi hout, h.held i (mem_cons_of_mem _ hi)⟩
  · rw [h.wf.mem_slotFree hr, h.wf.slotFree_slots hr] at hi
    rcases hi with hi | hi
    · exact .inl hi.2
    · rcases mem_cons.mp hi with rfl | hi
      · exact .inl hr
      · exact .inr hi

end Slots

theorem req_setReq_of_ne {i : Nat} (f : EvAIOReq → EvAIOReq) (h : i ≠ r) :
    (q.setReq r f).req i = q.req i :=
  MemSlotBase.slotData_modifyData_of_ne _ _ _ h

theorem req_setReq_self (f : EvAIOReq → EvAIOReq) : (q.setReq r f).req r = f (q.req r) :=
  MemSlotBase.slotData_modifyData_self _ _ _

theorem reqNew_slots (h : Slots q n held) (fresh : Nat) (fd : Int) (data : Option DataPtr)
    (dataSz offset : Int) (destroyFunc finishCb : Option Nat) (finishCbdata : Nat) :
    Ends (reqNew fresh fd data dataSz offset destroyFunc finishCb finishCbdata) q
      (fun o t => match o with
        | none => t = q
        | some r => q.memslot.slots ≠ [] ∧ Slots t n (r :: held) ∧
            ∀ i, i ≠ r → t.req i = q.req i) fun _ _ => True := by
  unfold reqNew grab
  rw [ends_bind, ends_modifyGet, if_pos h.slotted]
  cases hgrab : q.memslot.slotGrab with
  | none => exact rfl
  | some x =>
      obtain ⟨r, memslot⟩ := x
      simp only [ends_bind, ends_get, ends_assertThat, ends_modify, ends_pure, implies_true,
        and_true]
      intro _
      refine ⟨?_, ?_, fun i hi => ?_⟩
      · rw [(MemSlotBase.slotGrab_eq_some hgrab).1]
        exact cons_ne_nil _ _
      · have hslots : Slots { q with
            memslot := memslot, nodes := update q.nodes r .null } n (r :: held) :=
          (h.grab hgrab).congr rfl rfl
        exact hslots.setReq r _
      · rw [req_setReq_of_ne _ hi]
        exact MemSlotBase.slotGrab_data hgrab i

theorem enqueue_memslot (r : Nat) :
    Ends (enqueue r) q (fun _ t => t.memslot = q.memslot ∧ t.queueSlotted = q.queueSlotted)
      fun _ _ => True := by
  unfold enqueue assertSize
  simp only [ends_bind, ends_get, ends_assertThat, ends_modify, implies_true, and_self]

theorem removeItem_memslot (r : Nat) :
    Ends (removeItem r) q (fun _ t => t.memslot = q.memslot ∧ t.queueSlotted = q.queueSlotted)
      fun _ _ => False := ⟨rfl, rfl⟩

/-- Only the request `r` may be another one, and the slots are as they were. -/
structure Touches (r : Nat) (q t : EvAIOReqQueue) : Prop where
  slots : ∀ {n held}, Slots q n held → Slots t n held
  req : ∀ i, i ≠ r → t.req i = q.req i

instance (r : Nat) : IsPreorder EvAIOReqQueue (Touches r) where
  refl _ := ⟨id, fun _ _ => rfl⟩
  trans _ _ _ h h' :=
    ⟨fun hs => h'.slots (h.slots hs), fun i hi => (h'.req i hi).trans (h.req i hi)⟩

theorem touches_setReq (q : EvAIOReqQueue) (f : EvAIOReq → EvAIOReq) :
    Touches r q (q.setReq r f) :=
  ⟨fun h => h.setReq r f, fun _ hi => req_setReq_of_ne f hi⟩

theorem reqDestroy_slots (h : Slots q n (r :: held)) :
    Ends (reqDestroy r) q
      (fun _ t => Slots t n held ∧ ∀ i, i ≠ r → t.req i = q.req i) fun _ _ => True := by
  unfold reqDestroy
  simp only [ends_bind, ends_get, ends_modify, ends_ite, ends_pure]
  refine ⟨fun _ => ?_, fun _ => ⟨((touches_setReq q _).slots h).tail, (touches_setReq q _).req⟩⟩
  unfold doDestroy
  rw [ends_bind]
  refine (along_freeStrings (fun q f => touches_setReq q f) _).mono (fun _ t ht => ?_)
    fun _ _ _ => trivial
  have hall : Touches r q (t.setReq r fun req => { req with flags.inUse := false }) :=
    trans_of (Touches r) (trans_of (Touches r) (touches_setReq q _) ht) (touches_setReq t _)
  simp only [ends_bind, ends_modify]
  rw [if_pos (hall.slots h).slotted]
  exact ⟨(hall.slots h).free, hall.req⟩

/-! ## The books -/

/-- The counters of an opcode differ by the requests in flight. -/
def Balanced (s : ThreadAIOBase) : Prop :=
  ∀ op, (s.evStats op).txCount = (s.evStats op).rxCount + .ofNat (s.inFlight op)

/-- The books are balanced, and the requests in flight have slots of their own. -/
structure Booked (n : Nat) (s : ThreadAIOBase) : Prop where
  slots : Slots s.reqQueue n (s.jobs ++ s.finishing)
  balanced : Balanced s

variable {u : ThreadAIOBase}

theorem inFlight_congr (hjobs : u.jobs = s.jobs)
    (hop : ∀ r ∈ s.jobs, (u.req r).aioOpcode = (s.req r).aioOpcode) (op : EvAIOReqCode) :
    u.inFlight op = s.inFlight op := by
  unfold ThreadAIOBase.inFlight
  rw [hjobs]
  refine countP_congr fun r hr => ?_
  rw [hop r hr]

theorem Balanced.queue (h : Balanced s)
    (hop : ∀ r ∈ s.jobs, (q.req r).aioOpcode = (s.req r).aioOpcode) :
    Balanced { s with reqQueue := q } := by
  intro op
  have hinFlight : ({ s with reqQueue := q } : ThreadAIOBase).inFlight op = s.inFlight op := by
    refine inFlight_congr ?_ hop op
    rfl
  rw [hinFlight]
  exact h op

namespace Booked

theorem frame (h : Booked n s) (hslots : Slots u.reqQueue n (u.jobs ++ u.finishing))
    (hjobs : u.jobs = s.jobs) (htx : ∀ op, (u.evStats op).txCount = (s.evStats op).txCount)
    (hrx : ∀ op, (u.evStats op).rxCount = (s.evStats op).rxCount)
    (hop : ∀ r ∈ s.jobs, (u.req r).aioOpcode = (s.req r).aioOpcode) : Booked n u := by
  refine ⟨hslots, fun op => ?_⟩
  rw [htx, hrx, inFlight_congr hjobs hop]
  exact h.balanced op

theorem setReq (h : Booked n s) (r : Nat) {f : EvAIOReq → EvAIOReq}
    (hf : (f (s.req r)).aioOpcode = (s.req r).aioOpcode) : Booked n (s.setReq r f) := by
  refine h.frame (h.slots.setReq r f) rfl (fun _ => rfl) (fun _ => rfl) fun i _ => ?_
  unfold ThreadAIOBase.req ThreadAIOBase.setReq
  by_cases hi : i = r
  · subst hi
    rw [req_setReq_self]
    exact hf
  · rw [req_setReq_of_ne f hi]

theorem aioFailed_ends (h : Booked n s) (op : EvAIOReqCode) :
    Ends (aioFailed op) s (fun _ t => Booked n t) fun _ _ => False := by
  have hcount : ∀ op', (s.countEv op fun c => { c with error := c.error + 1 }).evStats op' =
      if op' = op then { s.evStats op with error := (s.evStats op).error + 1 }
      else s.evStats op' := fun op' => update_apply _ _ _ _
  unfold aioFailed
  simp only [ends_bind, ends_modify, ends_pure]
  refine h.frame h.slots rfl (fun op' => ?_) (fun op' => ?_) fun _ _ => rfl
  · rw [hcount]
    split
    · rename_i heq
      rw [heq]
    · rfl
  · rw [hcount]
    split
    · rename_i heq
      rw [heq]
    · rfl

end Booked

theorem accepted_txCount (p : Submission) (op : EvAIOReqCode) :
    ((accepted p r s).evStats op).txCount =
      (s.evStats op).txCount + if op = p.txOpcode then 1 else 0 := by
  simp only [accepted, ThreadAIOBase.countEv, update_apply]
  grind

theorem accepted_rxCount (p : Submission) (op : EvAIOReqCode) :
    ((accepted p r s).evStats op).rxCount = (s.evStats op).rxCount := by
  simp only [accepted, ThreadAIOBase.countEv, update_apply]
  grind

theorem accepted_inFlight (p : Submission) (op : EvAIOReqCode) :
    (accepted p r s).inFlight op =
      s.inFlight op + if (s.req r).aioOpcode = op then 1 else 0 := by
  change (s.jobs ++ [r]).countP (fun r => (s.req r).aioOpcode = op) = _
  rw [countP_append, countP_singleton]
  simp only [decide_eq_true_eq]
  rfl

theorem Api.txOpcode_eq (api : Api) (h : api.submission.opcode ≠ .opTruncate) :
    api.submission.txOpcode = api.submission.opcode := by
  cases api with
  | fileTruncate pathStr size => exact absurd rfl h
  | _ => rfl

theorem startJob_booked {p : Submission} {jobId : Int}
    (hslots : Slots s.reqQueue n (r :: (s.jobs ++ s.finishing))) (hbalanced : Balanced s)
    (hop : (s.req r).aioOpcode = p.opcode) (htx : p.txOpcode = p.opcode ∨ jobId < 0) :
    Ends (startJob p r jobId) s (fun _ t => Booked n t) fun _ _ => True := by
  have hout : r ∉ s.jobs := fun hr =>
    (nodup_cons.mp hslots.nodup).1 (mem_append_left _ hr)
  unfold startJob
  simp only [ends_bind, ends_get, queue, ends_within]
  refine (enqueue_memslot r).mono (fun _ q hq => ?_) fun _ _ _ => trivial
  have hslots' : Slots q n (r :: (s.jobs ++ s.finishing)) := hslots.congr hq.1 hq.2
  have hreq : ∀ i, q.req i = s.req i := fun i => by
    unfold ThreadAIOBase.req EvAIOReqQueue.req
    rw [hq.1]
  rw [ends_ite]
  refine ⟨fun _ => ?_, fun hid => ?_⟩
  · simp only [ends_bind, ends_within]
    refine (removeItem_memslot r).mono (fun _ q' hq' => ?_) fun _ _ => False.elim
    refine (reqDestroy_slots (hslots'.congr hq'.1 hq'.2)).mono (fun _ q'' hq'' => ?_)
      fun _ _ _ => trivial
    have hbooked : Booked n { s with reqQueue := q'' } := by
      refine ⟨hq''.1, hbalanced.queue fun i hi => ?_⟩
      have hsame : q''.req i = s.req i := by
        rw [hq''.2 i (ne_of_mem_of_not_mem hi hout), ← hreq i]
        unfold EvAIOReqQueue.req
        rw [hq'.1]
      rw [hsame]
    exact (hbooked.aioFailed_ends p.opcode).mono (fun _ _ h => h) fun _ _ => False.elim
  · simp only [ends_bind, ends_modify, ends_pure]
    refine ⟨?_, fun op => ?_⟩
    · refine hslots'.perm ?_
      change ((s.jobs ++ [r]) ++ s.finishing).Perm _
      rw [append_assoc]
      exact perm_middle
    · have hqueue : Balanced { s with reqQueue := q } := hbalanced.queue fun i _ => by rw [hreq]
      have hopcode : (({ s with reqQueue := q } : ThreadAIOBase).req r).aioOpcode = p.opcode :=
        (congrArg (fun req => req.aioOpcode) (hreq r)).trans hop
      rw [accepted_txCount, accepted_rxCount, accepted_inFlight, hopcode, htx.resolve_right hid,
        UInt64.ofNat_add, hqueue op]
      by_cases hsame : op = p.opcode
      · rw [if_pos hsame, if_pos hsame.symm, UInt64.add_assoc]
        rfl
      · rw [if_neg hsame, if_neg fun h => hsame h.symm, UInt64.add_assoc]
        rfl

theorem submit_booked {p : Submission} {finishCb : Option Nat} {finishCbdata : Nat} {jobId : Int}
    (h : Booked n s)
    (htx : p.txOpcode = p.opcode ∨ jobId < 0 ∨ s.reqQueue.memslot.slots = []) :
    Ends (submit p finishCb finishCbdata jobId) s (fun _ t => Booked n t) fun _ _ => True := by
  unfold submit
  simp only [ends_bind, ends_get, ends_assertThat, implies_true, and_true]
  intro _
  rw [ends_ite]
  refine ⟨fun _ => ?_, fun _ => ?_⟩
  · exact (h.aioFailed_ends _).mono (fun _ _ ht => ht) fun _ _ => False.elim
  · simp only [ends_bind, queue, ends_within]
    refine (reqNew_slots h.slots ..).mono (fun o q hq => ?_) fun _ _ _ => trivial
    cases o with
    | none =>
        obtain rfl : q = s.reqQueue := hq
        exact (h.aioFailed_ends _).mono (fun _ _ ht => ht) fun _ _ => False.elim
    | some r =>
        obtain ⟨hne, hslots, hsame⟩ := hq
        simp only [ends_bind, ends_get, ends_assertThat, ends_modify, implies_true, and_true]
        intro _
        have hout : r ∉ s.jobs := fun hr =>
          (nodup_cons.mp hslots.nodup).1 (mem_append_left _ hr)
        refine startJob_booked (hslots.setReq r _) (h.balanced.queue fun i hi => ?_) ?_ ?_
        · have hir : i ≠ r := ne_of_mem_of_not_mem hi hout
          rw [req_setReq_of_ne _ hir, hsame i hir]
          rfl
        · exact congrArg (fun req => req.aioOpcode) (req_setReq_self (populate p))
        · exact htx.imp_right fun h => h.resolve_right hne

/-! ## A completion -/

namespace OpcodeStats

variable (succeeded : Bool) (c : OpcodeStats)

@[simp] theorem complete_txCount : (c.complete succeeded).txCount = c.txCount := by
  cases succeeded <;> rfl

@[simp] theorem complete_rxCount : (c.complete succeeded).rxCount = c.rxCount + 1 := by
  cases succeeded <;> rfl

@[simp] theorem complete_pending :
    (c.complete succeeded).pending = c.txCount - (c.rxCount + 1) := by
  cases succeeded <;> rfl

end OpcodeStats

/-- The job of `r` is handed back. -/
def handedBack (r : Nat) (s : ThreadAIOBase) : ThreadAIOBase :=
  { s with jobs := s.jobs.erase r, finishing := r :: s.finishing }

theorem inFlight_handedBack (hr : r ∈ s.jobs) (op : EvAIOReqCode) :
    s.inFlight op =
      (handedBack r s).inFlight op + if (s.req r).aioOpcode = op then 1 else 0 := by
  have hperm := (perm_cons_erase hr).countP_eq fun r => (s.req r).aioOpcode = op
  refine hperm.trans ?_
  rw [countP_cons]
  simp only [decide_eq_true_eq]
  rfl

def Pending (op : EvAIOReqCode) (s : ThreadAIOBase) : Prop :=
  (s.evStats op).pending.toNat = s.inFlight op

theorem invokeCallBacks_ends (r : Nat) :
    Ends (invokeCallBacks r) s (fun _ t => ∃ log, t = { s with log := log }) fun _ _ => False := by
  unfold invokeCallBacks
  rw [ends_modify]
  simp only []
  split
  · split
    · exact ⟨_, rfl⟩
    · exact ⟨_, rfl⟩
  · exact ⟨_, rfl⟩

theorem completed_balanced (h : Balanced s) (hr : r ∈ s.jobs) (hreq : ∀ i, q.req i = s.req i)
    (hev : u.evStats = update s.evStats (s.req r).aioOpcode
      ((s.evStats (s.req r).aioOpcode).complete (s.req r).succeeded))
    (hjobs : u.jobs = s.jobs.erase r) (hqueue : u.reqQueue = q) : Balanced u ∧
    (u.evStats (s.req r).aioOpcode).pending = .ofNat (u.inFlight (s.req r).aioOpcode) := by
  have hinFlight : ∀ op, s.inFlight op =
      u.inFlight op + if (s.req r).aioOpcode = op then 1 else 0 := fun op => by
    rw [inFlight_handedBack hr op]
    congr 1
    refine (inFlight_congr hjobs (fun i _ => ?_) op).symm
    unfold ThreadAIOBase.req
    rw [hqueue, hreq]
    rfl
  constructor
  · intro op
    have hop := h op
    rw [hinFlight op] at hop
    rw [hev]
    by_cases hsame : op = (s.req r).aioOpcode
    · rw [if_pos hsame.symm, UInt64.ofNat_add] at hop
      rw [← hsame, update_self, OpcodeStats.complete_txCount,
        OpcodeStats.complete_rxCount, hop]
      grind
    · rw [if_neg fun heq => hsame heq.symm, Nat.add_zero] at hop
      rw [update_of_ne hsame]
      exact hop
  · have hop := h (s.req r).aioOpcode
    rw [hinFlight, if_pos rfl, UInt64.ofNat_add] at hop
    rw [hev, update_self, OpcodeStats.complete_pending, hop]
    grind

instance (op : EvAIOReqCode) (s : ThreadAIOBase) : Decidable (Pending op s) :=
  inferInstanceAs (Decidable (_ = _))

theorem jobFinish_booked (h : Booked n s) (hn : n < 2 ^ 64) (hr : r ∈ s.jobs) :
    Ends (jobFinish r) (handedBack r s)
      (fun _ t => Booked n t ∧ Pending (s.req r).aioOpcode t) fun _ _ => True := by
  unfold jobFinish
  simp only [ends_bind, ends_get, ends_assertThat, ends_modify, queue, ends_within, implies_true,
    and_true]
  intro _
  refine (removeItem_memslot r).mono (fun _ q hq => ?_) fun _ _ => False.elim
  refine (invokeCallBacks_ends r).mono (fun _ t ht => ?_) fun _ _ => False.elim
  obtain ⟨log, rfl⟩ := ht
  have hreq : ∀ i, q.req i = s.req i := fun i => by
    unfold ThreadAIOBase.req EvAIOReqQueue.req
    rw [hq.1]
    rfl
  have hslots : Slots q n (s.jobs.erase r ++ r :: s.finishing) := by
    refine (h.slots.congr hq.1 hq.2).perm ?_
    refine perm_middle.trans ?_
    exact (perm_cons_erase hr).symm.append_right s.finishing
  have hle : (s.jobs.erase r).length ≤ n := by
    have hlength := hslots.length_le
    rw [length_append] at hlength
    omega
  have hcompleted : ∀ u : ThreadAIOBase, u.reqQueue = q → u.jobs = s.jobs.erase r →
      u.finishing = r :: s.finishing →
      u.evStats = update s.evStats (s.req r).aioOpcode
        ((s.evStats (s.req r).aioOpcode).complete (s.req r).succeeded) →
      Booked n u ∧ Pending (s.req r).aioOpcode u := by
    intro u hqueue hjobs hfinishing hev
    obtain ⟨hbalanced, hpending⟩ := completed_balanced h.balanced hr hreq hev hjobs hqueue
    refine ⟨⟨?_, hbalanced⟩, ?_⟩
    · rw [hqueue, hjobs, hfinishing]
      exact hslots
    · unfold Pending
      rw [hpending]
      refine UInt64.toNat_ofNat_of_lt (Nat.lt_of_le_of_lt ?_ hn)
      refine Nat.le_trans countP_le_length ?_
      rw [hjobs]
      exact hle
  exact hcompleted _ rfl rfl rfl rfl

/-! ## Runs -/

theorem handle_booked (hn : n < 2 ^ 64) (e : Event) (s : ThreadAIOBase) (h : Booked n s)
    (hok : NoTruncate s e) : Ends (handle e) s (fun _ t => Booked n t) fun _ _ => True := by
  cases e with
  | submit api finishCb finishCbdata jobId =>
      simp only [handle, ends_bind, ends_pure]
      refine submit_booked h ?_
      by_cases hop : api.submission.opcode = .opTruncate
      · exact .inr (hok hop)
      · exact .inl (api.txOpcode_eq hop)
  | submitAndDestroy dataMb fd pathStr size offset finishCb finishCbdata jobId =>
      simp only [handle, ends_bind, ends_pure]
      apply writeFromMemBufferAndDestroy_keeps (submit_booked h (.inl rfl))
      intro t r f hf ht
      exact ht.setReq r (hf _).1
  | work r env =>
      simp only [handle, ends_bind, ends_get, ends_ite, ends_pure]
      exact ⟨fun _ => work_keeps h fun _ hw _ => h.setReq r hw.aioOpcode, fun _ => h⟩
  | finish r =>
      simp only [handle, ends_bind, ends_get, ends_ite, ends_pure, ends_modify]
      refine ⟨fun hr => ?_, fun _ => h⟩
      exact Ends.mono (jobFinish_booked h hn hr) (fun _ _ ht => ht.1) fun _ _ => id
  | release r =>
      simp only [handle, ends_bind, ends_get, ends_ite, ends_pure, ends_modify, queue, ends_within]
      refine ⟨fun hr => ?_, fun _ => h⟩
      have hperm : (r :: (s.jobs ++ s.finishing.erase r)).Perm (s.jobs ++ s.finishing) :=
        perm_middle.symm.trans ((perm_cons_erase hr).symm.append_left s.jobs)
      have hout : r ∉ s.jobs := fun hmem =>
        (nodup_append.mp h.slots.nodup).2.2 r hmem r hr rfl
      refine (reqDestroy_slots (h.slots.perm hperm)).mono (fun _ q hq => ?_) fun _ _ _ => trivial
      have hqueue : Balanced { s with reqQueue := q } := h.balanced.queue fun i hi => by
        rw [hq.2 i (ne_of_mem_of_not_mem hi hout)]
        rfl
      exact ⟨hq.1, hqueue⟩
  | cancel reqId =>
      simp only [handle, cancelByReqID, ends_bind, ends_ite, ends_pure, ends_get, ends_assertThat,
        ends_modify, implies_true, and_true]
      exact ⟨fun _ => h, fun _ _ => h.setReq _ rfl⟩

theorem booked_new (m : Nat) (assertSoft : Bool) :
    Booked (if m = 0 then 4096 else m) (threadAIOBaseNew m assertSoft) where
  slots :=
    { wf := MemSlotBase.wf_init _ _
      slotted := rfl
      nodup := nodup_nil
      held := nofun
      bound := fun r hr => by
        rcases hr with hr | hr
        · cases hr
        · exact mem_range.mp hr }
  balanced _ := rfl

/-- **What is pending.**  In every run in which no request to truncate is accepted, `pending`
of the opcode of a completed request is right after the completion the number of requests of
that opcode in flight. -/
theorem pending_after_completion (pendingReqMax : Nat) (assertSoft : Bool)
    (hmax : pendingReqMax < 2 ^ 31) (evs : List Event)
    (hmeets : Runs.Meets handle NoTruncate (.live (threadAIOBaseNew pendingReqMax assertSoft)) evs)
    (r : Nat) :
    let c := Runs.run handle (.live (threadAIOBaseNew pendingReqMax assertSoft)) evs
    r ∈ c.state.jobs → c.fault = none →
      Runs.Holds (Pending (c.state.req r).aioOpcode) (fun _ _ => True)
        (Runs.step handle c (.finish r)) := by
  intro c hr hlive
  have hn : (if pendingReqMax = 0 then 4096 else pendingReqMax) < 2 ^ 64 := by
    split
    · decide
    · omega
  have hrun := Runs.invariant_run_of (A := fun _ _ => True) (handle_booked hn)
    (c := .live (threadAIOBaseNew pendingReqMax assertSoft)) (booked_new pendingReqMax assertSoft)
    evs hmeets
  refine Runs.holds_step_of hrun (Event.finish r) fun _ hbooked => ?_
  simp only [handle, ends_bind, ends_get]
  rw [if_pos hr]
  exact Ends.mono (jobFinish_booked hbooked hn hr) (fun _ _ ht => ht.2) fun _ _ => id

theorem pending_after_completion_stat :
    Runs.Holds (Pending .opStat) (fun _ _ => True)
      (Runs.step handle (Runs.run handle (.live (threadAIOBaseNew 2 false))
        [.submit (.fileStat (some "a")) none 0 0, .submit (.fileStat (some "b")) none 0 1,
          .work 0 {}]) (.finish 0)) :=
  pending_after_completion 2 false (by decide)
    [.submit (.fileStat (some "a")) none 0 0, .submit (.fileStat (some "b")) none 0 1, .work 0 {}]
    (by decide) 0 (by decide) (by decide)

/-- A request to truncate was counted for another opcode: its completion leaves less than
nothing pending. -/
theorem truncate_leaves_pending :
    ¬Runs.Holds (Pending .opTruncate) (fun _ _ => True)
      (Runs.step handle (Runs.run handle (.live (threadAIOBaseNew 1 false))
        [.submit (.fileTruncate (some "f") 10) none 0 0, .work 0 {}]) (.finish 0)) := by
  intro h
  have hpending := h.of_live (by decide)
  revert hpending
  decide

end ThreadAIO
