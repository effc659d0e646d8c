import BrbFramework.Unix.Paths

/-!
# What becomes of a request

The history of a request is the part of the log that its callbacks and its slot
appear in. A request that is pending has no history; one that waits for its
acknowledgement was finished; one that is gone has been finished, acknowledged and
released, each once and the acknowledgement not first.

The destruction of the buffers calls the finish callback of a request that was
not written with the wrong arguments, and its ACK callback not at all; it does
not expect to be called from a callback, nor to be given requests by one.
`Orderly` says that nothing of this happens, and that the peer acknowledges what
it was asked to.
-/

namespace Unix

open BrbData MemSlotBase Handler CommEvUNIXClient List

/-- The entry is about request `n`. -/
def concerns (n : Nat) : Obs → Bool
  | .finish m _ _ _ | .ack m _ | .released m => m == n
  | _ => false

/-- What the callbacks and the slot of request `n` went through. -/
def history (n : Nat) (log : List Obs) : List Obs := log.filter (concerns n)

/-- The finish callback was called with the request and its own data, the ACK callback
after it, and the slot was released, each once. -/
def Complete (req : CommEvUNIXWriteRequest) (h : List Obs) : Prop :=
  ∃ size code, h = finishObs req size ++ (ackObs req code ++ [.released req.serial]) ∨
    h = finishObs req size ++ (.released req.serial :: ackObs req code)

/-- The peer acknowledges what it owes; and the destruction of the buffers finds no
request with callbacks that was not written, is not called from a callback, and is
not given requests by one. -/
structure Orderly (log : List Obs) : Prop where
  owed : AcksOwed log
  abandoned : ∀ req, Obs.abandoned req ∈ log → req.hasFinishCb = false ∧ req.hasAckCb = false
  inside : Obs.destroying true ∉ log
  late : Obs.granted true ∉ log

def stub (req : CommEvUNIXWriteRequest) : CommEvUNIXWriteRequest where
  serial := req.serial
  hasFinishCb := req.hasFinishCb
  hasAckCb := req.hasAckCb
  finishCbdata := req.finishCbdata

/-- How far the request in slot `x` has come. -/
def Stage (c : CommEvUNIXClient) (x : Nat) : Prop :=
  (x ∈ c.writes ∧ (∀ acked, (x, acked) ∉ c.active) ∧ history (c.req x).serial c.log = []) ∨
  ∃ size, ((x, false) ∈ c.active ∧ history (c.req x).serial c.log = finishObs (c.req x) size) ∨
    (∃ code, (x, true) ∈ c.active ∧
      history (c.req x).serial c.log = finishObs (c.req x) size ++ ackObs (c.req x) code) ∨
    (x ∈ c.acks ∧ (∀ acked, (x, acked) ∉ c.active) ∧
      history (c.req x).serial c.log = finishObs (c.req x) size)

structure Ledger (c : CommEvUNIXClient) : Prop where
  fresh : ∀ n, c.created ≤ n → history n c.log = []
  known : ∀ r, Obs.accepted r ∈ c.log → r.serial < c.created
  stage : ∀ x, x ∈ c.writes ∨ x ∈ c.acks → Stage c x
  fate : ∀ r, Obs.accepted r ∈ c.log →
    (∃ x, (x ∈ c.writes ∨ x ∈ c.acks) ∧ stub (c.req x) = stub r) ∨
    ((∀ x, x ∈ c.writes ∨ x ∈ c.acks → (c.req x).serial ≠ r.serial) ∧
      Complete r (history r.serial c.log))

section History

variable {n : Nat} {log l : List Obs} {req req' : CommEvUNIXWriteRequest}

@[simp] theorem history_append : history n (log ++ l) = history n log ++ history n l :=
  filter_append _ _

theorem history_next {h h' : List Obs} (hh : history n log = h) (hl : history n l = h') :
    history n (log ++ l) = h ++ h' := by
  rw [history_append, hh, hl]

theorem history_of_not (h : ∀ o ∈ l, concerns n o = false) : history n l = [] :=
  filter_eq_nil_iff.mpr fun o ho => by simp [h o ho]

theorem history_finishObs (size : Int) :
    history req.serial (finishObs req size) = finishObs req size := by
  unfold finishObs
  split <;> simp [history, concerns]

theorem history_ackObs (code : AckCode) :
    history req.serial (ackObs req code) = ackObs req code := by
  unfold ackObs
  split <;> simp [history, concerns]

theorem history_released : history n [.released n] = [.released n] := by
  simp [history, concerns]

theorem Orderly.mono (h : Orderly (log ++ l)) : Orderly log where
  owed := fun l₁ x l₂ heq => h.owed l₁ x (l₂ ++ l) (by rw [heq]; simp)
  abandoned := fun r hr => h.abandoned r (mem_append_left _ hr)
  inside := fun hin => h.inside (mem_append_left _ hin)
  late := fun hin => h.late (mem_append_left _ hin)

theorem serial_of_stub (h : stub req = stub req') : req.serial = req'.serial :=
  (congrArg (·.serial) h :)

theorem finishObs_of_stub (h : stub req = stub req') (size : Int) :
    finishObs req size = finishObs req' size := by
  have hserial := serial_of_stub h
  have hcb : req.hasFinishCb = req'.hasFinishCb := (congrArg (·.hasFinishCb) h :)
  have hdata : req.finishCbdata = req'.finishCbdata := (congrArg (·.finishCbdata) h :)
  rw [finishObs, finishObs, hserial, hcb, hdata]

theorem ackObs_of_stub (h : stub req = stub req') (code : AckCode) :
    ackObs req code = ackObs req' code := by
  have hserial := serial_of_stub h
  have hcb : req.hasAckCb = req'.hasAckCb := (congrArg (·.hasAckCb) h :)
  rw [ackObs, ackObs, hserial, hcb]

theorem Complete.of_stub {h : List Obs} (hc : Complete req h) (hs : stub req = stub req') :
    Complete req' h := by
  obtain ⟨size, code, hh⟩ := hc
  refine ⟨size, code, ?_⟩
  rw [← finishObs_of_stub hs, ← ackObs_of_stub hs, ← serial_of_stub hs]
  exact hh

theorem stub_of_core (h : req.core = req'.core) : stub req = stub req' := by
  have hstub : stub req.core = stub req'.core := congrArg stub h
  exact hstub

theorem not_concerns_finishObs {size : Int} (hne : req.serial ≠ n) :
    ∀ o ∈ finishObs req size, concerns n o = false := by
  unfold finishObs
  split
  · simpa [concerns] using hne
  · simp

theorem not_concerns_ackObs {code : AckCode} (hne : req.serial ≠ n) :
    ∀ o ∈ ackObs req code, concerns n o = false := by
  unfold ackObs
  split
  · simpa [concerns] using hne
  · simp

end History

section Keep

variable {s t : CommEvUNIXClient} {l : List Obs} {x : Nat}

theorem ledger_view : Ledger s.view ↔ Ledger s :=
  ⟨fun h => ⟨h.fresh, h.known, h.stage, h.fate⟩, fun h => ⟨h.fresh, h.known, h.stage, h.fate⟩⟩

theorem Ledger.update (h : Ledger s) (hbase : Base s) (hx : x ∈ s.writes ∨ x ∈ s.acks)
    (hlog : t.log = s.log ++ l) (hl : ∀ n, n ≠ (s.req x).serial → ∀ o ∈ l, concerns n o = false)
    (hacc : ∀ r, Obs.accepted r ∉ l) (hcreated : t.created = s.created)
    (hother : ∀ y, y ≠ x → (y ∈ t.writes ↔ y ∈ s.writes) ∧ (y ∈ t.acks ↔ y ∈ s.acks) ∧
      (∀ acked, (y, acked) ∈ t.active ↔ (y, acked) ∈ s.active) ∧ stub (t.req y) = stub (s.req y))
    (hself : x ∈ t.writes ∨ x ∈ t.acks → stub (t.req x) = stub (s.req x) ∧ Stage t x)
    (hgone : ¬ (x ∈ t.writes ∨ x ∈ t.acks) →
      Complete (s.req x) (history (s.req x).serial t.log)) : Ledger t := by
  have hkeep : ∀ n, n ≠ (s.req x).serial → history n t.log = history n s.log := fun n hn => by
    rw [hlog, history_append, history_of_not (hl n hn), append_nil]
  have hserial : ∀ y, y ∈ t.writes ∨ y ∈ t.acks → stub (t.req y) = stub (s.req y) ∧
      (y ∈ s.writes ∨ y ∈ s.acks) := by
    intro y hy
    by_cases hyx : y = x
    · rw [hyx] at hy ⊢
      exact ⟨(hself hy).1, hx⟩
    · obtain ⟨hw, ha, -, hstub⟩ := hother y hyx
      exact ⟨hstub, hy.imp hw.mp ha.mp⟩
  refine ⟨fun n hn => ?_, fun r hr => ?_, fun y hy => ?_, fun r hr => ?_⟩
  · rw [hcreated] at hn
    have hlt := (hbase.formed x hx).serial_lt
    rw [hkeep n (by omega)]
    exact h.fresh n hn
  · rw [hlog, mem_append] at hr
    rw [hcreated]
    exact h.known r (hr.resolve_right (hacc r))
  · by_cases hyx : y = x
    · rw [hyx] at hy ⊢
      exact (hself hy).2
    · obtain ⟨hw, ha, hactive, hstub⟩ := hother y hyx
      have hold := (hserial y hy).2
      have hne : (s.req y).serial ≠ (s.req x).serial := fun heq =>
        hyx (hbase.inj y x hold hx heq)
      have hhist : history (t.req y).serial t.log = history (s.req y).serial s.log := by
        rw [serial_of_stub hstub]
        exact hkeep _ hne
      unfold Stage
      simp only [hw, ha, hactive, hhist, finishObs_of_stub hstub, ackObs_of_stub hstub]
      exact h.stage y hold
  · rw [hlog, mem_append] at hr
    rcases h.fate r (hr.resolve_right (hacc r)) with ⟨y, hy, hstub⟩ | ⟨hnone, hdone⟩
    · by_cases hyx : y = x
      · rw [hyx] at hstub
        by_cases hin : x ∈ t.writes ∨ x ∈ t.acks
        · exact .inl ⟨x, hin, (hself hin).1.trans hstub⟩
        · refine .inr ⟨fun z hz heq => ?_, ?_⟩
          · obtain ⟨hzstub, hz'⟩ := hserial z hz
            have hzx : z = x := hbase.inj z x hz' hx
              ((serial_of_stub hzstub).symm.trans (heq.trans (serial_of_stub hstub).symm))
            exact hin (hzx ▸ hz)
          · rw [← serial_of_stub hstub]
            exact (hgone hin).of_stub hstub
      · obtain ⟨hw, ha, -, hstub'⟩ := hother y hyx
        exact .inl ⟨y, hy.imp hw.mpr ha.mpr, hstub'.trans hstub⟩
    · refine .inr ⟨fun y hy heq => ?_, ?_⟩
      · obtain ⟨hstub, hy'⟩ := hserial y hy
        exact hnone y hy' ((serial_of_stub hstub).symm.trans heq)
      · rw [hkeep _ (fun heq => hnone x hx heq.symm)]
        exact hdone

theorem Ledger.keep (h : Ledger s) (hlog : t.log = s.log ++ l)
    (hl : ∀ n, ∀ o ∈ l, concerns n o = false) (hacc : ∀ r, Obs.accepted r ∉ l)
    (hcreated : t.created = s.created) (hwrites : t.writes = s.writes) (hacks : t.acks = s.acks)
    (hactive : t.active = s.active) (hstub : ∀ x, stub (t.req x) = stub (s.req x)) :
    Ledger t := by
  have hkeep : ∀ n, history n t.log = history n s.log := fun n => by
    rw [hlog, history_append, history_of_not (hl n), append_nil]
  refine ⟨fun n hn => ?_, fun r hr => ?_, fun x hx => ?_, fun r hr => ?_⟩
  · rw [hkeep]
    exact h.fresh n (hcreated ▸ hn)
  · rw [hlog, mem_append] at hr
    rw [hcreated]
    exact h.known r (hr.resolve_right (hacc r))
  · rw [hwrites, hacks] at hx
    unfold Stage
    simp only [hwrites, hacks, hactive, hkeep, serial_of_stub (hstub x), finishObs_of_stub (hstub x),
      ackObs_of_stub (hstub x)]
    exact h.stage x hx
  · rw [hlog, mem_append] at hr
    rcases h.fate r (hr.resolve_right (hacc r)) with ⟨x, hx, hstubx⟩ | ⟨hnone, hdone⟩
    · exact .inl ⟨x, by rw [hwrites, hacks]; exact hx, (hstub x).trans hstubx⟩
    · refine .inr ⟨fun x hx => ?_, by rw [hkeep]; exact hdone⟩
      rw [serial_of_stub (hstub x)]
      rw [hwrites, hacks] at hx
      exact hnone x hx

theorem Ledger.blank (h : Ledger s) (hs : ∀ x, ¬ (x ∈ s.writes ∨ x ∈ s.acks))
    (ht : ∀ x, ¬ (x ∈ t.writes ∨ x ∈ t.acks)) (hlog : t.log = s.log ++ l)
    (hl : ∀ n, ∀ o ∈ l, concerns n o = false) (hacc : ∀ r, Obs.accepted r ∉ l)
    (hcreated : t.created = s.created) : Ledger t := by
  have hkeep : ∀ n, history n t.log = history n s.log := fun n => by
    rw [hlog, history_append, history_of_not (hl n), append_nil]
  refine ⟨fun n hn => ?_, fun r hr => ?_, fun x hx => absurd hx (ht x), fun r hr => ?_⟩
  · rw [hkeep]
    exact h.fresh n (hcreated ▸ hn)
  · rw [hlog, mem_append] at hr
    rw [hcreated]
    exact h.known r (hr.resolve_right (hacc r))
  · rw [hlog, mem_append] at hr
    rcases h.fate r (hr.resolve_right (hacc r)) with ⟨x, hx, -⟩ | ⟨-, hdone⟩
    · exact absurd hx (hs x)
    · exact .inr ⟨fun x hx => absurd hx (ht x), by rw [hkeep]; exact hdone⟩

theorem Ledger.accept (h : Ledger s) (req : CommEvUNIXWriteRequest)
    (hbase : Base s) (hx : ¬ (x ∈ s.writes ∨ x ∈ s.acks)) (hserial : req.serial = s.created)
    (hlog : t.log = s.log ++ [.accepted req]) (hcreated : t.created = s.created + 1)
    (hwrites : t.writes = s.writes ++ [x]) (hacks : t.acks = s.acks)
    (hactive : t.active = s.active) (hself : t.req x = req)
    (hother : ∀ y, y ≠ x → t.req y = s.req y) : Ledger t := by
  have hkeep : ∀ n, history n t.log = history n s.log := fun n => by
    rw [hlog, history_append, history_of_not (l := [.accepted req]) (by simp [concerns]),
      append_nil]
  have hmem : ∀ y, y ∈ t.writes ∨ y ∈ t.acks → y = x ∨ (y ≠ x ∧ (y ∈ s.writes ∨ y ∈ s.acks)) := by
    intro y hy
    by_cases hyx : y = x
    · exact .inl hyx
    · rw [hwrites, hacks] at hy
      exact .inr ⟨hyx, by simpa [hyx] using hy⟩
  refine ⟨fun n hn => ?_, fun r hr => ?_, fun y hy => ?_, fun r hr => ?_⟩
  · rw [hkeep]
    exact h.fresh n (by omega)
  · rw [hlog, mem_append, mem_singleton] at hr
    rw [hcreated]
    rcases hr with hr | hr
    · exact Nat.lt_succ_of_lt (h.known r hr)
    · rw [Obs.accepted.inj hr, hserial]
      exact Nat.lt_succ_self _
  · rcases hmem y hy with rfl | ⟨hne, hold⟩
    · refine .inl ⟨by rw [hwrites]; simp, fun acked hin => ?_, ?_⟩
      · rw [hactive] at hin
        exact hx ((hbase.stack_mem _ hin).imp_right And.right)
      · rw [hself, hkeep]
        exact h.fresh _ (Nat.le_of_eq hserial.symm)
    · have hstage := h.stage y hold
      unfold Stage at hstage ⊢
      rw [hother y hne, hactive, hacks, hkeep, hwrites]
      simpa [hne] using hstage
  · rw [hlog, mem_append, mem_singleton] at hr
    rcases hr with hr | hr
    · rcases h.fate r hr with ⟨y, hy, hstub⟩ | ⟨hnone, hdone⟩
      · have hne : y ≠ x := fun heq => hx (heq ▸ hy)
        refine .inl ⟨y, ?_, by rw [hother y hne]; exact hstub⟩
        rw [hwrites, hacks]
        exact hy.imp_left (mem_append_left _)
      · refine .inr ⟨fun y hy => ?_, by rw [hkeep]; exact hdone⟩
        rcases hmem y hy with rfl | ⟨hne, hold⟩
        · rw [hself, hserial]
          exact Nat.ne_of_gt (h.known r hr)
        · rw [hother y hne]
          exact hnone y hold
    · refine .inl ⟨x, .inl (by rw [hwrites]; simp), ?_⟩
      rw [hself, Obs.accepted.inj hr]

theorem Ledger.untouched (h : Ledger s) (hbase : Base s) (hx : x ∈ s.writes) (hstack : x ∉ s.stack) :
    history (s.req x).serial s.log = [] := by
  have hout : ∀ acked, (x, acked) ∉ s.active := fun acked hin =>
    hstack (mem_map_of_mem hin)
  rcases h.stage x (.inl hx) with ⟨-, -, hh⟩ | ⟨size, ⟨hin, -⟩ | ⟨code, hin, -⟩ | ⟨ha, -⟩⟩
  · exact hh
  · exact absurd hin (hout _)
  · exact absurd hin (hout _)
  · exact absurd ha (not_mem_acks_of_writes hbase.wf hx)

theorem Ledger.waiting (h : Ledger s) (hbase : Base s) (hx : x ∈ s.acks) (hstack : x ∉ s.stack) :
    ∃ size, history (s.req x).serial s.log = finishObs (s.req x) size := by
  have hout : ∀ acked, (x, acked) ∉ s.active := fun acked hin =>
    hstack (mem_map_of_mem hin)
  rcases h.stage x (.inr hx) with ⟨hw, -⟩ | ⟨size, ⟨hin, -⟩ | ⟨code, hin, -⟩ | ⟨-, -, hh⟩⟩
  · exact absurd hx (not_mem_acks_of_writes hbase.wf hw)
  · exact absurd hin (hout _)
  · exact absurd hin (hout _)
  · exact ⟨size, hh⟩

theorem Ledger.top (h : Ledger s) (hbase : Base s) {acked : Bool} {rest : List (Nat × Bool)}
    (hx : s.active = (x, acked) :: rest) :
    ∃ size, (acked = false ∧ history (s.req x).serial s.log = finishObs (s.req x) size) ∨
      ∃ code, acked = true ∧
        history (s.req x).serial s.log = finishObs (s.req x) size ++ ackObs (s.req x) code := by
  have hin : (x, acked) ∈ s.active := by
    rw [hx]
    exact mem_cons_self
  have honly : ∀ b, (x, b) ∈ s.active → b = acked := by
    intro b hb
    have hnodup := hbase.stack_nodup
    rw [stack, hx, map_cons, nodup_cons] at hnodup
    rw [hx, mem_cons] at hb
    rcases hb with heq | hb
    · exact (Prod.mk.inj heq).2
    · exact absurd (mem_map_of_mem (f := Prod.fst) hb) hnodup.1
  have hmem := (hbase.stack_mem _ hin).imp_right And.right
  rcases h.stage x hmem with ⟨-, hout, -⟩ | ⟨size, ⟨hb, hh⟩ | ⟨code, hb, hh⟩ | ⟨-, hout, -⟩⟩
  · exact absurd hin (hout _)
  · exact ⟨size, .inl ⟨(honly _ hb).symm, hh⟩⟩
  · exact ⟨size, .inr ⟨code, (honly _ hb).symm, hh⟩⟩
  · exact absurd hin (hout _)

theorem Ledger.freed (h : Ledger s) (hbase : Base s) (hx : x ∈ s.writes ∨ x ∈ s.acks)
    (hlog : t.log = s.log ++ l) (hl : ∀ n, n ≠ (s.req x).serial → ∀ o ∈ l, concerns n o = false)
    (hacc : ∀ r, Obs.accepted r ∉ l) (hcreated : t.created = s.created)
    (hpool : t.reqMemSlot = s.reqMemSlot.slotFree x) (hactive : t.active = s.active)
    (hdone : Complete (s.req x) (history (s.req x).serial t.log)) : Ledger t := by
  obtain ⟨-, -, hwrites, hacks⟩ := lists_of_slotFree hbase.wf hx
  rw [← hpool] at hwrites hacks
  have hw : ∀ y, y ∈ t.writes ↔ y ≠ x ∧ y ∈ s.writes := fun y => by
    rw [writes, hwrites]
    exact (hbase.wf.list_nodup pendingWrite).mem_erase_iff
  have ha : ∀ y, y ∈ t.acks ↔ y ≠ x ∧ y ∈ s.acks := fun y => by
    rw [acks, hacks]
    exact (hbase.wf.list_nodup pendingAck).mem_erase_iff
  refine h.update hbase hx hlog hl hacc hcreated (fun y hy => ?_) (fun hin => ?_) fun _ => hdone
  · refine ⟨(hw y).trans (and_iff_right hy), (ha y).trans (and_iff_right hy), fun _ => ?_, ?_⟩
    · rw [hactive]
    · simp [CommEvUNIXClient.req, hpool]
  · exact absurd rfl (hin.elim (fun hin => ((hw x).mp hin).1) fun hin => ((ha x).mp hin).1)

theorem Act.ledger (h : Act s t) (hbase : Base s) (hlog : Orderly t.log) (hs : Ledger s) :
    Ledger t := by
  rw [← ledger_view]
  cases h with
  | quiet h =>
      rw [h, ledger_view]
      exact hs
  | touch y f hf h =>
      rw [h]
      refine hs.keep (l := []) (append_nil _).symm (by simp) (by simp) rfl rfl rfl rfl fun x => ?_
      exact stub_of_core (slotData_modifyData_view s.reqMemSlot y f
        CommEvUNIXWriteRequest.core hf x)
  | initData hinit h =>
      rw [h]
      obtain ⟨hw, ha⟩ := hbase.uninit hinit
      refine hs.blank (l := []) (fun x => by simp [hw, ha]) (fun x hx => ?_) (append_nil _).symm
        (by simp) (by simp) rfl
      exact hx.elim (fun h => by cases h) fun h => by cases h
  | called op h =>
      rw [h]
      exact hs.keep rfl (by simp [concerns]) (by simp) rfl rfl rfl rfl fun _ => rfl
  | granted h =>
      rw [h]
      exact hs.keep rfl (by simp [concerns]) (by simp) rfl rfl rfl rfl fun _ => rfl
  | accept x pool req hinit hgrab hfresh hlate hserial hid hoff hseq hremain huse hdata hfds hflags h =>
      rw [h]
      refine hs.accept req hbase (x := x) (fun hx => ?_) hserial rfl rfl ?_ ?_ rfl ?_
        fun y hy => ?_
      · rcases hx with hx | hx
        · exact hbase.wf.slotGrab_fresh hgrab _ hx
        · exact hbase.wf.slotGrab_fresh hgrab _ hx
      · have hlist := slotGrab_list_zero hgrab
        exact hlist
      · have hlist := slotGrab_list_of_ne hgrab (l := pendingAck) (by decide)
        exact hlist
      · have hself := slotData_modifyData_self pool x fun _ => req
        exact hself
      · simp only [CommEvUNIXClient.req]
        rw [slotData_modifyData_of_ne _ _ _ hy, slotGrab_data hgrab]
  | header x hx hstack hseq hfirst h =>
      rw [h]
      refine hs.keep rfl (by simp [concerns]) (by simp) rfl rfl rfl rfl fun y => ?_
      exact slotData_modifyData_view s.reqMemSlot x (fun req => { req with seqId := req.seqId + 1 })
        stub (fun _ => rfl) y
  | payload x n hx hstack hbegun hn hpos h =>
      rw [h]
      refine hs.keep rfl (by simp [concerns]) (by simp) rfl rfl rfl rfl fun y => ?_
      exact slotData_modifyData_view s.reqMemSlot x (fun req =>
        { req with offset := req.offset + n, remain := req.remain - n, seqId := req.seqId + 1 })
        stub (fun _ => rfl) y
  | enqueue x hx h =>
      rw [h]
      refine hs.keep (l := []) (append_nil _).symm (by simp) (by simp) rfl rfl rfl rfl fun y => ?_
      exact slotData_modifyData_view s.reqMemSlot x (fun req =>
        { req with inUse := true, wrote := false, txRetryCount := req.txRetryCount + 1 })
        stub (fun _ => rfl) y
  | finish x size hx hstack hbegun hremain hsched h =>
      rw [h]
      refine hs.update hbase (.inl hx) rfl (fun n hn => not_concerns_finishObs hn.symm) ?_ rfl
        (fun y hy => ?_) (fun _ => ⟨rfl, ?_⟩) fun hno => absurd (.inl hx) hno
      · unfold finishObs
        split <;> simp
      · refine ⟨Iff.rfl, Iff.rfl, fun acked => ?_, rfl⟩
        simp [hy]
      · refine .inr ⟨size, .inl ⟨mem_cons_self, ?_⟩⟩
        have hh := hs.untouched hbase hx hstack
        exact history_next hh (history_finishObs size)
  | drop x size hx hstack h =>
      rw [h]
      refine hs.update hbase (.inl hx) rfl (fun n hn o ho => ?_) ?_ rfl (fun y hy => ?_)
        (fun _ => ⟨rfl, ?_⟩) fun hno => absurd (.inl hx) hno
      · rcases mem_append.mp ho with ho | ho
        · rw [mem_singleton.mp ho]
          rfl
        · exact not_concerns_finishObs hn.symm o ho
      · unfold finishObs
        split <;> simp
      · refine ⟨Iff.rfl, Iff.rfl, fun acked => ?_, rfl⟩
        simp [hy]
      · refine .inr ⟨size, .inl ⟨mem_cons_self, ?_⟩⟩
        have hh := hs.untouched hbase hx hstack
        exact history_next hh (history_finishObs size)
  | ackDropped x rest hx h =>
      rw [h]
      have hmem := hbase.stack_mem (x, false) (by rw [hx]; exact mem_cons_self)
      have hw : x ∈ s.writes := hmem.resolve_right fun hno => by cases hno.1
      refine hs.update hbase (.inl hw) rfl (fun n hn => not_concerns_ackObs hn.symm) ?_ rfl
        (fun y hy => ?_) (fun _ => ⟨rfl, ?_⟩) fun hno => absurd (.inl hw) hno
      · unfold ackObs
        split <;> simp
      · refine ⟨Iff.rfl, Iff.rfl, fun acked => ?_, rfl⟩
        simp [hx, hy]
      · obtain ⟨size, ⟨-, hh⟩ | ⟨_, hno, -⟩⟩ := hs.top hbase hx
        · refine .inr ⟨size, .inr (.inl ⟨.failed, mem_cons_self, ?_⟩)⟩
          exact history_next hh (history_ackObs .failed)
        · cases hno
  | ackStray x h =>
      rw [h]
      exact hs.keep rfl (by simp [concerns]) (by simp) rfl rfl rfl rfl fun _ => rfl
  | ackIn x hx hstack hd h =>
      have hlogT : t.log = s.log ++ ([.acked x] ++ ackObs (s.req x) .ok) :=
        (congrArg (·.log) h :)
      -- what is acknowledged was asked for, and waits
      have ha : x ∈ s.acks := (hbase.owed_mem hd x (hlog.owed s.log x _ hlogT)).1
      rw [h]
      refine hs.update hbase (.inr ha) rfl (fun n hn o ho => ?_) ?_ rfl (fun y hy => ?_)
        (fun _ => ⟨rfl, ?_⟩) fun hno => absurd (.inr ha) hno
      · rcases mem_append.mp ho with ho | ho
        · rw [mem_singleton.mp ho]
          rfl
        · exact not_concerns_ackObs hn.symm o ho
      · unfold ackObs
        split <;> simp
      · refine ⟨Iff.rfl, Iff.rfl, fun acked => ?_, rfl⟩
        simp [hy]
      · obtain ⟨size, hh⟩ := hs.waiting hbase ha hstack
        refine .inr ⟨size, .inr (.inl ⟨.ok, mem_cons_self, ?_⟩)⟩
        exact history_next hh (history_ackObs .ok)
  | release x acked rest hx hacked h =>
      rw [h]
      have hmem := (hbase.stack_mem (x, acked) (by rw [hx]; exact mem_cons_self)).imp_right
        And.right
      obtain ⟨-, -, hwrites, hacks⟩ := lists_of_release (t := { s.view with
        reqMemSlot := (s.reqMemSlot.modifyData x fun req => { req with inUse := false }).slotFree x })
        hbase hmem rfl
      have hw : ∀ y, y ∈ s.writes.erase x ↔ y ≠ x ∧ y ∈ s.writes := fun y =>
        (hbase.wf.list_nodup pendingWrite).mem_erase_iff
      have ha : ∀ y, y ∈ s.acks.erase x ↔ y ≠ x ∧ y ∈ s.acks := fun y =>
        (hbase.wf.list_nodup pendingAck).mem_erase_iff
      have hgone : ∀ y, y ∈ s.writes.erase x ∨ y ∈ s.acks.erase x → y ≠ x := fun y hy =>
        hy.elim (fun hy => ((hw y).mp hy).1) fun hy => ((ha y).mp hy).1
      refine hs.update hbase hmem rfl (fun n hn o ho => ?_) (by simp) rfl (fun y hy => ?_)
        (fun hin => absurd rfl (hgone x (by rw [← hwrites, ← hacks]; exact hin))) fun _ => ?_
      · rw [mem_singleton.mp ho]
        exact beq_false_of_ne hn.symm
      · refine ⟨?_, ?_, fun b => by simp [hx, hy], ?_⟩
        · exact (iff_of_eq (congrArg (y ∈ ·) hwrites)).trans ((hw y).trans (and_iff_right hy))
        · exact (iff_of_eq (congrArg (y ∈ ·) hacks)).trans ((ha y).trans (and_iff_right hy))
        · simp [CommEvUNIXClient.req, slotData_modifyData_of_ne _ _ _ hy]
      · obtain ⟨size, ⟨hno, hh⟩ | ⟨code, -, hh⟩⟩ := hs.top hbase hx
        · have hnone : ackObs (s.req x) .ok = [] := by
            have hwants := hacked hno
            rw [CommEvUNIXWriteRequest.wantsAck, Bool.or_eq_false_iff] at hwants
            simp [ackObs, hwants.1]
          refine ⟨size, .ok, .inl ?_⟩
          rw [hnone]
          exact history_next hh history_released
        · refine ⟨size, code, .inl ?_⟩
          rw [← append_assoc]
          exact history_next hh history_released
  | wait x rest hx hwants h =>
      rw [h]
      have hmem := hbase.stack_mem (x, false) (by rw [hx]; exact mem_cons_self)
      have hxw : x ∈ s.writes := hmem.resolve_right fun hno => by cases hno.1
      obtain ⟨-, hwrites, hacks⟩ := lists_of_wait (t := { s.view with
        reqMemSlot := (s.reqMemSlot.modifyData x fun req =>
          { req with inUse := true, wrote := true }).slotListIDSwitch x pendingAck })
        hbase hxw rfl
      have hw : ∀ y, y ∈ s.writes.erase x ↔ y ≠ x ∧ y ∈ s.writes := fun y =>
        (hbase.wf.list_nodup pendingWrite).mem_erase_iff
      have hnodup := hbase.stack_nodup
      rw [stack, hx, map_cons, nodup_cons] at hnodup
      refine hs.update (x := x) hbase (.inl hxw) rfl (by simp [concerns]) (by simp) rfl
        (fun y hy => ?_) (fun _ => ⟨?_, ?_⟩) fun hno => absurd (.inr ?_) hno
      · refine ⟨?_, ?_, fun b => by simp [hx, hy], ?_⟩
        · exact (iff_of_eq (congrArg (y ∈ ·) hwrites)).trans ((hw y).trans (and_iff_right hy))
        · exact (iff_of_eq (congrArg (y ∈ ·) hacks)).trans
            (mem_cons.trans (or_iff_right hy))
        · simp [CommEvUNIXClient.req, slotData_modifyData_of_ne _ _ _ hy]
      · simp only [CommEvUNIXClient.req, slotListIDSwitch_data, slotData_modifyData_self]
        rfl
      · obtain ⟨size, ⟨-, hh⟩ | ⟨_, hno, -⟩⟩ := hs.top hbase hx
        · refine .inr ⟨size, .inr (.inr ⟨?_, fun b hin => ?_, ?_⟩)⟩
          · exact (congrArg (x ∈ ·) hacks).mpr mem_cons_self
          · have hin : (x, b) ∈ rest := hin
            exact hnodup.1 (mem_map.mpr ⟨_, hin, rfl⟩)
          · have hend := history_next (l := [.waiting x]) hh (history_of_not (by simp [concerns]))
            rw [append_nil] at hend
            simp only [CommEvUNIXClient.req, slotListIDSwitch_data, slotData_modifyData_self]
            exact hend
        · cases hno
      · exact (congrArg (x ∈ ·) hacks).mpr mem_cons_self
  | ackHeader reqId h =>
      rw [h]
      exact hs.keep rfl (by simp [concerns]) (by simp) rfl rfl rfl rfl fun _ => rfl
  | idle hw h =>
      rw [h]
      exact hs.keep (l := []) (append_nil _).symm (by simp) (by simp) rfl rfl rfl rfl fun _ => rfl
  | destroying hinit hclosed h =>
      have hlogT : t.log = s.log ++ [.destroying (s.destroying || !s.active.isEmpty)] :=
        (congrArg (·.log) h :)
      have hnone : s.active = [] := by
        by_contra hne
        refine hlog.inside ?_
        rw [hlogT]
        simp [hne]
      rw [h]
      exact hs.keep rfl (by simp [concerns]) (by simp) rfl rfl rfl hnone.symm fun _ => rfl
  | abandon x rest hx hd hstack h =>
      have hlogT : t.log = s.log ++ ([.abandoned (s.req x), .released (s.req x).serial] ++
          abandonObs (s.req x)) := (congrArg (·.log) h :)
      obtain ⟨hfin, hack⟩ := hlog.abandoned (s.req x) (by rw [hlogT]; simp)
      have hnone : abandonObs (s.req x) = [] := by simp [abandonObs, hfin]
      have hxw : x ∈ s.writes := by rw [hx]; exact mem_cons_self
      rw [h, hnone]
      refine hs.freed hbase (.inl hxw) rfl (fun n hn => ?_) (by simp) rfl rfl rfl ?_
      · simpa [concerns] using Ne.symm hn
      have hh := hs.untouched hbase hxw (by simp [stack, hstack])
      have hfinish : finishObs (s.req x) 0 = [] := by simp [finishObs, hfin]
      have hackObs : ackObs (s.req x) .ok = [] := by simp [ackObs, hack]
      refine ⟨0, .ok, .inl ?_⟩
      rw [hfinish, hackObs]
      exact history_next hh (history_released (n := (s.req x).serial))
  | fail x rest hx hd hstack h =>
      have hxa : x ∈ s.acks := by rw [hx]; exact mem_cons_self
      rw [h]
      refine hs.freed hbase (.inr hxa) rfl (fun n hn o ho => ?_) ?_ rfl rfl rfl ?_
      · rcases mem_append.mp ho with ho | ho
        · rw [mem_singleton.mp ho]
          exact beq_false_of_ne hn.symm
        · exact not_concerns_ackObs hn.symm o ho
      · unfold ackObs
        split <;> simp
      · obtain ⟨size, hh⟩ := hs.waiting hbase hxa (by simp [stack, hstack])
        refine ⟨size, .failed, .inr ?_⟩
        exact history_next hh (history_next history_released (history_ackObs .failed))
  | destroyed hd hstack hacks hwrites h =>
      have hlogT : t.log = s.log ++ [.destroyed] := (congrArg (·.log) h :)
      have hw : s.writes = [] := hwrites.resolve_right fun hin => hlog.late (by
        rw [hlogT]
        exact mem_append_left _ hin)
      rw [h]
      refine hs.blank (fun x => by simp [hw, hacks]) (fun x hx => ?_) rfl (by simp [concerns])
        (by simp) rfl
      exact hx.elim (fun h => by cases h) fun h => by cases h
  | disconnect hclosed h =>
      rw [h]
      exact hs.keep (l := []) (append_nil _).symm (by simp) (by simp) rfl rfl rfl rfl fun _ => rfl
  | connect hc h =>
      rw [h]
      exact hs.keep rfl (by simp [concerns]) (by simp) rfl rfl rfl rfl fun _ => rfl

theorem Orderly.of_prefix {log log' : List Obs} (h : Orderly log') (hp : log <+: log') :
    Orderly log := by
  obtain ⟨l, rfl⟩ := hp
  exact h.mono

theorem Path.ledger (h : Path s t) (hbase : Base s) (hlog : Orderly t.log) (hs : Ledger s) :
    Ledger t := by
  induction h with
  | refl => exact hs
  | step h rest ih =>
      exact ih (h.base hbase) hlog (h.ledger hbase (hlog.of_prefix rest.log_prefix) hs)

theorem Ledger.start (auto : Bool) : Ledger (Unix.start auto) where
  fresh := fun _ _ => rfl
  known := by simp [Unix.start]
  stage := by simp [Unix.start, writes, acks, MemSlotBase.init]
  fate := by simp [Unix.start]

theorem Ledger.begun (h : Ledger s) {r : CommEvUNIXWriteRequest} (hr : Obs.accepted r ∈ s.log) :
    ∃ whole, Complete r whole ∧ history r.serial s.log <+: whole := by
  rcases h.fate r hr with ⟨x, hx, hstub⟩ | ⟨-, hdone⟩
  · have hwhole : ∀ size code, Complete r (finishObs r size ++ (ackObs r code ++ [.released r.serial])) :=
      fun size code => ⟨size, code, .inl rfl⟩
    have hstage := h.stage x hx
    unfold Stage at hstage
    simp only [serial_of_stub hstub, finishObs_of_stub hstub, ackObs_of_stub hstub] at hstage
    rcases hstage with ⟨-, -, hh⟩ | ⟨size, ⟨-, hh⟩ | ⟨code, -, hh⟩ | ⟨-, -, hh⟩⟩
    · exact ⟨_, hwhole 0 .ok, hh ▸ nil_prefix⟩
    · exact ⟨_, hwhole size .ok, hh ▸ prefix_append _ _⟩
    · refine ⟨_, hwhole size code, ?_⟩
      rw [hh, ← append_assoc]
      exact prefix_append _ _
    · exact ⟨_, hwhole size .ok, hh ▸ prefix_append _ _⟩
  · exact ⟨_, hdone, prefix_refl _⟩

end Keep

/-- **The life of a request.**  In every orderly run of a framed client, every request
that was accepted is, between two events, pending with nothing done yet, or was
finished and waits for its acknowledgement, or went through everything: the finish
callback with the request and its own data, the ACK callback not before it, and the
release of its slot, each once. No assertion fails but those about descriptors, the
two about acknowledgements in particular; and a run that ends there, or in callbacks
without end, has done to every request a part of this. -/
theorem request_lifecycle (env : Env) (fuel : Nat) (auto : Bool) (evs : List Event) :
    Runs.Holds
      (fun c => Orderly c.log → ∀ r, Obs.accepted r ∈ c.log →
        (∃ x ∈ c.reqMemSlot.list pendingWrite, (c.req x).serial = r.serial ∧
          history r.serial c.log = []) ∨
        (∃ x ∈ c.reqMemSlot.list pendingAck, (c.req x).serial = r.serial ∧
          ∃ size, history r.serial c.log = finishObs r size) ∨
        Complete r (history r.serial c.log))
      (fun f c => Orderly c.log → (f = .badFd ∨ f = .stuck) ∧ ∀ r, Obs.accepted r ∈ c.log →
        ∃ whole, Complete r whole ∧ history r.serial c.log <+: whole)
      (runFrom env fuel auto evs) := by
  refine (runFrom_paths env fuel auto evs).mono (fun c hc hlog r hr => ?_)
    fun f c hc hlog => ⟨?_, fun r hr => ?_⟩
  · have hledger := hc.1.ledger (Base.start auto) hlog (Ledger.start auto)
    have hout : ∀ x acked, (x, acked) ∉ c.active := by simp [hc.2.active]
    rcases hledger.fate r hr with ⟨x, hx, hstub⟩ | ⟨-, hdone⟩
    · have hstage := hledger.stage x hx
      unfold Stage at hstage
      simp only [serial_of_stub hstub, finishObs_of_stub hstub, ackObs_of_stub hstub] at hstage
      rcases hstage with ⟨hw, -, hh⟩ | ⟨size, ⟨hin, -⟩ | ⟨code, hin, -⟩ | ⟨ha, -, hh⟩⟩
      · exact .inl ⟨x, hw, serial_of_stub hstub, hh⟩
      · exact absurd hin (hout _ _)
      · exact absurd hin (hout _ _)
      · exact .inr (.inl ⟨x, ha, serial_of_stub hstub, size, hh⟩)
    · exact .inr (.inr hdone)
  · have hblame := hc.2
    cases f with
    | badFd => exact .inl rfl
    | stuck => exact .inr rfl
    | useAfterFree => exact absurd hblame hlog.inside
    | slotInUse => exact absurd hblame hlog.late
    | ackWrongId => exact absurd hlog.owed hblame
    | ackNotInUse => exact absurd hlog.owed hblame
    | ackSlotInUse => exact hblame.elim
    | notInUse => exact hblame.elim
    | remainLeft => exact hblame.elim
    | scheduledNegative => exact hblame.elim
    | doubleFree => exact hblame.elim
  · exact (hc.1.ledger (Base.start auto) hlog (Ledger.start auto)).begun hr

/-- The kernel refuses everything, and the callbacks do nothing. -/
def refuseAll : Env where
  sendmsg _ := .failed
  bufferWriteSize _ := 100000
  onFinish _ := []
  onAck _ _ := []

/-- The client is disconnected while a request with both callbacks is queued. -/
def disconnectQueued : Config :=
  runFrom refuseAll 8 false
    [.user (.brbProtoWrite [1, 2, 3] [] true true 7 9), .user .disconnect]

/-- The finish callback is called with the request's data in the place of the request,
and the ACK callback is not called, though the slot was released. -/
theorem request_abandoned :
    disconnectQueued.fault.isNone = true ∧
    history 0 disconnectQueued.state.log =
      [.released 0, .finish 0 (-1) (.cbdata 7) .parent] ∧
    ∃ r, Obs.accepted r ∈ disconnectQueued.state.log ∧ r.serial = 0 ∧
      disconnectQueued.state.reqMemSlot.list pendingWrite = [] ∧
      disconnectQueued.state.reqMemSlot.list pendingAck = [] ∧
      ¬ Complete r (history 0 disconnectQueued.state.log) := by
  have hhist : history 0 disconnectQueued.state.log =
      [.released 0, .finish 0 (-1) (.cbdata 7) .parent] := by decide +kernel
  refine ⟨by decide +kernel, hhist, ?_⟩
  refine ⟨{ hasFinishCb := true, hasAckCb := true, finishCbdata := 7, ackCbdata := 9, data := [1, 2, 3]
            remain := 3, ctrlFlags := 5 }, by decide +kernel, rfl, by decide +kernel,
    by decide +kernel, ?_⟩
  rintro ⟨size, code, h | h⟩
  · rw [hhist] at h
    simp [finishObs] at h
  · rw [hhist] at h
    simp [finishObs] at h

end Unix
