import BrbFramework.Unix.Acts

/-!
# Every handler of the client is a path

Each handler is executed symbolically once. What is kept of it is the path of
acts it takes, that the callbacks it may invoke find the client in order, and
that the write event is armed again for the requests it leaves behind.

A callback may call the client again, and a callback that disconnects it takes
the buffers away from the handler it returns to. `Served` is what a call of the
upper layers does, in both cases.
-/

namespace Unix

open BrbData MemSlotBase Handler CommEvUNIXClient List

/-- Every acknowledgement that came had been asked for. -/
def AcksOwed (log : List Obs) : Prop :=
  ∀ l₁ x l₂, log = l₁ ++ Obs.acked x :: l₂ → x ∈ owed l₁

/-- What a fault says about the callers of the client, or about its peer. -/
def Blame (log : List Obs) : Fault → Prop
  | .badFd | .stuck => True
  | .useAfterFree => Obs.destroying true ∈ log
  | .slotInUse => Obs.granted true ∈ log
  | .ackWrongId | .ackNotInUse => ¬ AcksOwed log
  | .ackSlotInUse | .notInUse | .remainLeft | .scheduledNegative | .doubleFree => False

/-- Where a handler may abort after a path from `p`. -/
def Aborted (p : CommEvUNIXClient) (f : Fault) (t : CommEvUNIXClient) : Prop :=
  Path p t ∧ Blame t.log f

theorem Aborted.of_path {p s t : CommEvUNIXClient} {f : Fault} (h : Path p s)
    (ht : Aborted s f t) : Aborted p f t :=
  ⟨h.trans ht.1, ht.2⟩

/-- No acknowledgement slot that is free is in use. -/
structure AckFine (c : CommEvUNIXClient) : Prop where
  wf : c.ackMemSlot.WF
  free : ∀ y ∈ c.ackMemSlot.slots, (c.ackMemSlot.slotData y).inUse = false

/-- The pending requests but `x` are in use, or a handler works on them. -/
def SettledBut (x : Option Nat) (c : CommEvUNIXClient) : Prop :=
  c.destroying = false → ∀ y ∈ c.writes, (c.req y).inUse = true ∨ y ∈ c.stack ∨ some y = x

/-- The write event is armed unless handlers work on all pending requests but `x`. -/
def ArmedBut (x : Option Nat) (c : CommEvUNIXClient) : Prop :=
  c.connected = true → c.writeEvent = true ∨ ∀ y ∈ c.writes, y ∈ c.stack ∨ some y = x

abbrev Armed (c : CommEvUNIXClient) : Prop := ArmedBut none c

/-- The client between two steps of its handlers, while one decides about `x`. -/
structure ReadyBut (x : Option Nat) (c : CommEvUNIXClient) : Prop where
  base : Base c
  settled : SettledBut x c
  ackFine : AckFine c

abbrev Ready (c : CommEvUNIXClient) : Prop := ReadyBut none c

structure Same (s t : CommEvUNIXClient) : Prop where
  epoch : t.epoch = s.epoch
  active : t.active = s.active
  destroying : t.destroying = s.destroying

/-- The buffers were destroyed, which a handler that was under way has not survived. -/
structure Torn (s t : CommEvUNIXClient) : Prop where
  epoch : s.epoch < t.epoch
  active : t.active = []
  destroying : t.destroying = false
  inside : s.active ≠ [] ∨ s.destroying = true → Obs.destroying true ∈ t.log

structure Served (s t : CommEvUNIXClient) : Prop where
  path : Path s t
  ready : Ready t
  armed : Armed s → Armed t
  empty : Same s t → s.destroying = true → s.writes = [] →
    t.writes = [] ∨ Obs.granted true ∈ t.log
  rest : Same s t ∨ Torn s t

/-- Callbacks that do nothing but call the client. -/
structure Keeps (cbs : Callbacks) : Prop where
  finish : ∀ serial s, Ready s → Ends (cbs.finish serial) s (fun _ t => Served s t) (Aborted s)
  ack : ∀ serial code s, Ready s → Ends (cbs.ack serial code) s (fun _ t => Served s t) (Aborted s)

section Facts

variable {s t u : CommEvUNIXClient}

theorem Same.refl (s : CommEvUNIXClient) : Same s s := ⟨rfl, rfl, rfl⟩

theorem Same.trans (h : Same s t) (h' : Same t u) : Same s u :=
  ⟨h'.epoch.trans h.epoch, h'.active.trans h.active, h'.destroying.trans h.destroying⟩

theorem Served.refl (h : Ready s) : Served s s :=
  ⟨.refl s, h, id, fun _ _ => .inl, .inl (Same.refl s)⟩

theorem Served.epoch_le (h : Served s t) : s.epoch ≤ t.epoch := by
  rcases h.rest with hsame | htorn
  · exact Nat.le_of_eq hsame.epoch.symm
  · exact Nat.le_of_lt htorn.epoch

theorem Served.trans (h : Served s t) (h' : Served t u) : Served s u := by
  have hlog := h'.path.log_prefix
  refine ⟨h.path.trans h'.path, h'.ready, fun ha => h'.armed (h.armed ha), fun hsu hd hw => ?_, ?_⟩
  · -- nothing was destroyed in between
    have hst : Same s t := h.rest.resolve_right fun htorn => by
      have hlt := htorn.epoch
      have hle := h'.epoch_le
      have heq := hsu.epoch
      omega
    have htu : Same t u := ⟨hsu.epoch.trans hst.epoch.symm, hsu.active.trans hst.active.symm,
      hsu.destroying.trans hst.destroying.symm⟩
    rcases h.empty hst hd hw with hw | hlate
    · exact h'.empty htu (hst.destroying.trans hd) hw
    · exact .inr (hlog.subset hlate)
  · rcases h.rest with hsame | htorn <;> rcases h'.rest with hsame' | htorn'
    · exact .inl (hsame.trans hsame')
    · exact .inr ⟨hsame.epoch ▸ htorn'.epoch, htorn'.active, htorn'.destroying,
        fun hin => htorn'.inside (by rw [hsame.active, hsame.destroying]; exact hin)⟩
    · exact .inr ⟨hsame'.epoch ▸ htorn.epoch, hsame'.active.trans htorn.active,
        hsame'.destroying.trans htorn.destroying, fun hin => hlog.subset (htorn.inside hin)⟩
    · exact .inr ⟨htorn.epoch.trans htorn'.epoch, htorn'.active, htorn'.destroying,
        fun hin => hlog.subset (htorn.inside hin)⟩

theorem quiet_path (h : t.view = s.view) : Path s t := (Act.quiet h).path

end Facts

/-- A handler that moves no request and marks none as in use. -/
structure Steady (s t : CommEvUNIXClient) : Prop where
  path : Path s t
  same : Same s t
  list_eq : t.reqMemSlot.list = s.reqMemSlot.list
  inUse_eq : ∀ y, (t.req y).inUse = (s.req y).inUse
  ackFine : AckFine s → AckFine t
  pending_eq : t.pendingWriteRequest = s.pendingWriteRequest
  connected_eq : t.connected = s.connected
  event : s.writeEvent = true → t.writeEvent = true

namespace Steady

variable {s t u : CommEvUNIXClient} {x : Option Nat}

theorem refl (s : CommEvUNIXClient) : Steady s s :=
  ⟨.refl s, .refl s, rfl, fun _ => rfl, id, rfl, rfl, id⟩

theorem trans (h : Steady s t) (h' : Steady t u) : Steady s u :=
  ⟨h.path.trans h'.path, h.same.trans h'.same, h'.list_eq.trans h.list_eq,
    fun y => (h'.inUse_eq y).trans (h.inUse_eq y), fun hs => h'.ackFine (h.ackFine hs),
    h'.pending_eq.trans h.pending_eq, h'.connected_eq.trans h.connected_eq,
    fun hs => h'.event (h.event hs)⟩

theorem writes_eq (h : Steady s t) : t.writes = s.writes := by
  unfold writes
  rw [h.list_eq]

theorem stack_eq (h : Steady s t) : t.stack = s.stack := by
  unfold stack
  rw [h.same.active]

theorem settled (h : Steady s t) (hs : SettledBut x s) : SettledBut x t := by
  intro hd y hy
  rw [h.inUse_eq, h.stack_eq]
  exact hs (h.same.destroying ▸ hd) y (h.writes_eq ▸ hy)

theorem ready (h : Steady s t) (hs : ReadyBut x s) : ReadyBut x t :=
  ⟨h.path.base hs.base, h.settled hs.settled, h.ackFine hs.ackFine⟩

theorem armed (h : Steady s t) (hs : ArmedBut x s) : ArmedBut x t := by
  intro hc
  rw [h.writes_eq, h.stack_eq]
  exact (hs (h.connected_eq ▸ hc)).imp_left h.event

theorem fresh (h : Steady s t) {y : Nat} (hs : Fresh s y) : Fresh t y :=
  ⟨h.writes_eq ▸ hs.1, (h.inUse_eq y).trans hs.2.1, h.stack_eq ▸ hs.2.2⟩

theorem served (h : Steady s t) (hs : Ready s) : Served s t :=
  ⟨h.path, h.ready hs, h.armed, fun _ _ hw => .inl (h.writes_eq.trans hw), .inl h.same⟩

theorem of_view (h : t.view = s.view) (hack : t.ackMemSlot = s.ackMemSlot)
    (hevent : s.writeEvent = true → t.writeEvent = true) : Steady s t :=
  ⟨quiet_path h,
    ⟨(congrArg (·.epoch) h :), (congrArg (·.active) h :), (congrArg (·.destroying) h :)⟩,
    (congrArg (·.reqMemSlot.list) h :), fun y => (congrArg (fun c => (c.req y).inUse) h :),
    fun hs => ⟨hack ▸ hs.wf, hack ▸ hs.free⟩, (congrArg (·.pendingWriteRequest) h :),
    (congrArg (·.connected) h :), hevent⟩

theorem of_modify {f : CommEvUNIXWriteRequest → CommEvUNIXWriteRequest} {y : Nat} (hact : Act s t)
    (hsame : Same s t) (hpool : t.reqMemSlot = s.reqMemSlot.modifyData y f)
    (hf : ∀ r, (f r).inUse = r.inUse) (hack : t.ackMemSlot = s.ackMemSlot)
    (hpending : t.pendingWriteRequest = s.pendingWriteRequest)
    (hconnected : t.connected = s.connected)
    (hevent : s.writeEvent = true → t.writeEvent = true) : Steady s t :=
  ⟨hact.path, hsame, by rw [hpool]; rfl, fun z => by
    unfold CommEvUNIXClient.req
    rw [hpool]
    exact slotData_modifyData_view _ _ _ CommEvUNIXWriteRequest.inUse hf z,
    fun hs => ⟨hack ▸ hs.wf, hack ▸ hs.free⟩, hpending, hconnected, hevent⟩

end Steady

section Sending

variable {env : Env} {s : CommEvUNIXClient} {x : Nat}

@[simp] theorem ends_sendmsg {Q : SendResult → CommEvUNIXClient → Prop}
    {E : Fault → CommEvUNIXClient → Prop} :
    Ends (sendmsg env) s Q E ↔
      Q (if s.connected then env.sendmsg s.sends else .failed) { s with sends := s.sends + 1 } :=
  Iff.rfl

theorem sendPayload_steady {p : CommEvUNIXClient} (hp : Steady p s) (hs : Base s)
    (hx : x ∈ s.writes) (hstack : x ∉ s.stack) (hbegun : (s.req x).begun = true) :
    Ends (sendPayload env x) s (fun _ t => Steady p t ∧ (t.req x).begun = true)
      fun _ _ => False := by
  simp only [sendPayload, ends_bind, ends_sendmsg]
  cases if s.connected then env.sendmsg s.sends else .failed with
  | failed => exact ⟨hp.trans (.of_view rfl rfl id), hbegun⟩
  | sent n =>
      simp only [ends_bind, ends_get, ends_ite, ends_modify, ends_pure]
      refine ⟨fun hpos => ⟨?_, ?_⟩, fun _ => ⟨hp.trans (.of_view rfl rfl id), hbegun⟩⟩
      · refine hp.trans (.of_modify
          (f := fun req =>
            { req with
              offset := req.offset + min n (s.req x).remain.toNat
              remain := req.remain - (min n (s.req x).remain.toNat : Nat)
              seqId := req.seqId + 1 })
          (.payload x (min n (s.req x).remain.toNat) hx hstack hbegun ?_ hpos rfl)
          ⟨rfl, rfl, rfl⟩ rfl (fun _ => rfl) rfl rfl rfl id)
        have hform := hs.formed x (.inl hx)
        have hremain := hform.remain_eq
        have hoff := hform.offset_le
        omega
      · simp only [CommEvUNIXClient.req, CommEvUNIXClient.setReq, slotData_modifyData_self,
          CommEvUNIXWriteRequest.begun, Bool.or_eq_true, decide_eq_true_eq]
        exact .inr (Nat.add_pos_right _ hpos)

theorem ioWrite_steady (hs : Base s) (hx : x ∈ s.writes) (hstack : x ∉ s.stack)
    (hfirst : (s.pendingWriteRequest = false ∧ (s.req x).inUse = false) ∨
      (s.active = [] ∧ s.writes.head? = some x)) :
    Ends (ioWrite env x) s (fun n t => Steady s t ∧ (0 < n → (t.req x).begun = true))
      fun _ _ => False := by
  simp only [ioWrite, ends_bind, ends_get, ends_ite]
  refine ⟨fun hseq => ?_, fun hseq => ?_⟩
  · simp only [ends_bind, sendHeader, ends_sendmsg]
    cases if s.connected then env.sendmsg s.sends else .failed with
    | failed =>
        simp only [ends_pure]
        exact ⟨fun _ => ⟨.of_view rfl rfl id, fun hno => absurd hno (by decide)⟩,
          fun hno => absurd (by decide) hno⟩
    | sent n =>
        simp only [ends_bind, ends_ite, ends_modify, ends_pure]
        refine ⟨fun _ => ⟨fun _ => ⟨.of_view rfl rfl id, fun hno => absurd hno (by decide)⟩,
          fun hno => absurd (by decide) hno⟩, fun _ => ⟨fun hno => absurd hno (by decide),
          fun _ => ?_⟩⟩
        refine Ends.imp (sendPayload_steady (p := s) ?_ ?_ hx hstack ?_)
          (fun _ t ht => ⟨ht.1, fun _ => ht.2⟩)
        · exact .of_modify (f := fun req => { req with seqId := req.seqId + 1 })
            (.header x hx hstack hseq hfirst rfl) ⟨rfl, rfl, rfl⟩ rfl (fun _ => rfl) rfl rfl rfl id
        · exact (Act.header x hx hstack hseq hfirst rfl).base hs
        have hself : (s.reqMemSlot.modifyData x fun req =>
            { req with seqId := req.seqId + 1 }).slotData x =
              { s.req x with seqId := (s.req x).seqId + 1 } :=
          slotData_modifyData_self _ _ _
        have hone : (0 : UInt16) + 1 ≠ 0 := by decide
        simp only [CommEvUNIXWriteRequest.begun, CommEvUNIXClient.req, CommEvUNIXClient.setReq,
          hself, Bool.or_eq_true, decide_eq_true_eq]
        exact .inl (hseq ▸ hone)
  · exact (sendPayload_steady (.refl s) hs hx hstack
      (by simp [CommEvUNIXWriteRequest.begun, hseq])).imp fun _ t ht => ⟨ht.1, fun _ => ht.2⟩

theorem ioReplyACK_steady {p : CommEvUNIXClient} (hp : Steady p s) (y : Nat) :
    Ends (ioReplyACK env y) s (fun _ t => Steady p t ∧ t.ackMemSlot = s.ackMemSlot)
      fun _ _ => False := by
  simp only [ioReplyACK, sendHeader, ends_bind, ends_get, ends_sendmsg]
  cases if s.connected then env.sendmsg s.sends else .failed with
  | failed => exact ⟨hp.trans (.of_view rfl rfl id), rfl⟩
  | sent n =>
      simp only [ends_bind, ends_ite, ends_modify, ends_pure]
      refine ⟨fun _ => ⟨hp.trans (.of_view rfl rfl id), trivial⟩, fun _ => ⟨?_, trivial⟩⟩
      exact hp.trans ⟨(Act.ackHeader _ rfl).path, ⟨rfl, rfl, rfl⟩, rfl, fun _ => rfl,
        fun h => ⟨h.wf, h.free⟩, rfl, rfl, id⟩

@[simp] theorem ends_bufferTooSmall {Q : Bool → CommEvUNIXClient → Prop}
    {E : Fault → CommEvUNIXClient → Prop} :
    Ends (bufferTooSmall env x) s Q E ↔
      Q (decide (unsignedLong (if s.connected then env.bufferWriteSize s.queries else 0) <
        controlDataSz + maxFdArrSz * 4 + (s.req x).data.length + 64))
        { s with queries := s.queries + 1 } :=
  Iff.rfl

end Sending

section Work

variable {env : Env} {cbs : Callbacks} {b s : CommEvUNIXClient} {x : Nat} {acked : Bool}

/-- Since `b`, the handler has put `x` on the call stack. -/
structure Over (b : CommEvUNIXClient) (x : Nat) (acked : Bool) (s : CommEvUNIXClient) : Prop where
  path : Path b s
  ready : Ready s
  epoch : s.epoch = b.epoch
  active : s.active = (x, acked) :: b.active
  destroying : s.destroying = b.destroying
  armed : ArmedBut (some x) b → Armed s

/-- Since `b`, a handler has done what there was to do, with `x` and otherwise. -/
structure Done (x : Option Nat) (b s : CommEvUNIXClient) : Prop where
  path : Path b s
  ready : Ready s
  same : Same b s
  armed : ArmedBut x b → Armed s

theorem Done.steady {x : Option Nat} {u : CommEvUNIXClient} (h : Done x b s) (hu : Steady s u) :
    Done x b u :=
  ⟨h.path.trans hu.path, hu.ready h.ready, h.same.trans hu.same, fun ha => hu.armed (h.armed ha)⟩

theorem guarded_served {callback : M Unit} (hinside : s.active ≠ [] ∨ s.destroying = true)
    (h : Ends callback s (fun _ t => Served s t) (Aborted s)) :
    Ends (guarded callback) s (fun _ t => Served s t ∧ Same s t) (Aborted s) := by
  simp only [guarded, ends_bind, ends_get, ends_assertThat]
  refine h.imp fun _ t ht => ⟨fun heq => ?_, fun hne => ?_⟩
  · have heq : t.epoch = s.epoch := beq_iff_eq.mp heq
    refine ⟨ht, ht.rest.resolve_right fun htorn => ?_⟩
    exact absurd heq (Nat.ne_of_gt htorn.epoch)
  · rcases ht.rest with hsame | htorn
    · rw [hsame.epoch, beq_self_eq_true] at hne
      cases hne
    · exact ⟨ht.path, htorn.inside hinside⟩

theorem guarded_over (hactive : s.active ≠ []) {callback : M Unit}
    (h : Ends callback s (fun _ t => Served s t) (Aborted s)) (hs : Over b x acked s) :
    Ends (guarded callback) s (fun _ t => Over b x acked t) (Aborted b) := by
  refine (guarded_served (.inl hactive) h).mono (fun _ t ht => ?_) fun _ _ hf => hf.of_path hs.path
  obtain ⟨hserved, hsame⟩ := ht
  exact ⟨hs.path.trans hserved.path, hserved.ready, hsame.epoch.trans hs.epoch,
    hsame.active.trans hs.active, hsame.destroying.trans hs.destroying,
    fun ha => hserved.armed (hs.armed ha)⟩

theorem over_of_push {t : CommEvUNIXClient} (hb : Base b) (hpath : Path b t)
    (hsettled : SettledBut (some x) s) (hfine : AckFine s) (hsame : Same b s)
    (harmed : ArmedBut (some x) b → ArmedBut (some x) s) (hpool : t.reqMemSlot = s.reqMemSlot)
    (hack : t.ackMemSlot = s.ackMemSlot) (hconnected : t.connected = s.connected)
    (hevent : t.writeEvent = s.writeEvent) (hepoch : t.epoch = s.epoch)
    (hactive : t.active = (x, acked) :: s.active) (hd : t.destroying = s.destroying) :
    Over b x acked t := by
  have hwrites : t.writes = s.writes := by rw [writes, hpool]
  have hstack : t.stack = x :: s.stack := by rw [stack, hactive]; rfl
  have hout : ∀ y, y ∈ s.stack ∨ some y = some x → y ∈ t.stack := by
    intro y hy
    rw [hstack, mem_cons]
    exact (hy.imp_right fun heq => Option.some.inj heq).symm
  refine ⟨hpath, ⟨hpath.base hb, fun hds y hy => ?_, hack ▸ hfine.wf, hack ▸ hfine.free⟩,
    hepoch.trans hsame.epoch, by rw [hactive, hsame.active], hd.trans hsame.destroying,
    fun ha hc => ?_⟩
  · have hin := hsettled (hd ▸ hds) y (hwrites ▸ hy)
    rw [CommEvUNIXClient.req, hpool]
    exact hin.imp_right fun hin => .inl (hout y hin)
  · rw [hwrites, hevent]
    refine (harmed ha (hconnected ▸ hc)).imp_right fun hin y hy => .inl (hout y (hin y hy))

theorem invokeFinish_over (hcbs : Keeps cbs) (hb : Base b)
    (hsettled : SettledBut (some x) s) (hfine : AckFine s) (hsame : Same b s)
    (harmed : ArmedBut (some x) b → ArmedBut (some x) s) (size : Int)
    (hact : ∀ t : CommEvUNIXClient, t.view =
      { s.view with
        active := (x, false) :: s.active
        log := s.log ++ finishObs (s.req x) size } → Path b t) :
    Ends (invokeFinish cbs x size) s (fun _ t => Over b x false t) (Aborted b) := by
  simp only [invokeFinish, ends_bind, ends_get, ends_modify, ends_ite, ends_pure]
  refine ⟨fun hfin => ?_, fun hfin => ?_⟩
  · have hpath : Path b ({ s with active := (x, false) :: s.active }.record
        [.finish (s.req x).serial size (.request (s.req x).serial)
          (.cbdata (s.req x).finishCbdata)]) :=
      hact _ (by rw [finishObs, if_pos hfin]; rfl)
    have hover : Over b x false _ :=
      over_of_push hb hpath hsettled hfine hsame harmed rfl rfl rfl rfl rfl rfl rfl
    exact guarded_over (by simp [record]) (hcbs.finish _ _ hover.ready) hover
  · have hpath : Path b { s with active := (x, false) :: s.active } :=
      hact _ (by rw [finishObs, if_neg hfin, append_nil]; rfl)
    exact over_of_push hb hpath hsettled hfine hsame harmed rfl rfl rfl rfl rfl rfl rfl

theorem Over.leave {u : CommEvUNIXClient} (h : Over b x acked s) (hact : Act s u)
    (hwrites : u.writes = s.writes.erase x) (hreq : ∀ y, y ≠ x → u.req y = s.req y)
    (hactive : u.active = s.active.tail) (hack : u.ackMemSlot = s.ackMemSlot)
    (hconnected : u.connected = s.connected) (hevent : u.writeEvent = s.writeEvent)
    (hepoch : u.epoch = s.epoch) (hd : u.destroying = s.destroying) : Done (some x) b u := by
  have hnodup : s.writes.Nodup := h.ready.base.wf.list_nodup _
  have hmem : ∀ y, y ∈ u.writes → y ≠ x ∧ y ∈ s.writes := fun y hy => by
    rw [hwrites, hnodup.mem_erase_iff] at hy
    exact hy
  have hstack : ∀ y, y ≠ x → y ∈ s.stack → y ∈ u.stack := by
    intro y hne hy
    rw [stack, h.active, map_cons, mem_cons] at hy
    rw [stack, hactive, h.active]
    exact hy.resolve_left hne
  refine ⟨h.path.trans hact.path, ⟨hact.base h.ready.base, fun hds y hy => ?_,
    hack ▸ h.ready.ackFine.wf, hack ▸ h.ready.ackFine.free⟩,
    ⟨hepoch.trans h.epoch, by rw [hactive, h.active]; rfl, hd.trans h.destroying⟩, fun ha hc => ?_⟩
  · obtain ⟨hne, hy⟩ := hmem y hy
    rw [hreq y hne]
    refine (h.ready.settled (hd ▸ hds) y hy).imp_right (Or.imp_left (hstack y hne))
  · rw [hevent]
    refine (h.armed ha (hconnected ▸ hc)).imp_right fun hin y hy => ?_
    obtain ⟨hne, hy⟩ := hmem y hy
    exact (hin y hy).imp_left (hstack y hne)

theorem releaseReq_done (h : Over b x acked s)
    (hacked : acked = false → (s.req x).wantsAck = false) {E : Fault → CommEvUNIXClient → Prop} :
    Ends (releaseReq x) s (fun _ u => Done (some x) b u) E := by
  simp only [releaseReq, ends_modify]
  have hmem := h.ready.base.stack_mem (x, acked) (by rw [h.active]; exact mem_cons_self)
  refine h.leave (.release x acked b.active h.active hacked (by rw [view, h.active]; rfl)) ?_
    (fun y hy => ?_) rfl rfl rfl rfl rfl rfl
  · exact (lists_of_release h.ready.base (hmem.imp_right And.right) rfl).2.2.1
  · simp [CommEvUNIXClient.req, slotData_modifyData_of_ne _ _ _ hy]

theorem waitForAck_done (h : Over b x false s) (hwants : (s.req x).wantsAck = true)
    {E : Fault → CommEvUNIXClient → Prop} :
    Ends (waitForAck x) s (fun _ u => Done (some x) b u) E := by
  simp only [waitForAck, ends_modify]
  have hx : x ∈ s.writes := by
    have hmem := h.ready.base.stack_mem (x, false) (by rw [h.active]; exact mem_cons_self)
    exact hmem.resolve_right fun hno => by cases hno.1
  have hid : (s.req x).reqId = x := (h.ready.base.formed x (.inl hx)).reqId_eq
  rw [hid]
  refine h.leave (.wait x b.active h.active hwants (by rw [view, h.active]; rfl)) ?_
    (fun y hy => ?_) rfl rfl rfl rfl rfl rfl
  · exact (lists_of_wait h.ready.base hx rfl).2.1
  · simp [CommEvUNIXClient.req, slotData_modifyData_of_ne _ _ _ hy]

theorem written_done (hcbs : Keeps cbs) (hb : Base b)
    (hsettled : SettledBut (some x) s) (hfine : AckFine s) (hsame : Same b s)
    (harmed : ArmedBut (some x) b → ArmedBut (some x) s) (opStatus : Int)
    (hact : ∀ t : CommEvUNIXClient, t.view =
      { s.view with
        active := (x, false) :: s.active
        log := s.log ++ finishObs (s.req x) opStatus } → Path b t) :
    Ends (written cbs x opStatus) s (fun _ t => Done (some x) b t) (Aborted b) := by
  simp only [written, ends_bind, ends_get, ends_ite]
  refine (invokeFinish_over hcbs hb hsettled hfine hsame harmed opStatus hact).imp
    (fun _ t ht => ?_)
  refine ⟨fun hwants => waitForAck_done ht hwants, fun hwants => ?_⟩
  refine (releaseReq_done ht fun _ => Bool.not_eq_true _ ▸ hwants).imp fun _ u hu => ?_
  exact hu.steady (.of_view rfl rfl id)

end Work

section Submitting

variable {env : Env} {cbs : Callbacks} {b s : CommEvUNIXClient} {x : Nat}

theorem enqueueWrite_done (hs : ReadyBut (some x) s) (hx : Fresh s x) (h : Steady b s)
    {E : Fault → CommEvUNIXClient → Prop} :
    Ends (enqueueWrite x) s (fun _ t => Done (some x) b t) E := by
  simp only [enqueueWrite, ends_modify]
  obtain ⟨t, ht⟩ : ∃ t, { (s.setWriteEvent.setReq x fun req =>
        { req with inUse := true, wrote := false, txRetryCount := req.txRetryCount + 1 }) with
      reqScheduled := s.reqScheduled + 1
      pendingWriteRequest := true } = t := ⟨_, rfl⟩
  rw [ht]
  have hact : Act s t := .enqueue x hx (by rw [← ht]; rfl)
  have hpool : t.reqMemSlot = s.reqMemSlot.modifyData x fun req =>
      { req with inUse := true, wrote := false, txRetryCount := req.txRetryCount + 1 } := by
    rw [← ht]
    rfl
  have hwrites : t.writes = s.writes := by rw [writes, hpool]; rfl
  have hstack : t.stack = s.stack := by rw [← ht]; rfl
  have hack : t.ackMemSlot = s.ackMemSlot := by rw [← ht]; rfl
  have hd : t.destroying = s.destroying := by rw [← ht]; rfl
  refine ⟨h.path.trans hact.path, ⟨hact.base hs.base, fun hds y hy => ?_, hack ▸ hs.ackFine.wf,
    hack ▸ hs.ackFine.free⟩, h.same.trans (by rw [← ht]; exact ⟨rfl, rfl, rfl⟩), fun _ hc => .inl ?_⟩
  · rw [CommEvUNIXClient.req, hpool]
    by_cases hyx : y = x
    · rw [hyx, slotData_modifyData_self]
      exact .inl rfl
    · rw [slotData_modifyData_of_ne _ _ _ hyx, hstack]
      refine (hs.settled (hd ▸ hds) y (hwrites ▸ hy)).imp_right (Or.imp_right fun heq => ?_)
      exact absurd (Option.some.inj heq) hyx
  · have hevent : t.writeEvent = (s.writeEvent || s.connected) := by rw [← ht]; rfl
    have hconnected : t.connected = s.connected := by rw [← ht]; rfl
    rw [hevent, ← hconnected, hc, Bool.or_true]

theorem sendOrEnqueue_done (hcbs : Keeps cbs) (hs : ReadyBut (some x) s)
    (hx : Fresh s x) : Ends (sendOrEnqueue env cbs x) s (fun _ t => Done (some x) s t) (Aborted s) := by
  simp only [sendOrEnqueue, ends_bind, ends_get, ends_ite, ends_bufferTooSmall]
  have hquery : Steady s { s with queries := s.queries + 1 } := .of_view rfl rfl id
  refine ⟨fun _ => enqueueWrite_done hs hx (.refl s), fun hidle =>
    ⟨fun _ => enqueueWrite_done (hquery.ready hs) (hquery.fresh hx) hquery, fun _ => ?_⟩⟩
  have hpending : s.pendingWriteRequest = false := by
    rw [Bool.not_eq_true, Bool.or_eq_false_iff] at hidle
    exact hidle.1
  refine Ends.total (ioWrite_steady (hquery.ready hs).base hx.1 hx.2.2 (.inl ⟨hpending, hx.2.1⟩))
    (fun n t ht => ?_)
  obtain ⟨ht, hbegun⟩ := ht
  have ht : Steady s t := hquery.trans ht
  refine ⟨fun hpos => ⟨fun _ => enqueueWrite_done (ht.ready hs) (ht.fresh hx) ht, fun hrest => ?_⟩,
    fun _ => enqueueWrite_done (ht.ready hs) (ht.fresh hx) ht⟩
  obtain ⟨hxw, huse, hxs⟩ := ht.fresh hx
  have hbase := (ht.ready hs).base
  have hzero : (t.req x).remain = 0 := by
    have hform := hbase.formed x (.inl hxw)
    have hremain := hform.remain_eq
    have hoff := hform.offset_le
    omega
  simp only [ends_assertThat, decide_eq_true_eq, decide_eq_false_iff_not]
  refine ⟨fun _ => ?_, fun hno => absurd hzero hno⟩
  refine written_done hcbs hs.base (ht.ready hs).settled (ht.ready hs).ackFine ht.same ht.armed
    n fun u hu => ?_
  refine ht.path.trans (Act.finish x n hxw hxs (hbegun hpos) hzero ?_ ?_).path
  · have hsched : u.reqScheduled = t.reqScheduled := (congrArg (·.reqScheduled) hu :)
    exact hsched ▸ hbase.sched_nonneg
  · rw [hu, huse]
    simp [view]

theorem ioDataInit_done (hs : Ready s) {E : Fault → CommEvUNIXClient → Prop} :
    Ends ioDataInit s
      (fun _ t => Done none s t ∧ t.init = true ∧ t.log = s.log ∧ (s.writes = [] → t.writes = [])) E := by
  simp only [ioDataInit, ends_modify]
  split
  · rename_i hinit
    exact ⟨⟨.refl s, hs, .refl s, id⟩, hinit, rfl, id⟩
  · rename_i hinit
    have hact : Act s { s with
        reqMemSlot := .init {} 4096
        ackMemSlot := .init {} 4096
        init := true } := .initData (Bool.not_eq_true _ ▸ hinit) rfl
    refine ⟨⟨hact.path, ⟨hact.base hs.base, fun _ y hy => ?_, wf_init _ _, fun _ _ => rfl⟩,
      ⟨rfl, rfl, rfl⟩, fun _ _ => .inr fun y hy => ?_⟩, rfl, rfl, fun _ => rfl⟩
    · exact absurd hy not_mem_nil
    · exact absurd hy not_mem_nil

theorem accept_done (hcbs : Keeps cbs) (hs : Ready s) {pool : MemSlotBase CommEvUNIXWriteRequest}
    {req : CommEvUNIXWriteRequest} (hinit : s.init = true)
    (hgrab : s.reqMemSlot.slotGrab = some (x, pool))
    (hlate : s.destroying = true → Obs.granted true ∈ s.log) (hserial : req.serial = s.created)
    (hid : req.reqId = x) (hoff : req.offset = 0) (hseq : req.seqId = 0)
    (hremain : req.remain = req.data.length) (huse : req.inUse = false)
    (hdata : req.data.length ≤ maxWriteSize) (hfds : req.fdArr.length ≤ maxFdArrSz)
    (hflags : req.ctrlFlags = flagRequest + if req.wantsAck then flagWantAck else 0) :
    Ends (sendOrEnqueue env cbs x)
      { s with
        reqMemSlot := pool.modifyData x fun _ => req
        created := s.created + 1
        log := s.log ++ [.accepted req] }
      (fun _ t => Done none s t) (Aborted s) := by
  have hbase := hs.base
  have hact : Act s { s with
      reqMemSlot := pool.modifyData x fun _ => req
      created := s.created + 1
      log := s.log ++ [.accepted req] } :=
    .accept x pool req hinit hgrab
      (fun hd y hy => (hs.settled hd y hy).imp_right fun h => h.resolve_right nofun) hlate hserial
      hid hoff hseq hremain huse hdata hfds hflags rfl
  have hnew : x ∉ s.writes := hbase.wf.slotGrab_fresh hgrab _
  have hnotS : x ∉ s.stack := by
    intro hin
    obtain ⟨e, he, rfl⟩ := mem_map.mp hin
    rcases hbase.stack_mem e he with hw | ⟨-, ha⟩
    · exact hnew hw
    · exact hbase.wf.slotGrab_fresh hgrab _ ha
  obtain ⟨u, hu⟩ : ∃ u, { s with
      reqMemSlot := pool.modifyData x fun _ => req
      created := s.created + 1
      log := s.log ++ [Obs.accepted req] } = u := ⟨_, rfl⟩
  rw [hu] at hact ⊢
  have hwrites : u.writes = s.writes ++ [x] := by
    rw [← hu, writes, modifyData_list]
    exact slotGrab_list_zero hgrab
  have hself : u.req x = req := by
    rw [← hu]
    simp [CommEvUNIXClient.req]
  have hother : ∀ y, y ≠ x → u.req y = s.req y := fun y hy => by
    rw [← hu]
    simp [CommEvUNIXClient.req, slotData_modifyData_of_ne _ _ _ hy, slotGrab_data hgrab]
  have hstack : u.stack = s.stack := by rw [← hu]
  have hsame : Same s u := by rw [← hu]; exact ⟨rfl, rfl, rfl⟩
  have hfresh : Fresh u x := by
    refine ⟨by rw [hwrites]; simp, ?_, hstack ▸ hnotS⟩
    rw [hself]
    exact huse
  have hready : ReadyBut (some x) u := by
    refine ⟨hact.base hbase, fun hd y hy => ?_, ?_⟩
    · rw [hwrites, mem_append, mem_singleton] at hy
      by_cases hyx : y = x
      · exact .inr (.inr (congrArg some hyx))
      · rw [hother y hyx, hstack]
        exact (hs.settled (hsame.destroying ▸ hd) y (hy.resolve_right hyx)).imp_right
          (Or.imp_right nofun)
    · rw [← hu]
      exact ⟨hs.ackFine.wf, hs.ackFine.free⟩
  refine (sendOrEnqueue_done hcbs hready hfresh).mono (fun _ v hv => ?_)
    fun _ _ hf => hf.of_path hact.path
  refine ⟨hact.path.trans hv.path, hv.ready, hsame.trans hv.same, fun ha => hv.armed fun hc => ?_⟩
  have hevent : u.writeEvent = s.writeEvent := by rw [← hu]
  have hc : s.connected = true := by
    rw [← hu] at hc
    exact hc
  rw [hevent, hstack, hwrites]
  refine (ha hc).imp_right fun hin y hy => ?_
  rcases mem_append.mp hy with hy | hy
  · exact .inl ((hin y hy).resolve_right nofun)
  · exact .inr (congrArg some (mem_singleton.mp hy))

theorem aioBrbProtoWrite_done (hcbs : Keeps cbs) (hs : Ready s)
    (data : List UInt8) (fdArr : List Int) (hasFinishCb hasAckCb : Bool)
    (finishCbdata ackCbdata : Nat) :
    Ends (aioBrbProtoWrite env cbs data fdArr hasFinishCb hasAckCb finishCbdata ackCbdata) s
      (fun _ t => Done none s t ∧ (s.destroying = true → s.writes = [] →
        t.writes = [] ∨ Obs.granted true ∈ t.log)) (Aborted s) := by
  have hstay : Done none s s ∧ (s.destroying = true → s.writes = [] →
      s.writes = [] ∨ Obs.granted true ∈ s.log) := ⟨⟨.refl s, hs, .refl s, id⟩, fun _ => .inl⟩
  simp only [aioBrbProtoWrite, ends_bind, ends_get, ends_ite, ends_pure]
  refine ⟨fun _ => hstay, fun hdata => ⟨fun _ => hstay, fun hfds => ⟨fun _ => hstay, fun _ => ?_⟩⟩⟩
  refine (ioDataInit_done hs).imp fun _ t ht => ?_
  obtain ⟨hdone, hinit, -, hempty⟩ := ht
  cases hgrab : t.reqMemSlot.slotGrab with
  | none => exact ⟨hdone, fun _ hw => .inl (hempty hw)⟩
  | some granted =>
      obtain ⟨x, pool⟩ := granted
      simp only [ends_bind, ends_assertThat, ends_modify, ends_pure]
      have hact : Act t (t.record [.granted t.destroying]) := .granted rfl
      obtain ⟨u, hu⟩ : ∃ u, t.record [.granted t.destroying] = u := ⟨_, rfl⟩
      have hlate : u.destroying = true → Obs.granted true ∈ u.log := by
        intro hd
        have hd : t.destroying = true := by
          rw [← hu] at hd
          exact hd
        rw [← hu, record, hd]
        exact mem_append_right _ mem_cons_self
      have hpool : u.reqMemSlot = t.reqMemSlot := by rw [← hu]; rfl
      have hready : Ready u := by
        rw [← hu]
        exact ⟨hact.base hdone.ready.base, hdone.ready.settled,
          ⟨hdone.ready.ackFine.wf, hdone.ready.ackFine.free⟩⟩
      have hsame : Same t u := by rw [← hu]; exact ⟨rfl, rfl, rfl⟩
      have harmed : Armed t → Armed u := fun ha hc => by
        rw [← hu] at hc ⊢
        exact ha hc
      rw [hu] at hact ⊢
      have hgrabU : u.reqMemSlot.slotGrab = some (x, pool) := hpool ▸ hgrab
      have hbase := hready.base
      have hdataEq : pool.slotData x = u.req x := slotGrab_data hgrabU x
      have hpath : Path s u := hdone.path.trans hact.path
      refine ⟨fun _ => ⟨fun _ => ?_, fun _ => ⟨hpath, trivial⟩⟩, fun huse => ⟨hpath, ?_⟩⟩
      · have hcreated : t.created = u.created := by rw [← hu]; rfl
        rw [hcreated]
        refine Ends.mono (accept_done hcbs hready (by rw [← hu]; exact hinit) hgrabU hlate rfl
          (slotGrab_id hgrabU) rfl rfl rfl rfl (Nat.le_of_not_lt hdata) (Nat.le_of_not_lt hfds) rfl)
          (fun _ v hv => ⟨?_, fun hd hw => ?_⟩) fun _ _ hf => hf.of_path hpath
        · have hend : Done none s v := ⟨hpath.trans hv.path, hv.ready,
            hdone.same.trans (hsame.trans hv.same), fun ha => hv.armed (harmed (hdone.armed ha))⟩
          exact hend.steady (.of_view rfl rfl id)
        · refine .inr (hv.path.log_prefix.subset (hlate ?_))
          exact hsame.destroying.trans (hdone.same.destroying.trans hd)
      · have huse : (u.req x).inUse = true := by
          rw [← hdataEq]
          simpa using huse
        cases hd : u.destroying with
        | false =>
            rw [hbase.free hd x (hbase.wf.slotGrab_fresh hgrabU _)
              (hbase.wf.slotGrab_fresh hgrabU _)] at huse
            cases huse
        | true => exact hlate hd

end Submitting

section Acknowledging

variable {env : Env} {s : CommEvUNIXClient}

theorem AckFine.modify {c : CommEvUNIXClient} (h : AckFine c) {y : Nat}
    (hy : y ∉ c.ackMemSlot.slots) (f : CommEvUNIXACKReply → CommEvUNIXACKReply)
    {t : CommEvUNIXClient} (ht : t.ackMemSlot = c.ackMemSlot.modifyData y f) : AckFine t := by
  refine ⟨ht ▸ h.wf.modifyData y f, fun z hz => ?_⟩
  rw [ht] at hz ⊢
  have hne : z ≠ y := fun heq => hy (heq ▸ hz)
  rw [slotData_modifyData_of_ne _ _ _ hne]
  exact h.free z hz

theorem AckFine.release {c : CommEvUNIXClient} (h : AckFine c) {y : Nat}
    (hy : y ∈ c.ackMemSlot.list pendingWrite) {f : CommEvUNIXACKReply → CommEvUNIXACKReply}
    (hf : (f (c.ackMemSlot.slotData y)).inUse = false) {t : CommEvUNIXClient}
    (ht : t.ackMemSlot = (c.ackMemSlot.modifyData y f).slotFree y) : AckFine t := by
  have hwf := h.wf.modifyData y f
  have hy : y ∈ (c.ackMemSlot.modifyData y f).list pendingWrite := hy
  refine ⟨ht ▸ hwf.slotFree hy, fun z hz => ?_⟩
  rw [ht] at hz ⊢
  rw [hwf.slotFree_slots hy, modifyData_slots] at hz
  rw [slotFree_data]
  by_cases hzy : z = y
  · rw [hzy, slotData_modifyData_self]
    exact hf
  · rw [slotData_modifyData_of_ne _ _ _ hzy]
    exact h.free z ((mem_cons.mp hz).resolve_left hzy)

theorem Steady.of_ack {t : CommEvUNIXClient} (h : t.view = s.view)
    (hack : AckFine s → AckFine t) (hevent : s.writeEvent = true → t.writeEvent = true) :
    Steady s t :=
  ⟨quiet_path h,
    ⟨(congrArg (·.epoch) h :), (congrArg (·.active) h :), (congrArg (·.destroying) h :)⟩,
    (congrArg (·.reqMemSlot.list) h :), fun y => (congrArg (fun c => (c.req y).inUse) h :), hack,
    (congrArg (·.pendingWriteRequest) h :), (congrArg (·.connected) h :), hevent⟩

theorem setWriteEvent_event (h : s.writeEvent = true) :
    s.setWriteEvent.writeEvent = true := by
  rw [setWriteEvent, h, Bool.true_or]

theorem aioBrbProtoACK_done (hs : Ready s) (reqId : Int32) :
    Ends (aioBrbProtoACK env reqId) s
      (fun _ t => Done none s t ∧ (s.writes = [] → t.writes = [])) (Aborted s) := by
  simp only [aioBrbProtoACK, ends_bind, ends_get]
  refine (ioDataInit_done hs).imp fun _ t ht => ?_
  obtain ⟨hdone, -, -, hempty⟩ := ht
  have hfine := hdone.ready.ackFine
  cases hgrab : t.ackMemSlot.slotGrab with
  | none => exact ⟨hdone, hempty⟩
  | some granted =>
      obtain ⟨y, pool⟩ := granted
      have hslots : t.ackMemSlot.slots = y :: pool.slots := (slotGrab_eq_some hgrab).1
      have hin : y ∈ pool.list pendingWrite := by
        rw [pendingWrite, slotGrab_list_zero hgrab]
        simp
      have hfree : (pool.slotData y).inUse = false := by
        rw [slotGrab_data hgrab]
        exact hfine.free y (by rw [hslots]; exact mem_cons_self)
      have hgone : y ∉ pool.slots := by
        have hnodup := hfine.wf.free_nodup
        rw [hslots, nodup_cons] at hnodup
        exact hnodup.1
      have hpool : AckFine { t with ackMemSlot := pool } := by
        refine ⟨hfine.wf.slotGrab hgrab, fun z hz => ?_⟩
        have hz : z ∈ pool.slots := hz
        have hdata : pool.slotData z = t.ackMemSlot.slotData z := slotGrab_data hgrab z
        change (pool.slotData z).inUse = false
        rw [hdata]
        exact hfine.free z (by rw [hslots]; exact mem_cons_of_mem _ hz)
      obtain ⟨u, hu⟩ : ∃ u, { t with ackMemSlot := pool.modifyData y fun _ => { reqId } } = u :=
        ⟨_, rfl⟩
      have hack : u.ackMemSlot = pool.modifyData y fun _ => { reqId } := by rw [← hu]
      have hfineU : AckFine u := hpool.modify hgone _ hack
      have hsteady : Steady t u := .of_ack (by rw [← hu]; rfl) (fun _ => hfineU)
        (by rw [← hu]; exact id)
      have hend : ∀ {v}, Steady u v → Done none s v ∧ (s.writes = [] → v.writes = []) :=
        fun hv => ⟨hdone.steady (hsteady.trans hv), fun hw =>
          (hv.writes_eq.trans hsteady.writes_eq).trans (hempty hw)⟩
      have henqueue : ∀ {v : CommEvUNIXClient}, Steady u v → v.ackMemSlot = u.ackMemSlot →
          Steady u { v.setWriteEvent with
            ackMemSlot := v.ackMemSlot.modifyData y fun ack =>
              { ack with inUse := true, txRetryCount := ack.txRetryCount + 1 }
            pendingWriteAck := true } := by
        intro v hv hsame
        have hgoneV : y ∉ v.ackMemSlot.slots := by
          rw [hsame, hack]
          exact hgone
        exact hv.trans (.of_ack rfl (fun h => h.modify hgoneV (fun ack =>
          { ack with inUse := true, txRetryCount := ack.txRetryCount + 1 }) rfl)
          setWriteEvent_event)
      simp only [ends_bind, ends_assertThat, ends_set]
      refine ⟨fun _ => ?_, fun huse => ?_⟩
      · rw [hu]
        simp only [ends_ite, ends_bind, ends_modify, ends_pure]
        refine ⟨fun _ => hend (henqueue (.refl u) rfl), fun _ => ?_⟩
        refine (ioReplyACK_steady (.refl u) y).total fun n v hv => ?_
        obtain ⟨hv, hsame⟩ := hv
        refine ⟨fun _ => hend (hv.trans ?_), fun _ => hend (henqueue hv hsame)⟩
        have hself : (v.ackMemSlot.slotData y).inUse = false := by
          rw [hsame, hack, slotData_modifyData_self]
        refine .of_ack rfl (fun h => ?_) id
        refine h.release (f := id) (by rw [hsame, hack]; exact hin) hself ?_
        simp [modifyData]
      · rw [hfree] at huse
        cases huse

theorem writeACKLoop_steady (canWriteSz : Int) (rest : List Nat) :
    ∀ {b s : CommEvUNIXClient} (total : Int), Steady b s → AckFine s → rest.Nodup →
      (∀ y ∈ rest, y ∈ s.ackMemSlot.list pendingWrite) →
      Ends (writeACKLoop env canWriteSz total rest) s (fun _ t => Steady b t)
        fun _ _ => False := by
  induction rest with
  | nil =>
      intro b s total hs _ _ _
      simp only [writeACKLoop, ends_bind, ends_ite, ends_modify, ends_pure]
      exact ⟨fun _ => hs.trans (.of_view rfl rfl id), fun _ => hs⟩
  | cons y rest ih =>
      intro b s total hs hfine hnodup hmem
      obtain ⟨hy, hnodup⟩ := nodup_cons.mp hnodup
      have hin := hmem y mem_cons_self
      simp only [writeACKLoop, ends_bind, ends_ite, ends_modify, ends_pure]
      refine ⟨fun _ => hs.trans (.of_view rfl rfl setWriteEvent_event), fun _ => ?_⟩
      refine (ioReplyACK_steady hs y).total fun n t ht => ?_
      obtain ⟨ht, hack⟩ := ht
      have hfineT : AckFine t := ⟨hack ▸ hfine.wf, hack ▸ hfine.free⟩
      have hinT : y ∈ t.ackMemSlot.list pendingWrite := hack ▸ hin
      refine ⟨fun _ => ?_, fun _ => ?_⟩
      · have hrelease := hfineT.release (f := fun ack => { ack with inUse := false }) hinT rfl
          (t := { t with
            ackMemSlot := (t.ackMemSlot.modifyData y fun ack =>
              { ack with inUse := false }).slotFree y }) rfl
        refine ih _ (ht.trans (.of_ack rfl (fun _ => hrelease) id)) hrelease hnodup fun z hz => ?_
        have hz' : z ∈ t.ackMemSlot.list pendingWrite := hack ▸ hmem z (mem_cons_of_mem _ hz)
        have hlist := (hfineT.wf.modifyData y fun ack =>
          { ack with inUse := false }).slotFree_list (l := pendingWrite) hinT
        rw [hlist, Function.update_self]
        have hne : z ≠ y := fun heq => hy (heq ▸ hz)
        exact (mem_erase_of_ne hne).mpr hz'
      · have hgone : y ∉ t.ackMemSlot.slots := fun hfree =>
          hfineT.wf.free_unlinked y hfree _ hinT
        exact ht.trans (.of_ack rfl (fun h => h.modify hgone (fun ack =>
          { ack with inUse := true, txRetryCount := ack.txRetryCount + 1 }) rfl)
          setWriteEvent_event)

theorem eventBrbProtoWriteACK_steady (hfine : AckFine s) (canWriteSz : Int) :
    Ends (eventBrbProtoWriteACK env canWriteSz) s (fun _ t => Steady s t) fun _ _ => False := by
  simp only [eventBrbProtoWriteACK, ends_bind, ends_get]
  exact writeACKLoop_steady canWriteSz _ 0 (.refl s) hfine (hfine.wf.list_nodup _) fun _ hy => hy

end Acknowledging

section Serving

variable {env : Env} {cbs : Callbacks} {b s : CommEvUNIXClient} {x : Nat}

theorem autoCloseLocalDescriptors_steady (h : Path b s) :
    Ends (autoCloseLocalDescriptors x) s (fun _ t => Steady s t) (Aborted b) := by
  simp only [autoCloseLocalDescriptors, ends_bind, ends_get, ends_assertThat, ends_modify]
  refine ⟨fun _ => ?_, fun _ => ⟨h, trivial⟩⟩
  exact .of_modify (f := fun req => { req with fdArr := req.fdArr.map fun _ => -1 })
    (.touch x (fun req => { req with fdArr := req.fdArr.map fun _ => -1 })
      (fun req => by simp [CommEvUNIXWriteRequest.core]) rfl) ⟨rfl, rfl, rfl⟩ rfl
    (fun _ => rfl) rfl rfl rfl id

theorem Over.steady {acked : Bool} {t : CommEvUNIXClient} (h : Over b x acked s)
    (ht : Steady s t) : Over b x acked t :=
  ⟨h.path.trans ht.path, ht.ready h.ready, ht.same.epoch.trans h.epoch,
    ht.same.active.trans h.active, ht.same.destroying.trans h.destroying,
    fun ha => ht.armed (h.armed ha)⟩

theorem invokeAck_over (hcbs : Keeps cbs) (hb : Base b) {acked : Bool}
    (hsettled : SettledBut none s) (hfine : AckFine s) (hepoch : s.epoch = b.epoch)
    (hactive : s.active = (x, acked) :: b.active) (hd : s.destroying = b.destroying)
    (harmed : ArmedBut (some x) b → Armed s) (code : AckCode)
    (hact : ∀ t : CommEvUNIXClient, t.view =
      { s.view with
        active := (x, true) :: b.active
        log := s.log ++ ackObs (s.req x) code } → Path b t) :
    Ends (invokeAck cbs x code) s (fun _ t => Over b x true t) (Aborted b) := by
  have hover : ∀ t : CommEvUNIXClient, Path b t → t.reqMemSlot = s.reqMemSlot →
      t.ackMemSlot = s.ackMemSlot → t.connected = s.connected → t.writeEvent = s.writeEvent →
      t.epoch = s.epoch → t.active = (x, true) :: s.active.tail → t.destroying = s.destroying →
      Over b x true t := by
    intro t hpath hpool hack hconnected hevent hepochT hactiveT hdT
    have hwrites : t.writes = s.writes := by rw [writes, hpool]
    have hstack : t.stack = s.stack := by rw [stack, hactiveT, stack, hactive]; rfl
    refine ⟨hpath, ⟨hpath.base hb, fun hds y hy => ?_, hack ▸ hfine.wf, hack ▸ hfine.free⟩,
      hepochT.trans hepoch, by rw [hactiveT, hactive]; rfl, hdT.trans hd, fun ha hc => ?_⟩
    · rw [CommEvUNIXClient.req, hpool, hstack]
      exact hsettled (hdT ▸ hds) y (hwrites ▸ hy)
    · rw [hwrites, hevent, hstack]
      exact harmed ha (hconnected ▸ hc)
  have hclose : ∀ t, Over b x true t → Ends (do
      if ((← get).req x).autocloseOnAck then autoCloseLocalDescriptors x) t
      (fun _ t => Over b x true t) (Aborted b) := by
    intro t ht
    simp only [ends_bind, ends_get, ends_ite, ends_pure]
    refine ⟨fun _ => ?_, fun _ => ht⟩
    exact (autoCloseLocalDescriptors_steady ht.path).imp fun _ u hu => ht.steady hu
  simp only [invokeAck, ends_bind, ends_get, ends_modify, ends_ite, ends_pure]
  refine ⟨fun hcb => ?_, fun hcb => ?_⟩
  · have hpath : Path b ({ s with active := (x, true) :: s.active.tail }.record
        [.ack (s.req x).serial code]) :=
      hact _ (by rw [ackObs, if_pos hcb, hactive]; rfl)
    have hstart : Over b x true _ := hover _ hpath rfl rfl rfl rfl rfl rfl rfl
    refine Ends.imp (guarded_over (by simp [record]) (hcbs.ack _ _ _ hstart.ready) hstart)
      (fun _ t ht => ?_)
    have h := hclose t ht
    simp only [ends_bind, ends_get, ends_ite, ends_pure] at h
    exact h
  · have hpath : Path b { s with active := (x, true) :: s.active.tail } :=
      hact _ (by rw [ackObs, if_neg hcb, hactive, append_nil]; rfl)
    have hstart : Over b x true _ := hover _ hpath rfl rfl rfl rfl rfl rfl rfl
    have h := hclose _ hstart
    simp only [ends_bind, ends_get, ends_ite, ends_pure] at h
    exact h

theorem setEvents_steady (s : CommEvUNIXClient) : Steady s s.setWriteEvent.setReadEvent :=
  .of_view rfl rfl setWriteEvent_event

theorem armed_of_setWriteEvent {t : CommEvUNIXClient} (hc : t.connected = s.connected)
    (he : t.writeEvent = s.setWriteEvent.writeEvent) : Armed t := by
  intro hconnected
  left
  rw [he, setWriteEvent, ← hc, hconnected, Bool.or_true]

theorem txRetry_steady {E : Fault → CommEvUNIXClient → Prop} :
    Ends (txRetry x) s (fun _ t => Steady s t ∧ Armed t) E := by
  simp only [txRetry, ends_modify]
  refine ⟨.of_modify (f := fun req => { req with txRetryCount := req.txRetryCount + 1 })
    (.touch x (fun req => { req with txRetryCount := req.txRetryCount + 1 }) (fun _ => rfl) rfl)
    ⟨rfl, rfl, rfl⟩ rfl (fun _ => rfl) rfl rfl rfl setWriteEvent_event, ?_⟩
  exact armed_of_setWriteEvent (s := s) rfl rfl

theorem drop_done (hcbs : Keeps cbs) (hb : Base b) (hs : Ready s)
    (hbs : Steady b s) (hx : x ∈ s.writes) (hstack : x ∉ s.stack) (opStatus : Int) :
    Ends (drop cbs x opStatus) s (fun _ t => Done (some x) b t ∧ Armed t) (Aborted b) := by
  simp only [drop, ends_bind, ends_modify]
  refine (invokeFinish_over (s := s.record [.dropped (s.req x).serial (s.req x).begun]) hcbs hb
    (fun hd y hy => ?_) ⟨hs.ackFine.wf, hs.ackFine.free⟩ ?_ ?_ opStatus fun t ht => ?_).imp
    (fun _ t ht => ?_)
  · exact (hs.settled hd y hy).imp_right (Or.imp_right (by simp))
  · exact ⟨hbs.same.epoch, hbs.same.active, hbs.same.destroying⟩
  · intro ha hc
    exact hbs.armed ha hc
  · refine hbs.path.trans (Act.drop x opStatus hx hstack ?_).path
    rw [ht]
    simp only [record, view, append_assoc]
    rfl
  refine Ends.imp (invokeAck_over hcbs hb ht.ready.settled ht.ready.ackFine ht.epoch ht.active
    ht.destroying ht.armed .failed fun u hu => ?_) (fun _ u hu => ?_)
  · exact ht.path.trans (Act.ackDropped x b.active ht.active hu).path
  refine (releaseReq_done hu (by simp)).imp fun _ v hv => ?_
  exact ⟨hv.steady (setEvents_steady v), armed_of_setWriteEvent (s := v) rfl rfl⟩

theorem eventBrbProtoWriteLoop_done (hcbs : Keeps cbs) (canWriteSz : Int) (fuel : Nat) :
    ∀ {s : CommEvUNIXClient} (total : Int), Ready s → s.active = [] → s.destroying = false →
      Ends (eventBrbProtoWriteLoop env cbs canWriteSz fuel total) s
        (fun _ t => Path s t ∧ Ready t ∧ Same s t ∧ Armed t) (Aborted s) := by
  induction fuel with
  | zero =>
      intro s total _ _ _
      exact ⟨.refl s, trivial⟩
  | succ fuel ih =>
      intro s total hs hactive hd
      simp only [eventBrbProtoWriteLoop, ends_bind, ends_get, ends_ite]
      have hsteady : ∀ {t}, Steady s t → Armed t → Path s t ∧ Ready t ∧ Same s t ∧ Armed t :=
        fun ht ha => ⟨ht.path, ht.ready hs, ht.same, ha⟩
      refine ⟨fun _ => ?_, fun _ => ?_⟩
      · refine (eventBrbProtoWriteACK_steady hs.ackFine canWriteSz).total fun _ t ht => ?_
        simp only [ends_modify, ends_pure]
        exact hsteady (ht.trans (.of_view rfl rfl setWriteEvent_event))
          (armed_of_setWriteEvent (s := t) rfl rfl)
      · cases hlist : s.reqMemSlot.list pendingWrite with
        | nil =>
            simp only [ends_bind, ends_ite, ends_modify, ends_pure]
            refine (eventBrbProtoWriteACK_steady hs.ackFine canWriteSz).total fun _ t ht => ?_
            have hnone : t.writes = [] := ht.writes_eq.trans hlist
            have harmed : ∀ {u : CommEvUNIXClient}, u.writes = [] → Armed u := fun hu _ =>
              .inr fun y hy => by
                rw [hu] at hy
                cases hy
            refine ⟨fun _ => ?_, fun _ => hsteady ht (harmed hnone)⟩
            have hready := ht.ready hs
            have hact : Act t { t with pendingWriteRequest := false } := .idle hnone rfl
            refine ⟨ht.path.trans hact.path, ⟨hact.base hready.base, fun hds y hy => ?_,
              hready.ackFine.wf, hready.ackFine.free⟩,
              ⟨ht.same.epoch, ht.same.active, ht.same.destroying⟩, harmed hnone⟩
            exact hready.settled hds y hy
        | cons x rest =>
            have hx : x ∈ s.writes := by
              rw [writes, hlist]
              exact mem_cons_self
            have hstack : x ∉ s.stack := by simp [stack, hactive]
            have huse : (s.req x).inUse = true := by
              refine (hs.settled hd x hx).resolve_right fun hno => ?_
              exact hno.elim hstack (by simp)
            simp only [ends_bind, ends_ite, ends_modify, ends_pure, ends_bufferTooSmall, ends_get,
              ends_assertThat]
            have hquery : Steady s { s with queries := s.queries + 1 } := .of_view rfl rfl id
            refine ⟨fun _ => hsteady (.of_view rfl rfl setWriteEvent_event)
              (armed_of_setWriteEvent (s := s) rfl rfl), fun _ => ⟨fun _ => ?_, fun _ => ?_⟩⟩
            · exact hsteady (hquery.trans (.of_view rfl rfl setWriteEvent_event))
                (armed_of_setWriteEvent (s := s) rfl rfl)
            refine ⟨fun _ => ?_, fun hno => absurd huse (by simp [hno])⟩
            refine Ends.total (ioWrite_steady (hquery.ready hs).base hx hstack
              (.inr ⟨hactive, by rw [writes, hlist]; rfl⟩)) (fun n t ht => ?_)
            obtain ⟨ht, hbegun⟩ := ht
            have ht : Steady s t := hquery.trans ht
            have hready := ht.ready hs
            have hxT : x ∈ t.writes := ht.writes_eq ▸ hx
            have hstackT : x ∉ t.stack := ht.stack_eq ▸ hstack
            have huseT : (t.req x).inUse = true := (ht.inUse_eq x).trans huse
            have hretry : Ends (txRetry x) t
                (fun _ u => Path s u ∧ Ready u ∧ Same s u ∧ Armed u) (Aborted s) :=
              Ends.imp (txRetry_steady (E := Aborted s)) (fun _ u hu =>
                hsteady (ht.trans hu.1) hu.2)
            refine ⟨fun hpos => ⟨fun _ => hretry, fun hrest => ?_⟩, fun _ => ⟨fun _ => ?_,
              fun _ => hretry⟩⟩
            · -- the request is complete, and one that was scheduled is accounted for
              have hzero : (t.req x).remain = 0 := by
                have hform := hready.base.formed x (.inl hxT)
                have hremain := hform.remain_eq
                have hoff := hform.offset_le
                omega
              have hsched : 1 ≤ t.reqScheduled := by
                have hcount := hready.base.sched (ht.same.destroying.trans hd)
                have hone : 0 < t.writes.countP fun y => (t.req y).inUse && decide (y ∉ t.stack) :=
                  countP_pos_iff.mpr ⟨x, hxT, by simp [huseT, hstackT]⟩
                omega
              simp only [decide_eq_true_eq, decide_eq_false_iff_not]
              refine ⟨fun _ => ⟨fun _ => ?_, fun hno => absurd (by omega) hno⟩,
                fun hno => absurd hzero hno⟩
              refine Ends.imp (written_done (b := s)
                (s := { t with reqScheduled := t.reqScheduled - 1 }) hcbs hs.base
                (fun hds y hy => (hready.settled hds y hy).imp_right (Or.imp_right (by simp)))
                ⟨hready.ackFine.wf, hready.ackFine.free⟩ ?_ ?_ n fun u hu => ?_) (fun _ u hu => ?_)
              · exact ⟨ht.same.epoch, ht.same.active, ht.same.destroying⟩
              · intro ha hc
                exact ht.armed ha hc
              · refine ht.path.trans (Act.finish x n hxT hstackT (hbegun hpos) hzero ?_ ?_).path
                · have hu' : u.reqScheduled = t.reqScheduled - 1 := (congrArg (·.reqScheduled) hu :)
                  omega
                · rw [hu, huseT]
                  rfl
              · refine (ih _ hu.ready (hu.same.active.trans hactive)
                  (hu.same.destroying.trans hd)).mono (fun _ v hv => ?_)
                  fun _ _ hf => hf.of_path hu.path
                exact ⟨hu.path.trans hv.1, hv.2.1, hu.same.trans hv.2.2.1, hv.2.2.2⟩
            · refine (drop_done hcbs hs.base hready ht hxT hstackT n).imp
                (fun _ u hu => ?_)
              exact ⟨hu.1.path, hu.1.ready, hu.1.same, hu.2⟩

theorem processReply_done (hcbs : Keeps cbs) (hs : Ready s) (hactive : s.active = [])
    (hd : s.destroying = false) (x : Nat) :
    Ends (processReply cbs x) s (fun _ t => Done (some x) s t) (Aborted s) := by
  have hstray : Act s (s.record [.acked x]) := .ackStray x rfl
  -- an id that was owed passes both assertions
  have howed : AcksOwed (s.record [.acked x]).log → x ∈ s.acks := fun h =>
    (hs.base.owed_mem hd x (h s.log x [] rfl)).1
  simp only [processReply, ends_bind, ends_get, ends_modify, ends_assertThat, Int.toNat_natCast,
    decide_eq_true_eq, decide_eq_false_iff_not]
  refine ⟨fun hid => ⟨fun huse => ?_, fun huse => ⟨hstray.path, fun h => ?_⟩⟩,
    fun hid => ⟨hstray.path, fun h => hid ?_⟩⟩
  · have huse : (s.req x).inUse = true := huse
    have hx : x ∈ s.writes ∨ x ∈ s.acks := by
      by_contra hno
      rw [not_or] at hno
      rw [hs.base.free hd x hno.1 hno.2] at huse
      cases huse
    have hstack : x ∉ s.stack := by simp [stack, hactive]
    refine Ends.imp (invokeAck_over
      (s := { s with
        active := (x, true) :: s.active
        log := s.log ++ [.acked x] }) hcbs hs.base
      (fun hds y hy => ?_) ⟨hs.ackFine.wf, hs.ackFine.free⟩ rfl rfl rfl (fun ha hc => ?_) .ok
      fun t ht => ?_) (fun _ t ht => ?_)
    · exact (hs.settled hds y hy).imp_right (Or.imp_left (mem_cons_of_mem _))
    · refine (ha hc).imp_right fun hin y hy => .inl ?_
      rcases hin y hy with hin | heq
      · exact mem_cons_of_mem _ hin
      · rw [Option.some.inj heq]
        exact mem_cons_self
    · refine (Act.ackIn x hx hstack hd ?_).path
      rw [ht]
      simp only [view, append_assoc]
      rfl
    · exact releaseReq_done ht (by simp)
  · have hin := hs.base.waits x (howed h)
    have huse : (s.req x).inUse = false := huse
    rw [hin] at huse
    cases huse
  · have hin := hs.base.wf.linked pendingAck x (howed h)
    exact congrArg Int.ofNat hin.2.symm

theorem ioControlDataProcess_done (hcbs : Keeps cbs) (hs : Ready s) (hactive : s.active = [])
    (hd : s.destroying = false) (x : Nat) :
    Ends (ioControlDataProcess cbs x [] controlDataSz) s (fun _ t => Done (some x) s t)
      (Aborted s) := by
  have hone : controlDataSz / controlDataSz - 1 = 0 := by decide
  simp only [ioControlDataProcess, hone, processReplies, ends_bind, ends_pure]
  exact processReply_done hcbs hs hactive hd x

end Serving

section Destroying

variable {env : Env} {cbs : Callbacks} {p s : CommEvUNIXClient}

/-- The destruction of the buffers that began in `p` is under way. -/
structure Destroying (p s : CommEvUNIXClient) : Prop where
  path : Path p s
  base : Base s
  ackFine : AckFine s
  epoch : s.epoch = p.epoch
  active : s.active = []
  destroying : s.destroying = true

theorem Destroying.ready (h : Destroying p s) : Ready s :=
  ⟨h.base, fun hd => absurd hd (by simp [h.destroying]), h.ackFine⟩

theorem Destroying.act {t : CommEvUNIXClient} (h : Destroying p s) (hact : Act s t)
    (hack : t.ackMemSlot = s.ackMemSlot) (hsame : Same s t) : Destroying p t :=
  ⟨h.path.trans hact.path, hact.base h.base, ⟨hack ▸ h.ackFine.wf, hack ▸ h.ackFine.free⟩,
    hsame.epoch.trans h.epoch, hsame.active.trans h.active, hsame.destroying.trans h.destroying⟩

theorem Destroying.served {t : CommEvUNIXClient} (h : Destroying p s)
    (hserved : Served s t) (hsame : Same s t) : Destroying p t :=
  ⟨h.path.trans hserved.path, hserved.ready.base, hserved.ready.ackFine,
    hsame.epoch.trans h.epoch, hsame.active.trans h.active, hsame.destroying.trans h.destroying⟩

theorem destroyPendingWrite_done (hcbs : Keeps cbs) (fuel : Nat) :
    ∀ {s}, Destroying p s →
      Ends (destroyPendingWrite cbs fuel) s (fun _ t => Destroying p t ∧ t.writes = [])
        (Aborted p) := by
  induction fuel with
  | zero =>
      intro s hs
      exact ⟨hs.path, trivial⟩
  | succ fuel ih =>
      intro s hs
      simp only [destroyPendingWrite, ends_bind, ends_get]
      cases hlist : s.reqMemSlot.list pendingWrite with
      | nil =>
          have hpop : s.reqMemSlot.slotPopHead pendingWrite = none := by
            simp [slotPopHead, hlist]
          rw [hpop]
          exact ⟨hs, hlist⟩
      | cons x rest =>
          rw [hs.base.wf.slotPopHead_eq hlist]
          simp only [ends_bind, ends_set, ends_ite, ends_modify]
          refine ⟨fun hfin => ?_, fun hfin => ih ?_⟩
          · have hstart : Destroying p ({ s with
                reqMemSlot := s.reqMemSlot.slotFree x
                log := s.log ++ [Obs.abandoned (s.req x), Obs.released (s.req x).serial] }.record
                [.finish (s.req x).serial (-1) (.cbdata (s.req x).finishCbdata) .parent]) := by
              refine hs.act (.abandon x rest hlist hs.destroying hs.active ?_) rfl ⟨rfl, rfl, rfl⟩
              rw [abandonObs, if_pos hfin]
              simp only [record, view, append_assoc]
            have hcall := hcbs.finish (s.req x).serial _ hstart.ready
            refine (guarded_served (.inr hstart.destroying) hcall).mono
              (fun _ t ht => ih (hstart.served ht.1 ht.2)) fun _ _ hf => hf.of_path hstart.path
          · refine hs.act (.abandon x rest hlist hs.destroying hs.active ?_) rfl ⟨rfl, rfl, rfl⟩
            rw [abandonObs, if_neg hfin, append_nil]
            rfl

theorem destroyPendingAck_done (hcbs : Keeps cbs) (fuel : Nat) :
    ∀ {s}, Destroying p s → s.writes = [] ∨ Obs.granted true ∈ s.log →
      Ends (destroyPendingAck cbs fuel) s
        (fun _ t => Destroying p t ∧ t.acks = [] ∧ (t.writes = [] ∨ Obs.granted true ∈ t.log))
        (Aborted p) := by
  induction fuel with
  | zero =>
      intro s hs _
      exact ⟨hs.path, trivial⟩
  | succ fuel ih =>
      intro s hs hwrites
      simp only [destroyPendingAck, ends_bind, ends_get]
      cases hlist : s.reqMemSlot.list pendingAck with
      | nil =>
          have hpop : s.reqMemSlot.slotPopHead pendingAck = none := by
            simp [slotPopHead, hlist]
          rw [hpop]
          exact ⟨hs, hlist, hwrites⟩
      | cons x rest =>
          rw [hs.base.wf.slotPopHead_eq hlist]
          simp only [ends_bind, ends_set, ends_ite, ends_modify, ends_get]
          have hin : x ∈ s.acks := by
            rw [acks, hlist]
            exact mem_cons_self
          have hkeep : (s.reqMemSlot.slotFree x).list pendingWrite = s.writes := by
            rw [(lists_of_slotFree hs.base.wf (.inr hin)).2.2.1]
            exact erase_of_not_mem fun hw => not_mem_acks_of_writes hs.base.wf hw hin
          have hclose : ∀ t, Destroying p t → t.writes = [] ∨ Obs.granted true ∈ t.log →
              ((t.req x).autocloseOnAck = true → Ends (autoCloseLocalDescriptors x) t
                (fun _ u => Ends (destroyPendingAck cbs fuel) u
                  (fun _ v => Destroying p v ∧ v.acks = [] ∧
                    (v.writes = [] ∨ Obs.granted true ∈ v.log)) (Aborted p)) (Aborted p)) ∧
              (¬ (t.req x).autocloseOnAck = true → Ends (destroyPendingAck cbs fuel) t
                (fun _ v => Destroying p v ∧ v.acks = [] ∧
                  (v.writes = [] ∨ Obs.granted true ∈ v.log)) (Aborted p)) := by
            intro t ht hw
            refine ⟨fun _ => ?_, fun _ => ih ht hw⟩
            refine (autoCloseLocalDescriptors_steady ht.path).imp fun _ u hu => ih ?_ ?_
            · exact ⟨ht.path.trans hu.path, hu.path.base ht.base, hu.ackFine ht.ackFine,
                hu.same.epoch.trans ht.epoch, hu.same.active.trans ht.active,
                hu.same.destroying.trans ht.destroying⟩
            · exact hw.imp (fun hw => hu.writes_eq.trans hw) fun hw => hu.path.log_prefix.subset hw
          refine ⟨fun hcb => ?_, fun hcb => hclose _ ?_ ?_⟩
          · have hact : Act s ({ s with
                reqMemSlot := s.reqMemSlot.slotFree x
                log := s.log ++ [Obs.released (s.req x).serial] }.record
                [.ack (s.req x).serial .failed]) := by
              refine .fail x rest hlist hs.destroying hs.active ?_
              rw [ackObs, if_pos hcb]
              simp only [record, view, append_assoc]
            have hstart := hs.act hact rfl ⟨rfl, rfl, rfl⟩
            have hcall := hcbs.ack (s.req x).serial .failed _ hstart.ready
            refine (guarded_served (.inr hstart.destroying) hcall).mono
              (fun _ t ht => hclose t (hstart.served ht.1 ht.2) ?_)
              fun _ _ hf => hf.of_path hstart.path
            rcases hwrites with hw | hw
            · exact ht.1.empty ht.2 hs.destroying (hkeep.trans hw)
            · exact .inr ((hact.log_prefix.trans ht.1.path.log_prefix).subset hw)
          · refine hs.act (.fail x rest hlist hs.destroying hs.active ?_) rfl ⟨rfl, rfl, rfl⟩
            rw [ackObs, if_neg hcb, append_nil]
            rfl
          · exact hwrites.imp (fun hw => hkeep.trans hw) fun hw => mem_append_left _ hw

/-- What a destruction of the buffers leaves behind. -/
structure Bare (s t : CommEvUNIXClient) : Prop where
  path : Path s t
  base : Base t
  ackFine : AckFine t
  writes : t.writes = []
  rest : Same s t ∨ Torn s t

theorem ioDataDestroy_bare (hcbs : Keeps cbs) (hs : Ready s) (hclosed : Closed s.log) (fuel : Nat) :
    Ends (ioDataDestroy cbs fuel) s (fun _ t => Bare s t) (Aborted s) := by
  simp only [ioDataDestroy, ends_bind, ends_get, ends_ite, ends_modify, ends_pure]
  refine ⟨fun hinit => ?_, fun hinit => ?_⟩
  · obtain ⟨d, hd⟩ : ∃ d, { s with
        epoch := s.epoch + 1
        destroying := true
        active := []
        log := s.log ++ [Obs.destroying (s.destroying || !s.active.isEmpty)] } = d := ⟨_, rfl⟩
    rw [hd]
    have hact : Act s d := .destroying hinit hclosed (by rw [← hd]; rfl)
    have hinside : s.active ≠ [] ∨ s.destroying = true → Obs.destroying true ∈ d.log := by
      intro hin
      have hflag : (s.destroying || !s.active.isEmpty) = true := by
        rcases hin with hin | hin
        · simp [hin]
        · simp [hin]
      rw [← hd, hflag]
      exact mem_append_right _ mem_cons_self
    have hstart : Destroying d d := by
      refine ⟨.refl d, hact.base hs.base, ?_, rfl, ?_, ?_⟩
      all_goals rw [← hd]
      exact ⟨hs.ackFine.wf, hs.ackFine.free⟩
    have habort : ∀ f t, Aborted d f t → Aborted s f t := fun _ _ hf => hf.of_path hact.path
    refine (destroyPendingWrite_done hcbs fuel hstart).mono (fun _ t ht => ?_) habort
    refine (destroyPendingAck_done hcbs fuel ht.1 (.inl ht.2)).mono (fun _ u hu => ?_) habort
    obtain ⟨hu, hacks, hwrites⟩ := hu
    have hend : Act u { u with
        reqMemSlot := .init {} 4096
        ackMemSlot := .init {} 4096
        init := false
        destroying := false
        log := u.log ++ [.destroyed] } := .destroyed hu.destroying hu.active hacks hwrites rfl
    refine ⟨hact.path.trans (hu.path.trans hend.path), hend.base hu.base,
      ⟨wf_init _ _, fun _ _ => rfl⟩, rfl, .inr ⟨?_, hu.active, rfl, fun hin => ?_⟩⟩
    · have hepoch : d.epoch = s.epoch + 1 := by rw [← hd]
      have hlast := hu.epoch
      change s.epoch < u.epoch
      omega
    · exact mem_append_left _ (hu.path.log_prefix.subset (hinside hin))
  · exact ⟨.refl s, hs.base, hs.ackFine, (hs.base.uninit (Bool.not_eq_true _ ▸ hinit)).1,
      .inl (.refl s)⟩

theorem disconnect_served (hcbs : Keeps cbs) (hs : Ready s) (hclosed : Closed s.log)
    (fuel : Nat) : Ends (disconnect cbs fuel) s (fun _ t => Served s t) (Aborted s) := by
  simp only [disconnect, ends_bind, ends_modify]
  refine (ioDataDestroy_bare hcbs hs hclosed fuel).imp fun _ t ht => ?_
  have hact : Act t { t with connected := false, writeEvent := false, readEvent := false } :=
    .disconnect (hclosed.imp (fun h => ht.path.log_prefix.subset h) fun h =>
      ht.path.log_prefix.subset h) rfl
  have hnone : ∀ {y}, ¬ y ∈ t.writes := by simp [ht.writes]
  refine ⟨ht.path.trans hact.path, ⟨hact.base ht.base, fun _ y hy => absurd hy hnone,
    ht.ackFine.wf, ht.ackFine.free⟩, fun _ => (fun h => by cases h), fun _ _ _ => .inl ht.writes, ?_⟩
  exact ht.rest.imp (fun h => ⟨h.epoch, h.active, h.destroying⟩) fun h =>
    ⟨h.epoch, h.active, h.destroying, h.inside⟩

end Destroying

section Calls

variable {env : Env} {cbs : Callbacks} {s : CommEvUNIXClient}

theorem served_of_done {t : CommEvUNIXClient} (h : Done none s t)
    (hempty : s.destroying = true → s.writes = [] → t.writes = [] ∨ Obs.granted true ∈ t.log) :
    Served s t :=
  ⟨h.path, h.ready, h.armed, fun _ => hempty, .inl h.same⟩

theorem userOp_served (hcbs : Keeps cbs) (hs : Ready s) (fuel : Nat) (op : UserOp) :
    Ends (userOp env cbs fuel op) s (fun _ t => Served s t) (Aborted s) := by
  have hact : Act s (s.record [.called op]) := .called op rfl
  obtain ⟨t, ht⟩ : ∃ t, s.record [.called op] = t := ⟨_, rfl⟩
  have hcalled : Obs.called op ∈ t.log := by
    rw [← ht]
    exact mem_append_right _ mem_cons_self
  have hready : Ready t := by
    rw [← ht]
    exact ⟨hact.base hs.base, hs.settled, ⟨hs.ackFine.wf, hs.ackFine.free⟩⟩
  have hsame : Same s t := by rw [← ht]; exact ⟨rfl, rfl, rfl⟩
  have hstart : Served s t := by
    refine ⟨ht ▸ hact.path, hready, fun ha hc => ?_, fun _ _ hw => .inl ?_, .inl hsame⟩
    · rw [← ht] at hc ⊢
      exact ha hc
    · rw [← ht]
      exact hw
  simp only [userOp, ends_bind, ends_modify]
  rw [ht]
  cases op with
  | brbProtoWrite data fdArr fin ack fd ad =>
      simp only [ends_bind, ends_pure]
      refine (aioBrbProtoWrite_done hcbs hready data fdArr fin ack fd ad).mono
        (fun _ u hu => hstart.trans (served_of_done hu.1 hu.2))
        fun _ _ hf => hf.of_path hstart.path
  | brbProtoACK reqId =>
      simp only [ends_bind, ends_pure]
      refine (aioBrbProtoACK_done hready reqId).mono (fun _ u hu => hstart.trans ?_)
        fun _ _ hf => hf.of_path hstart.path
      exact served_of_done hu.1 fun _ hw => .inl (hu.2 hw)
  | disconnect =>
      exact (disconnect_served hcbs hready (.inl hcalled) fuel).mono
        (fun _ u hu => hstart.trans hu) fun _ _ hf => hf.of_path hstart.path
  | disconnectRequest =>
      simp only [disconnectRequest, ends_bind, ends_modify, ends_get, ends_ite, ends_pure]
      have hclose : Steady t { t with closeRequest := true } := .of_view rfl rfl id
      refine ⟨fun _ => ?_, fun _ => hstart.trans (hclose.served hready)⟩
      exact (disconnect_served hcbs (hclose.ready hready) (.inr hcalled) fuel).mono
        (fun _ u hu => hstart.trans ((hclose.served hready).trans hu))
        fun _ _ hf => hf.of_path (hstart.path.trans hclose.path)

theorem userOps_served (hcbs : Keeps cbs) (fuel : Nat) (ops : List UserOp) :
    ∀ {s}, Ready s →
      Ends (userOps env cbs fuel ops) s (fun _ t => Served s t) (Aborted s) := by
  induction ops with
  | nil => exact fun hs => .refl hs
  | cons op ops ih =>
      intro s hs
      simp only [userOps, ends_bind]
      refine (userOp_served hcbs hs fuel op).imp fun _ t ht => ?_
      exact (ih ht.ready).mono (fun _ u hu => ht.trans hu) fun _ _ hf => hf.of_path ht.path

theorem callbacks_keeps (env : Env) (fuel depth : Nat) : Keeps (callbacks env fuel depth) := by
  induction depth with
  | zero => exact ⟨fun _ s hs => .refl hs, fun _ _ s hs => .refl hs⟩
  | succ depth ih =>
      exact ⟨fun _ s hs => userOps_served ih fuel _ hs, fun _ _ s hs => userOps_served ih fuel _ hs⟩

end Calls

section Events

variable {env : Env} {fuel : Nat} {s : CommEvUNIXClient}

/-- The client between two events. The write event may be lost when a connection
completes while requests are pending. -/
structure Boundary (s : CommEvUNIXClient) : Prop where
  ready : Ready s
  active : s.active = []
  destroying : s.destroying = false
  armed : Obs.connected true ∉ s.log → Armed s

theorem Boundary.next {t : CommEvUNIXClient} (hs : Boundary s) (hpath : Path s t)
    (hready : Ready t) (hactive : t.active = []) (hd : t.destroying = false)
    (harmed : Armed s → Armed t) : Boundary t :=
  ⟨hready, hactive, hd, fun hno => harmed (hs.armed fun hin =>
    hno (hpath.log_prefix.subset hin))⟩

theorem handle_boundary (hs : Boundary s) (ev : Event) :
    Ends (handle env fuel ev) s (fun _ t => Path s t ∧ Boundary t) (Aborted s) := by
  have hcbs := callbacks_keeps env fuel fuel
  cases ev with
  | user op =>
      simp only [handle]
      refine (userOp_served hcbs hs.ready fuel op).imp fun _ t ht => ⟨ht.path, ?_⟩
      rcases ht.rest with hsame | htorn
      · exact hs.next ht.path ht.ready (hsame.active.trans hs.active)
          (hsame.destroying.trans hs.destroying) ht.armed
      · exact hs.next ht.path ht.ready htorn.active htorn.destroying ht.armed
  | write canWriteSz =>
      simp only [handle, ends_bind, ends_get, ends_ite, ends_modify, ends_pure]
      refine ⟨fun _ => ?_, fun _ => ⟨.refl s, hs⟩⟩
      have hpath : Path s { s with writeEvent := false } := quiet_path rfl
      have hready : Ready { s with writeEvent := false } :=
        ⟨hpath.base hs.ready.base, hs.ready.settled, ⟨hs.ready.ackFine.wf, hs.ready.ackFine.free⟩⟩
      refine (eventBrbProtoWriteLoop_done hcbs canWriteSz fuel 0 hready hs.active hs.destroying).mono
        (fun _ t ht => ?_) fun _ _ hf => hf.of_path hpath
      obtain ⟨hserve, hend, hsame, harmed⟩ := ht
      exact ⟨hpath.trans hserve, hend, hsame.active.trans hs.active,
        hsame.destroying.trans hs.destroying, fun _ => harmed⟩
  | ack reqId =>
      simp only [handle, ends_bind, ends_pure]
      refine (ioControlDataProcess_done hcbs hs.ready hs.active hs.destroying reqId).imp
        (fun _ t ht => ⟨ht.path, ?_⟩)
      refine hs.next ht.path ht.ready (ht.same.active.trans hs.active)
        (ht.same.destroying.trans hs.destroying) fun ha => ht.armed fun hc => ?_
      exact (ha hc).imp_right fun hin y hy => (hin y hy).imp_right (by simp)
  | connect =>
      simp only [handle, ends_bind, ends_get, ends_ite, ends_modify, ends_pure]
      refine ⟨fun hc => ?_, fun _ => ⟨.refl s, hs⟩⟩
      have hact : Act s { s with
          connected := true
          readEvent := true
          out := []
          log := s.log ++ [.connected (!s.reqMemSlot.isEmptyList pendingWrite)] } :=
        .connect (by simpa using hc) rfl
      refine ⟨hact.path, ⟨hact.base hs.ready.base, hs.ready.settled,
        ⟨hs.ready.ackFine.wf, hs.ready.ackFine.free⟩⟩, hs.active, hs.destroying, fun hno _ => ?_⟩
      -- nothing is pending when the connection completes
      have hnone : s.writes = [] := by
        by_contra hne
        refine hno (mem_append_right _ ?_)
        simpa [isEmptyList] using hne
      exact .inr fun y hy => by
        have hy : y ∈ s.writes := hy
        rw [hnone] at hy
        cases hy

theorem runFrom_paths (env : Env) (fuel : Nat) (auto : Bool) (evs : List Event) :
    Runs.Holds (fun s => Path (start auto) s ∧ Boundary s) (Aborted (start auto))
      (runFrom env fuel auto evs) := by
  refine Runs.invariant_run (I := fun s => Path (start auto) s ∧ Boundary s) (fun ev s hs => ?_)
    ?_ evs
  · exact (handle_boundary hs.2 ev).mono (fun _ t ht => ⟨hs.1.trans ht.1, ht.2⟩)
      fun _ _ hf => hf.of_path hs.1
  · refine ⟨.refl _, ⟨Base.start auto, fun _ y hy => ?_, wf_init _ _, fun _ _ => rfl⟩, rfl, rfl,
      fun _ _ => .inr fun y hy => ?_⟩
    · exact absurd hy not_mem_nil
    · exact absurd hy not_mem_nil

end Events

end Unix
