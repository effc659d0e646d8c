import BrbFramework.Tcp.WriteQueue

/-!
# Vectored writes

A vectored write puts a table of buffers in the write queue of a TCP client or
of a connection of a server, one request for each. The finish callback belongs
to the last of them. The index that should tell the last one from the others
never does, so no request carries the callback.

What happens between two requests is a parameter: `kick` is the write on the
same loop, or the write event, together with the callbacks that run on the way,
and it may do anything to the connection. The writer of the plain client is
`kickWriteQueue`. `calloc` says which allocations of a request succeed, and
`queued` is a history: the requests that the vectored write put in the queue.
-/

namespace Tcp.Vectored

open Handler WriteQueue List

/-- `EvAIOReqIOVectorData`. -/
structure EvAIOReqIOVectorData where
  dataPtr : List UInt8
  offset : Nat
  size : Nat

def EvAIOReqIOVectorData.bytes (v : EvAIOReqIOVectorData) : List UInt8 :=
  (v.dataPtr.drop v.offset).take v.size

/-- A connection, on either side, as far as a vectored write looks at it. `queueSz` is the
statistic of the queue. -/
structure Conn where
  writer : WriteQueue.CommEvTCPClient := {}
  queueSz : Nat := 0
  connected : Bool := true
  closeRequest : Bool := false
  connHndInTransfer : Bool := false
  connUnlimitedEnqueue : Bool := false
  cliQueueMax : Int := 0

structure Writing where
  conn : Conn
  allocated : Nat := 0
  queued : List EvAIOReq := []

abbrev M := EStateM Fault Writing

/-- What the connection is connected to: the kernel and the library functions, the write on the
same loop, the given finish callback, and the allocator. -/
structure Surroundings where
  env : Env
  kick : EStateM Fault Conn PUnit
  finishCb : EStateM Fault Conn PUnit
  calloc : Nat → Bool

/-- `COMM_SERVER_CONN_CAN_WRITE`. -/
def Conn.canWrite (c : Conn) : Bool :=
  !(c.connHndInTransfer || (c.closeRequest && !c.connUnlimitedEnqueue))

/-- `COMM_SERVER_CONN_CAN_ENQUEUE`. -/
def Conn.canEnqueue (c : Conn) : Bool :=
  c.connUnlimitedEnqueue || c.cliQueueMax ≤ 0 || c.queueSz < c.cliQueueMax

/-- What writing at once does to a plain client: the rest of
`CommEvTCPClientEnqueueAndKickWriteQueue`. -/
def kickWriteQueue (env : Env) (depth : Nat) : EStateM Fault Conn PUnit :=
  within Conn.writer (fun c w => { c with writer := w }) do
    if (← get).pendingWrite then
      modify fun w => { w with writeEvent := true }
    else
      let _ ← eventWrite env (WriteQueue.finishCb env depth) 8092

section Functions

variable (sur : Surroundings)

def onConn (x : EStateM Fault Conn PUnit) : M PUnit :=
  within Writing.conn (fun s c => { s with conn := c }) x

/-- `EvAIOReqNew`. -/
def aioReqNew (data : List UInt8) (hasFinishCb : Bool) : M (Option EvAIOReq) :=
  modifyGet fun s =>
    (if sur.calloc s.allocated then
        some ⟨s.allocated, data, 0, none, hasFinishCb⟩
      else none,
      { s with allocated := s.allocated + 1 })

/-- `EvAIOReqTransform_WriteData` and `EvAIOReqQueueEnqueue`. -/
def enqueue (req : EvAIOReq) : M PUnit := do
  let c := (← get).conn
  let (transformedMb, crypto) := cryptoRaw sur.env c.writer.crypto (sur.env.salt req.id) req.data
  let req := { req with transformedMb }
  onConn do
    modify fun c => { c with writer := { c.writer with crypto } }
    within Conn.writer (fun c w => { c with writer := w }) (WriteQueue.enqueue req)
    modify fun c => { c with queueSz := c.queueSz + req.data.length }
  modify fun s => { s with queued := s.queued ++ [req] }

/-- `EvAIOReqInvokeCallBacks` of a request that is refused. -/
def invokeCallBacks (req : EvAIOReq) : M PUnit :=
  if req.hasFinishCb then onConn sur.finishCb else pure ⟨⟩

/-- `CommEvTCPClientEnqueueAndKickWriteQueue`. -/
def clientEnqueueAndKickWriteQueue (req : EvAIOReq) : M PUnit := do
  -- dropped without a word
  if (← get).conn.closeRequest then return
  enqueue sur req
  if !(← get).conn.connected then return
  onConn sur.kick

/-- `CommEvTCPServerConnEnqueueAndKickQueue`. -/
def connEnqueueAndKickQueue (req : EvAIOReq) : M PUnit := do
  if !(← get).conn.canWrite then
    invokeCallBacks sur req
    return
  if !(← get).conn.canEnqueue then
    invokeCallBacks sur req
    return
  enqueue sur req
  onConn sur.kick

/-- The loop over the table, from the index `i` on. -/
def writeVectors (enqueueAndKick : EvAIOReq → M PUnit) (vectorTableSz : Nat) (finishCb : Bool) :
    Nat → List EvAIOReqIOVectorData → M Int
  | _, [] => return 1
  | i, curIovec :: rest => do
    let last := (i : Int) - 1 == vectorTableSz
    match ← aioReqNew sur curIovec.bytes (last && finishCb) with
    | none => return 0
    | some req =>
      enqueueAndKick req
      writeVectors enqueueAndKick vectorTableSz finishCb (i + 1) rest

/-- `CommEvTCPClientAIOWriteVectored`. -/
def clientAIOWriteVectored (vectorTable : List EvAIOReqIOVectorData) (finishCb : Bool) : M Int := do
  if (← get).conn.closeRequest then return 0
  writeVectors sur (clientEnqueueAndKickWriteQueue sur) vectorTable.length finishCb 0 vectorTable

/-- `CommEvTCPServerConnAIOWriteVectored`. -/
def connAIOWriteVectored (vectorTable : List EvAIOReqIOVectorData) (finishCb : Bool) : M Int := do
  if !(← get).conn.canWrite then return 0
  if !(← get).conn.canEnqueue then return 0
  writeVectors sur (connEnqueueAndKickQueue sur) vectorTable.length finishCb 0 vectorTable

end Functions

/-- The vectored write returns 0 and has queued nothing, or returns 1 and has queued all vectors
in order, with the finish callback at the last of them. -/
def AllOrNothing (vectorTable : List EvAIOReqIOVectorData) (x : M Int) (s : Writing) : Prop :=
  Ends x s
    (fun r t => (r = 0 ∧ t.queued = s.queued) ∨
      (r = 1 ∧ ∃ reqs, t.queued = s.queued ++ reqs ∧
        reqs.map EvAIOReq.data = vectorTable.map EvAIOReqIOVectorData.bytes ∧
        reqs.map EvAIOReq.hasFinishCb =
          List.replicate (vectorTable.length - 1) false ++ [true]))
    fun _ _ => False

/-! ## What a vectored write queues -/

/-- More was queued, by requests without a callback. -/
def Extends (s t : Writing) : Prop :=
  ∃ reqs, t.queued = s.queued ++ reqs ∧ ∀ req ∈ reqs, req.hasFinishCb = false

theorem Extends.refl (s : Writing) : Extends s s :=
  ⟨[], (append_nil _).symm, by nofun⟩

theorem Extends.trans {s t u : Writing} (h : Extends s t) (h' : Extends t u) : Extends s u := by
  obtain ⟨reqs, heq, hnone⟩ := h
  obtain ⟨reqs', heq', hnone'⟩ := h'
  refine ⟨reqs ++ reqs', by rw [heq', heq, append_assoc], fun req hreq => ?_⟩
  rcases mem_append.mp hreq with hreq | hreq
  · exact hnone req hreq
  · exact hnone' req hreq

section Steps

variable {sur : Surroundings} {s : Writing} {req : EvAIOReq}

theorem onConn_ends (x : EStateM Fault Conn PUnit) :
    Ends (onConn x) s (fun _ t => t.queued = s.queued ∧ t.allocated = s.allocated)
      fun _ _ => True := by
  unfold onConn
  rw [ends_within]
  unfold Ends
  cases x s.conn with
  | ok _ c => exact ⟨rfl, rfl⟩
  | error _ c => trivial

theorem enqueue_ends (req : EvAIOReq) :
    Ends (enqueue sur req) s
      (fun _ t => ∃ mb, t.queued = s.queued ++ [{ req with transformedMb := mb }])
      fun _ _ => True := by
  simp only [enqueue, ends_bind, ends_get]
  apply (onConn_ends _).imp
  intro _ t ht
  exact ⟨_, by rw [← ht.1]⟩

theorem queued_kick {s₀ : Writing} (hqueued : ∃ mb,
      s.queued = s₀.queued ++ [{ req with transformedMb := mb }]) :
    Ends (onConn sur.kick) s
      (fun _ t => ∃ mb, t.queued = s₀.queued ++ [{ req with transformedMb := mb }])
      fun _ _ => True := by
  apply (onConn_ends _).imp
  intro _ t ht
  rw [ht.1]
  exact hqueued

theorem clientEnqueue_queues (hopen : s.conn.closeRequest = false) (req : EvAIOReq) :
    Ends (clientEnqueueAndKickWriteQueue sur req) s
      (fun _ t => ∃ mb, t.queued = s.queued ++ [{ req with transformedMb := mb }])
      fun _ _ => True := by
  simp only [clientEnqueueAndKickWriteQueue, ends_bind, ends_get, hopen, Bool.false_eq_true,
    if_false]
  apply (enqueue_ends req).imp
  intro _ t ht
  split
  · exact ht
  · exact queued_kick ht

theorem connEnqueue_queues (hwrite : s.conn.canWrite = true) (hroom : s.conn.canEnqueue = true)
    (req : EvAIOReq) :
    Ends (connEnqueueAndKickQueue sur req) s
      (fun _ t => ∃ mb, t.queued = s.queued ++ [{ req with transformedMb := mb }])
      fun _ _ => True := by
  simp only [connEnqueueAndKickQueue, ends_bind, ends_get, hwrite, hroom, Bool.not_true,
    Bool.false_eq_true, if_false]
  apply (enqueue_ends req).imp
  intro _ t ht
  exact queued_kick ht

theorem Extends.of_queued {t : Writing} (hnone : req.hasFinishCb = false)
    (hqueued : ∃ mb, t.queued = s.queued ++ [{ req with transformedMb := mb }]) : Extends s t := by
  obtain ⟨mb, heq⟩ := hqueued
  refine ⟨_, heq, fun r hr => ?_⟩
  rw [mem_singleton.mp hr]
  exact hnone

theorem clientEnqueue_extends (req : EvAIOReq) (hnone : req.hasFinishCb = false) :
    Ends (clientEnqueueAndKickWriteQueue sur req) s (fun _ => Extends s) fun _ _ => True := by
  cases hopen : s.conn.closeRequest with
  | false =>
      apply (clientEnqueue_queues hopen req).imp
      intro _ t ht
      exact .of_queued hnone ht
  | true =>
      simp only [clientEnqueueAndKickWriteQueue, ends_bind, ends_get, hopen, if_true]
      exact .refl s

theorem connEnqueue_extends (req : EvAIOReq) (hnone : req.hasFinishCb = false) :
    Ends (connEnqueueAndKickQueue sur req) s (fun _ => Extends s) fun _ _ => True := by
  -- nobody is told of a request without a callback
  have hquiet : Ends (invokeCallBacks sur req) s (fun _ => Extends s) fun _ _ => True := by
    rw [invokeCallBacks, hnone]
    exact .refl s
  cases hwrite : s.conn.canWrite with
  | false =>
      simp only [connEnqueueAndKickQueue, ends_bind, ends_get, hwrite, Bool.not_false, if_true]
      exact hquiet
  | true =>
      cases hroom : s.conn.canEnqueue with
      | false =>
          simp only [connEnqueueAndKickQueue, ends_bind, ends_get, hwrite, hroom, Bool.not_true,
            Bool.not_false, Bool.false_eq_true, if_false, if_true]
          exact hquiet
      | true =>
          apply (connEnqueue_queues hwrite hroom req).imp
          intro _ t ht
          exact .of_queued hnone ht

end Steps

/-! ## The loop -/

section Loop

variable {sur : Surroundings} {s : Writing} {enqueueAndKick : EvAIOReq → M PUnit} {n : Nat}

theorem not_last {i : Nat} (hi : i ≤ n) : ((i : Int) - 1 == (n : Int)) = false := by
  rw [beq_eq_false_iff_ne]
  omega

theorem writeVectors_extends (hkick : ∀ s req, req.hasFinishCb = false →
      Ends (enqueueAndKick req) s (fun _ => Extends s) fun _ _ => True)
    (vectors : List EvAIOReqIOVectorData) (finishCb : Bool) {i : Nat}
    (hi : i + vectors.length = n) :
    Ends (writeVectors sur enqueueAndKick n finishCb i vectors) s (fun _ => Extends s)
      fun _ _ => True := by
  induction vectors generalizing i s with
  | nil => exact .refl s
  | cons v vectors ih =>
      rw [length_cons] at hi
      simp only [writeVectors, not_last (by omega : i ≤ n), Bool.false_and, ends_bind, aioReqNew,
        ends_modifyGet]
      obtain ⟨s₁, hs₁⟩ : ∃ s₁, s₁ = { s with allocated := s.allocated + 1 } := ⟨_, rfl⟩
      have hsame : Extends s s₁ := by
        rw [hs₁]
        exact .refl s
      rw [← hs₁]
      split
      · exact hsame
      · rename_i req hreq
        have hnone : req.hasFinishCb = false := by
          split at hreq
          · cases hreq
            rfl
          · cases hreq
        simp only [ends_bind]
        apply (hkick s₁ req hnone).imp
        intro _ t ht
        apply (ih (by omega)).imp
        intro _ u hu
        exact (hsame.trans ht).trans hu

theorem writeVectors_not_allOrNothing (hkick : ∀ s req, req.hasFinishCb = false →
      Ends (enqueueAndKick req) s (fun _ => Extends s) fun _ _ => True)
    (hfirst : ∀ req, Ends (enqueueAndKick req) { s with allocated := s.allocated + 1 }
      (fun _ t => ∃ mb, t.queued = s.queued ++ [{ req with transformedMb := mb }]) fun _ _ => True)
    (hslot : sur.calloc s.allocated = true) (v : EvAIOReqIOVectorData)
    (vs : List EvAIOReqIOVectorData) :
    ¬AllOrNothing (v :: vs)
      (writeVectors sur enqueueAndKick (v :: vs).length true 0 (v :: vs)) s := by
  intro hall
  have hqueued : Ends (writeVectors sur enqueueAndKick (v :: vs).length true 0 (v :: vs)) s
      (fun _ t => ∃ req reqs, t.queued = s.queued ++ req :: reqs ∧
        ∀ r ∈ req :: reqs, r.hasFinishCb = false)
      fun _ _ => True := by
    simp only [writeVectors, not_last (Nat.zero_le _), Bool.false_and, ends_bind, aioReqNew,
      ends_modifyGet, hslot, if_true]
    apply (hfirst _).imp
    intro _ t ht
    obtain ⟨mb, heq⟩ := ht
    apply (writeVectors_extends hkick vs true (by rw [length_cons]; omega)).imp
    intro _ u hu
    obtain ⟨reqs, hmore, hnone⟩ := hu
    refine ⟨_, reqs, by rw [hmore, heq, append_assoc]; rfl, fun r hr => ?_⟩
    rcases mem_cons.mp hr with rfl | hr
    · rfl
    · exact hnone r hr
  refine not_ends_false ((hall.and hqueued).mono (fun r t ht => ?_) fun _ _ hf => hf.1)
  obtain ⟨hout, req, reqs, heq, hnone⟩ := ht
  rcases hout with ⟨-, hnothing⟩ | ⟨-, all, hall, -, hcbs⟩
  · rw [hnothing, self_eq_append_right] at heq
    exact cons_ne_nil _ _ heq
  · obtain rfl : all = req :: reqs := append_cancel_left (hall.symm.trans heq)
    -- the last of them would carry the callback
    have hlast : true ∈ (req :: reqs).map EvAIOReq.hasFinishCb := by
      rw [hcbs]
      exact mem_append_right _ (mem_singleton_self _)
    obtain ⟨r, hr, htrue⟩ := mem_map.mp hlast
    rw [hnone r hr] at htrue
    cases htrue

theorem writeVectors_noSlot (hslot : sur.calloc s.allocated = false) (v : EvAIOReqIOVectorData)
    (vs : List EvAIOReqIOVectorData) (finishCb : Bool) :
    AllOrNothing (v :: vs) (writeVectors sur enqueueAndKick n finishCb 0 (v :: vs)) s := by
  simp only [AllOrNothing, writeVectors, ends_bind, aioReqNew, ends_modifyGet, hslot,
    Bool.false_eq_true, if_false]
  exact Or.inl ⟨rfl, rfl⟩

end Loop

section Sides

variable (sur : Surroundings) (v : EvAIOReqIOVectorData) (vs : List EvAIOReqIOVectorData)
  (s : Writing)

theorem client_allOrNothing_iff :
    AllOrNothing (v :: vs) (clientAIOWriteVectored sur (v :: vs) true) s ↔
      s.conn.closeRequest = true ∨ sur.calloc s.allocated = false := by
  unfold AllOrNothing clientAIOWriteVectored
  simp only [ends_bind, ends_get]
  cases hopen : s.conn.closeRequest with
  | true =>
      rw [if_pos rfl]
      exact iff_of_true (Or.inl ⟨rfl, rfl⟩) (Or.inl rfl)
  | false =>
      rw [if_neg Bool.false_ne_true]
      cases hslot : sur.calloc s.allocated with
      | false => exact iff_of_true (writeVectors_noSlot hslot v vs true) (Or.inr rfl)
      | true =>
          refine iff_of_false ?_ (by simp)
          apply writeVectors_not_allOrNothing _ _ hslot
          · exact fun _ => clientEnqueue_extends
          · intro req
            exact @clientEnqueue_queues sur { s with allocated := s.allocated + 1 } hopen req

theorem conn_allOrNothing_iff :
    AllOrNothing (v :: vs) (connAIOWriteVectored sur (v :: vs) true) s ↔
      s.conn.canWrite = false ∨ s.conn.canEnqueue = false ∨ sur.calloc s.allocated = false := by
  unfold AllOrNothing connAIOWriteVectored
  simp only [ends_bind, ends_get]
  cases hwrite : s.conn.canWrite with
  | false =>
      rw [Bool.not_false, if_pos rfl]
      exact iff_of_true (Or.inl ⟨rfl, rfl⟩) (Or.inl rfl)
  | true =>
      rw [Bool.not_true, if_neg Bool.false_ne_true]
      simp only [ends_bind, ends_get]
      cases hroom : s.conn.canEnqueue with
      | false =>
          rw [Bool.not_false, if_pos rfl]
          exact iff_of_true (Or.inl ⟨rfl, rfl⟩) (Or.inr (Or.inl rfl))
      | true =>
          rw [Bool.not_true, if_neg Bool.false_ne_true]
          cases hslot : sur.calloc s.allocated with
          | false => exact iff_of_true (writeVectors_noSlot hslot v vs true) (Or.inr (Or.inr rfl))
          | true =>
              refine iff_of_false ?_ (by simp)
              apply writeVectors_not_allOrNothing _ _ hslot
              · exact fun _ => connEnqueue_extends
              · intro req
                exact @connEnqueue_queues sur { s with allocated := s.allocated + 1 } hwrite hroom
                  req

/-- **Vectored writes.**  With a finish callback they are all or nothing exactly where they are
refused at the start, or have no slot for the first vector. -/
theorem allOrNothing_iff :
    (AllOrNothing (v :: vs) (clientAIOWriteVectored sur (v :: vs) true) s ↔
      s.conn.closeRequest = true ∨ sur.calloc s.allocated = false) ∧
    (AllOrNothing (v :: vs) (connAIOWriteVectored sur (v :: vs) true) s ↔
      s.conn.canWrite = false ∨ s.conn.canEnqueue = false ∨ sur.calloc s.allocated = false) :=
  ⟨client_allOrNothing_iff sur v vs s, conn_allOrNothing_iff sur v vs s⟩

/-- One vector of one byte is written at once. The write returns 1 and its callback is lost. -/
theorem single_vector_loses_callback :
    ¬AllOrNothing [⟨[7], 0, 1⟩]
      (clientAIOWriteVectored
        { env := ⟨fun _ => .wrote 1, fun _ => [], fun _ => Vector.replicate 16 0,
            fun _ => Vector.replicate 8 0⟩
          kick := kickWriteQueue ⟨fun _ => .wrote 1, fun _ => [], fun _ => Vector.replicate 16 0,
            fun _ => Vector.replicate 8 0⟩ 1
          finishCb := pure ⟨⟩
          calloc := fun _ => true } [⟨[7], 0, 1⟩] true)
      { conn := {} } := by
  rw [client_allOrNothing_iff]
  decide

end Sides

end Tcp.Vectored
