import BrbFramework.Unix.Paths

/-!
# Raw writes, and the write event

A raw client sends the payloads of its requests without frames. A request is
written at once unless one has ever had to wait, and the write event serves the
list from its head until its window is used up.

The write event is volatile, so that every path that leaves requests behind has to
arm it again. Both writers are proved to, up to the ways in which they do not: a
window that a request uses up while others are pending, and a connection that is
completed while requests are pending.
-/

namespace Unix

open BrbData MemSlotBase Handler CommEvUNIXClient List

inductive RawOp
  | rawWrite (data : List UInt8) (hasFinishCb : Bool) (finishCbdata : Nat)
  | disconnect
  | disconnectRequest
  deriving DecidableEq

/-- The kernel and the finish callbacks, by the number of the call. -/
structure RawEnv where
  sendmsg : Nat → SendResult
  onFinish : Nat → List RawOp

section Functions

variable (env : RawEnv)

/-- `CommEvUNIXIOWriteRaw`. -/
def ioWriteRaw (x : Nat) : M Int := do
  assertThat ((← get).req x).inUse .notInUse
  modifyGet fun c =>
    (match if c.connected then env.sendmsg c.sends else .failed with
      | .failed => -1
      | .sent n => (min n (c.req x).remain.toNat : Nat),
      { c with sends := c.sends + 1 })

def linked (c : CommEvUNIXClient) (x : Nat) : Bool :=
  (List.range defaultListCount).any fun l => (c.reqMemSlot.list l).contains x

def finishRaw (cbs : Callbacks) (x : Nat) (wroteBytes : Int) : M Unit := do
  let req := (← get).req x
  if req.hasFinishCb then
    modify (·.record [.finish req.serial wroteBytes (.request req.serial)
      (.cbdata req.finishCbdata)])
    guarded (cbs.finish req.serial)
  assertThat (linked (← get) x) .doubleFree
  modify fun c =>
    { c with
      reqMemSlot := (c.reqMemSlot.modifyData x fun req => { req with inUse := false }).slotFree x
      log := c.log ++ [.released (c.req x).serial] }

def advance (c : CommEvUNIXClient) (x : Nat) (wroteBytes : Int) : CommEvUNIXClient :=
  { c.setReq x fun req =>
      { req with
        offset := req.offset + wroteBytes.toNat
        remain := req.remain - wroteBytes
        seqId := req.seqId + 1 } with
    log := c.log ++
      [.payload (c.req x).serial (((c.req x).data.drop (c.req x).offset).take wroteBytes.toNat)] }

/-- `CommEvUNIXClientEventRawWrite`. -/
def eventRawWrite (cbs : Callbacks) (canWriteSz : Int) : Nat → Int → M Int
  | 0, _ => throw .stuck
  | fuel + 1, wroteTotal => do
      match (← get).reqMemSlot.list pendingWrite with
      -- the flag for pending writes stays, since no pointer to a client is zero
      | [] => return 0
      | x :: _ =>
          assertThat ((← get).req x).inUse .notInUse
          let wroteBytes ← ioWriteRaw env x
          if wroteBytes > 0 then modify (advance · x wroteBytes)
          if ((← get).req x).remain > 0 then
            modify fun c =>
              { (c.setWriteEvent.setReq x fun req =>
                  { req with wrote := false, txRetryCount := req.txRetryCount + 1 }) with
                reqScheduled := c.reqScheduled + 1
                pendingWriteRequest := true }
            return wroteTotal
          else
            assertThat (decide (((← get).req x).remain = 0)) .remainLeft
            finishRaw cbs x wroteBytes
            if canWriteSz - wroteTotal - wroteBytes > 0 then
              eventRawWrite cbs canWriteSz fuel (wroteTotal + wroteBytes)
            else
              modify fun c => c.record
                [.windowUsed (!c.writeEvent && !c.reqMemSlot.isEmptyList pendingWrite)]
              return wroteTotal + wroteBytes

/-- `CommEvUNIXClientAIORawWrite`. -/
def aioRawWrite (cbs : Callbacks) (fuel : Nat) (data : List UInt8) (hasFinishCb : Bool)
    (finishCbdata : Nat) : M Int := do
  if (← get).closeRequest then return -1
  ioDataInit
  let c ← get
  match c.reqMemSlot.slotGrab with
  | none => return -1
  | some (x, reqMemSlot) =>
      assertThat (!(reqMemSlot.slotData x).inUse) .slotInUse
      let req : CommEvUNIXWriteRequest :=
        { serial := c.created, hasFinishCb, finishCbdata, reqId := reqMemSlot.slotGetID x, data
          remain := data.length, inUse := true }
      set { c with
            reqMemSlot := reqMemSlot.modifyData x fun _ => req
            created := c.created + 1
            log := c.log ++ [Obs.accepted req] }
      if c.pendingWriteRequest then
        modify fun c =>
          { (c.setWriteEvent.setReq x fun req =>
              { req with wrote := false, txRetryCount := req.txRetryCount + 1 }) with
            reqScheduled := c.reqScheduled + 1
            pendingWriteRequest := true }
        return req.reqId
      else eventRawWrite env cbs 8092 fuel 0

def rawOp (cbs : Callbacks) (fuel : Nat) : RawOp → M Unit
  | .rawWrite data hasFinishCb finishCbdata => do
      let _ ← aioRawWrite env cbs fuel data hasFinishCb finishCbdata
  | .disconnect => disconnect cbs fuel
  | .disconnectRequest => disconnectRequest cbs fuel

def rawOps (cbs : Callbacks) (fuel : Nat) : List RawOp → M Unit
  | [] => return ()
  | op :: ops => do
      rawOp env cbs fuel op
      rawOps cbs fuel ops

/-- The finish callbacks, nested to at most `depth` levels. A raw request has no ACK
callback. -/
def rawCallbacks (fuel : Nat) : Nat → Callbacks
  | 0 => ⟨fun _ => return (), fun _ _ => return ()⟩
  | depth + 1 =>
      { finish := fun _ => do
          let number := (← get).queries
          modify fun c => { c with queries := c.queries + 1 }
          rawOps env (rawCallbacks fuel depth) fuel (env.onFinish number)
        ack := fun _ _ => return () }

inductive RawEvent
  | user (op : RawOp)
  | write (canWriteSz : Int)
  | connect
  deriving DecidableEq

def handleRaw (fuel : Nat) : RawEvent → M Unit
  | .user op => rawOp env (rawCallbacks env fuel fuel) fuel op
  | .write canWriteSz => do
      if (← get).writeEvent then
        modify fun c => { c with writeEvent := false }
        let _ ← eventRawWrite env (rawCallbacks env fuel fuel) canWriteSz fuel 0
  | .connect => do
      if !(← get).connected then
        modify fun c =>
          { c with
            connected := true
            readEvent := true
            out := []
            log := c.log ++ [.connected (!c.reqMemSlot.isEmptyList pendingWrite)] }

end Functions

def runRaw (env : RawEnv) (fuel : Nat) (evs : List RawEvent) : Config :=
  Runs.run (handleRaw env fuel) (.live (start false)) evs

/-- Requests were left behind without an armed event. -/
def Left (log : List Obs) : Prop := Obs.windowUsed true ∈ log ∨ Obs.connected true ∈ log

/-- The write event is armed if a connected client has pending writes. -/
def Kicked (c : CommEvUNIXClient) : Prop :=
  c.connected = true → c.writeEvent = true ∨ c.writes = []

/-- What every handler of a raw client does for the write event. -/
structure KeepsKicked (s t : CommEvUNIXClient) : Prop where
  grows : s.log <+: t.log
  kicked : Left s.log ∨ Kicked s → Left t.log ∨ Kicked t

section Raw

variable {env : RawEnv} {cbs : Callbacks} {s t u : CommEvUNIXClient}

theorem KeepsKicked.refl (s : CommEvUNIXClient) : KeepsKicked s s := ⟨prefix_refl _, id⟩

theorem KeepsKicked.trans (h : KeepsKicked s t) (h' : KeepsKicked t u) : KeepsKicked s u :=
  ⟨h.grows.trans h'.grows, fun hs => h'.kicked (h.kicked hs)⟩

theorem KeepsKicked.of_kicked (hgrows : s.log <+: t.log) (h : Left t.log ∨ Kicked t) :
    KeepsKicked s t := ⟨hgrows, fun _ => h⟩

/-- Callbacks that do nothing but call the raw client. -/
def Harmless (cbs : Callbacks) : Prop :=
  ∀ serial s, Ends (cbs.finish serial) s (fun _ t => KeepsKicked s t) (fun _ _ => True) ∧
    ∀ code, Ends (cbs.ack serial code) s (fun _ t => KeepsKicked s t) fun _ _ => True

theorem guarded_keeps {callback : M Unit}
    (h : Ends callback s (fun _ t => KeepsKicked s t) fun _ _ => True) :
    Ends (guarded callback) s (fun _ t => KeepsKicked s t) fun _ _ => True := by
  simp only [guarded, ends_bind, ends_get, ends_assertThat]
  exact h.imp fun _ _ ht => ⟨fun _ => ht, fun _ => trivial⟩

theorem destroyPendingWrite_grows (hcbs : Harmless cbs) (fuel : Nat) :
    ∀ s, Ends (destroyPendingWrite cbs fuel) s (fun _ t => s.log <+: t.log) fun _ _ => True := by
  induction fuel with
  | zero => exact fun _ => trivial
  | succ fuel ih =>
      intro s
      simp only [destroyPendingWrite, ends_bind, ends_get]
      split
      · exact prefix_refl _
      · rename_i x pool _
        simp only [ends_bind, ends_set, ends_ite, ends_modify]
        refine ⟨fun _ => ?_, fun _ => ?_⟩
        · refine (guarded_keeps (hcbs _ _).1).imp fun _ t ht => ?_
          refine (ih t).imp fun _ u hu => ?_
          refine List.IsPrefix.trans ?_ (ht.grows.trans hu)
          exact (prefix_append _ _).trans (prefix_append _ _)
        · exact (ih _).imp (fun _ u hu => (prefix_append _ _).trans hu)

theorem destroyPendingAck_grows (hcbs : Harmless cbs) (fuel : Nat) :
    ∀ s, Ends (destroyPendingAck cbs fuel) s (fun _ t => s.log <+: t.log) fun _ _ => True := by
  induction fuel with
  | zero => exact fun _ => trivial
  | succ fuel ih =>
      intro s
      simp only [destroyPendingAck, ends_bind, ends_get]
      split
      · exact prefix_refl _
      · rename_i x pool _
        have hclose : ∀ t : CommEvUNIXClient, s.log <+: t.log →
            Ends (do
              if ((← get).req x).autocloseOnAck then autoCloseLocalDescriptors x
              destroyPendingAck cbs fuel) t (fun _ u => s.log <+: u.log) fun _ _ => True := by
          intro t ht
          simp only [ends_bind, ends_get, ends_ite, autoCloseLocalDescriptors, ends_assertThat,
            ends_modify]
          refine ⟨fun _ => ⟨fun _ => ?_, fun _ => trivial⟩, fun _ => ?_⟩
          · exact (ih _).imp fun _ u hu => ht.trans hu
          · exact (ih _).imp fun _ u hu => ht.trans hu
        simp only [ends_bind, ends_get, ends_ite] at hclose
        simp only [ends_bind, ends_set, ends_ite, ends_modify, ends_get]
        refine ⟨fun _ => ?_, fun _ => hclose _ (prefix_append _ _)⟩
        refine (guarded_keeps ((hcbs _ _).2 _)).imp fun _ t ht => ?_
        refine hclose t (List.IsPrefix.trans ?_ ht.grows)
        exact (prefix_append _ _).trans (prefix_append _ _)

theorem disconnect_keeps (hcbs : Harmless cbs) (fuel : Nat) :
    Ends (disconnect cbs fuel) s (fun _ t => KeepsKicked s t) fun _ _ => True := by
  simp only [disconnect, ioDataDestroy, ends_bind, ends_get, ends_ite, ends_modify, ends_pure]
  have hoff : ∀ {t : CommEvUNIXClient}, s.log <+: t.log → t.connected = false → KeepsKicked s t :=
    fun hgrows hno => .of_kicked hgrows (.inr fun hc => absurd hc (by simp [hno]))
  refine ⟨fun _ => ?_, fun _ => hoff (prefix_refl _) rfl⟩
  refine (destroyPendingWrite_grows hcbs fuel _).imp fun _ t ht => ?_
  refine (destroyPendingAck_grows hcbs fuel t).imp fun _ u hu => hoff ?_ rfl
  exact (prefix_append _ _).trans (ht.trans (hu.trans (prefix_append _ _)))

theorem eventRawWrite_keeps (hcbs : Harmless cbs) (canWriteSz : Int) (fuel : Nat) :
    ∀ s wroteTotal, Ends (eventRawWrite env cbs canWriteSz fuel wroteTotal) s
      (fun _ t => s.log <+: t.log ∧ (Left t.log ∨ Kicked t)) fun _ _ => True := by
  induction fuel with
  | zero => exact fun _ _ => trivial
  | succ fuel ih =>
      intro s wroteTotal
      simp only [eventRawWrite, ends_bind, ends_get]
      cases hlist : s.reqMemSlot.list pendingWrite with
      | nil => exact ⟨prefix_refl _, .inr fun _ => .inr hlist⟩
      | cons x rest =>
          have hserve : ∀ t : CommEvUNIXClient, s.log <+: t.log → ∀ wroteBytes : Int,
              Ends (do
                if ((← get).req x).remain > 0 then
                  modify fun c =>
                    { (c.setWriteEvent.setReq x fun req =>
                        { req with wrote := false, txRetryCount := req.txRetryCount + 1 }) with
                      reqScheduled := c.reqScheduled + 1
                      pendingWriteRequest := true }
                  return wroteTotal
                else
                  assertThat (decide (((← get).req x).remain = 0)) .remainLeft
                  finishRaw cbs x wroteBytes
                  if canWriteSz - wroteTotal - wroteBytes > 0 then
                    eventRawWrite env cbs canWriteSz fuel (wroteTotal + wroteBytes)
                  else
                    modify fun c => c.record
                      [.windowUsed (!c.writeEvent && !c.reqMemSlot.isEmptyList pendingWrite)]
                    return wroteTotal + wroteBytes) t
                (fun _ u => s.log <+: u.log ∧ (Left u.log ∨ Kicked u)) fun _ _ => True := by
            intro t ht wroteBytes
            simp only [ends_bind, ends_get, ends_ite, ends_modify, ends_pure, ends_assertThat,
              finishRaw]
            refine ⟨fun _ => ⟨ht, .inr fun hc => .inl ?_⟩, fun _ => ⟨fun _ => ?_, fun _ => trivial⟩⟩
            · have hc : t.connected = true := hc
              simp [setReq, setWriteEvent, hc]
            -- the rest of the event, once the slot is free
            have hgo : ∀ u : CommEvUNIXClient, s.log <+: u.log →
                (0 < canWriteSz - wroteTotal - wroteBytes →
                  Ends (eventRawWrite env cbs canWriteSz fuel (wroteTotal + wroteBytes)) u
                    (fun _ v => s.log <+: v.log ∧ (Left v.log ∨ Kicked v)) fun _ _ => True) ∧
                (¬ 0 < canWriteSz - wroteTotal - wroteBytes →
                  s.log <+: u.log ++
                    [.windowUsed (!u.writeEvent && !u.reqMemSlot.isEmptyList pendingWrite)] ∧
                  (Left (u.log ++
                    [.windowUsed (!u.writeEvent && !u.reqMemSlot.isEmptyList pendingWrite)]) ∨
                    Kicked u)) := by
              intro u hu
              refine ⟨fun _ => ?_, fun _ => ⟨hu.trans (prefix_append _ _), ?_⟩⟩
              · exact (ih u _).imp fun _ v hv => ⟨hu.trans hv.1, hv.2⟩
              · cases hevent : u.writeEvent with
                | true => exact .inr fun _ => .inl hevent
                | false =>
                    cases hempty : u.reqMemSlot.isEmptyList pendingWrite with
                    | true => exact .inr fun _ => .inr (List.isEmpty_iff.mp hempty)
                    | false => exact .inl (.inl (mem_append_right _ mem_cons_self))
            refine ⟨fun _ => ?_, fun _ => ⟨fun _ => ?_, fun _ => trivial⟩⟩
            · refine (guarded_keeps (hcbs _ _).1).imp fun _ u hu => ?_
              refine ⟨fun _ => ?_, fun _ => trivial⟩
              exact hgo _ ((ht.trans (prefix_append _ _)).trans
                (hu.grows.trans (prefix_append _ _)))
            · exact hgo _ (ht.trans (prefix_append _ _))
          simp only [ends_bind, ends_get, ends_ite, ends_modify, ends_pure, ends_assertThat] at hserve
          simp only [ioWriteRaw, ends_bind, ends_get, ends_ite, ends_modify, ends_pure,
            ends_assertThat, ends_modifyGet]
          refine ⟨fun _ => ⟨fun _ => ⟨fun _ => ?_, fun _ => ?_⟩, fun _ => trivial⟩, fun _ => trivial⟩
          · exact hserve _ (prefix_append _ _) _
          · exact hserve { s with sends := s.sends + 1 } (prefix_refl _) _

theorem ioDataInit_keeps : Ends ioDataInit s (fun _ t => KeepsKicked s t) fun _ _ => True := by
  simp only [ioDataInit, ends_modify]
  split
  · exact .refl s
  · exact .of_kicked (prefix_refl _) (.inr fun _ => .inr rfl)

theorem aioRawWrite_keeps (hcbs : Harmless cbs) (fuel : Nat) (data : List UInt8)
    (hasFinishCb : Bool) (finishCbdata : Nat) :
    Ends (aioRawWrite env cbs fuel data hasFinishCb finishCbdata) s
      (fun _ t => KeepsKicked s t) fun _ _ => True := by
  simp only [aioRawWrite, ends_bind, ends_get, ends_ite, ends_pure]
  refine ⟨fun _ => .refl s, fun _ => ?_⟩
  refine ioDataInit_keeps.imp fun _ t ht => ?_
  split
  · exact ht
  · rename_i x pool _
    simp only [ends_bind, ends_set, ends_ite, ends_modify, ends_pure, ends_assertThat]
    have hgrows := prefix_append t.log
    refine ⟨fun _ => ⟨fun _ => ?_, fun _ => ?_⟩, fun _ => trivial⟩
    · refine .of_kicked (ht.grows.trans (hgrows _)) (.inr fun hc => .inl ?_)
      have hc : t.connected = true := hc
      simp [setReq, setWriteEvent, hc]
    · refine (eventRawWrite_keeps hcbs 8092 fuel _ 0).imp fun _ u hu => ?_
      exact .of_kicked (ht.grows.trans ((hgrows _).trans hu.1)) hu.2

theorem rawOp_keeps (hcbs : Harmless cbs) (fuel : Nat) (op : RawOp) :
    Ends (rawOp env cbs fuel op) s (fun _ t => KeepsKicked s t) fun _ _ => True := by
  cases op with
  | rawWrite data fin fd =>
      simp only [rawOp, ends_bind, ends_pure]
      exact aioRawWrite_keeps hcbs fuel data fin fd
  | disconnect => exact disconnect_keeps hcbs fuel
  | disconnectRequest =>
      simp only [rawOp, disconnectRequest, ends_bind, ends_modify, ends_get, ends_ite, ends_pure]
      have hclose : KeepsKicked s { s with closeRequest := true } := ⟨prefix_refl _, id⟩
      refine ⟨fun _ => ?_, fun _ => hclose⟩
      exact (disconnect_keeps hcbs fuel).imp fun _ t ht => hclose.trans ht

theorem rawOps_keeps (hcbs : Harmless cbs) (fuel : Nat) (ops : List RawOp) :
    ∀ s, Ends (rawOps env cbs fuel ops) s (fun _ t => KeepsKicked s t) fun _ _ => True := by
  induction ops with
  | nil => exact fun s => .refl s
  | cons op ops ih =>
      intro s
      simp only [rawOps, ends_bind]
      refine (rawOp_keeps hcbs fuel op).imp fun _ t ht => ?_
      exact (ih t).imp fun _ u hu => ht.trans hu

theorem rawCallbacks_harmless (env : RawEnv) (fuel depth : Nat) :
    Harmless (rawCallbacks env fuel depth) := by
  induction depth with
  | zero => exact fun _ s => ⟨.refl s, fun _ => .refl s⟩
  | succ depth ih =>
      refine fun _ s => ⟨?_, fun _ => .refl s⟩
      simp only [rawCallbacks, ends_bind, ends_get, ends_modify]
      exact (rawOps_keeps ih fuel _ _).imp fun _ t ht => ⟨ht.grows, ht.kicked⟩

theorem handleRaw_keeps (env : RawEnv) (fuel : Nat) (ev : RawEvent) (s : CommEvUNIXClient) :
    Ends (handleRaw env fuel ev) s (fun _ t => KeepsKicked s t) fun _ _ => True := by
  have hcbs := rawCallbacks_harmless env fuel fuel
  cases ev with
  | user op => exact rawOp_keeps hcbs fuel op
  | write canWriteSz =>
      simp only [handleRaw, ends_bind, ends_get, ends_ite, ends_modify, ends_pure]
      refine ⟨fun _ => ?_, fun _ => .refl s⟩
      exact (eventRawWrite_keeps hcbs canWriteSz fuel _ 0).imp
        (fun _ t ht => .of_kicked ht.1 ht.2)
  | connect =>
      simp only [handleRaw, ends_bind, ends_get, ends_ite, ends_modify, ends_pure]
      refine ⟨fun _ => .of_kicked (prefix_append _ _) ?_, fun _ => .refl s⟩
      cases hempty : s.reqMemSlot.isEmptyList pendingWrite with
      | true => exact .inr fun _ => .inr (List.isEmpty_iff.mp hempty)
      | false => exact .inl (.inr (mem_append_right _ mem_cons_self))

theorem runRaw_kicked (env : RawEnv) (fuel : Nat) (evs : List RawEvent) :
    Runs.Holds (fun c => Left c.log ∨ Kicked c) (fun _ _ => True) (runRaw env fuel evs) := by
  refine Runs.invariant_run (I := fun c => Left c.log ∨ Kicked c) (fun ev s hs => ?_) ?_ evs
  · exact (handleRaw_keeps env fuel ev s).imp fun _ t ht => ht.kicked hs
  · exact Or.inr fun _ => Or.inr rfl

end Raw

/-- The kernel refuses the first write of a raw client and takes all the others. -/
def refuseFirst : RawEnv where
  sendmsg n := if n = 0 then .failed else .sent 64
  onFinish _ := []

end Unix
