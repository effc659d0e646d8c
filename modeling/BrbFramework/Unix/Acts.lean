import BrbFramework.Unix.Client

/-!
# What the client does to its requests

A run of the client is a sequence of acts, each of which changes the slots of the
requests, the stream, the call stack and the log in one way. The functions of the
client are followed once, in `Paths`; what a run keeps is read off the acts.

An act's conditions are the ones the code has checked, or that hold where it acts.
`Base` is what every act keeps without further conditions.
-/

namespace Unix

open BrbData MemSlotBase List Function CommEvUNIXClient

/-- What a request keeps between two steps of its sending. -/
def CommEvUNIXWriteRequest.core (req : CommEvUNIXWriteRequest) : CommEvUNIXWriteRequest :=
  { req with txRetryCount := 0, fdArr := req.fdArr.map fun _ => 0, wrote := false }

namespace CommEvUNIXClient

def view (c : CommEvUNIXClient) : CommEvUNIXClient where
  reqMemSlot := c.reqMemSlot
  init := c.init
  connected := c.connected
  pendingWriteRequest := c.pendingWriteRequest
  reqScheduled := c.reqScheduled
  out := c.out
  created := c.created
  epoch := c.epoch
  destroying := c.destroying
  active := c.active
  log := c.log

abbrev writes (c : CommEvUNIXClient) : List Nat := c.reqMemSlot.list pendingWrite

/-- The slots in the list of pending acknowledgements. -/
abbrev acks (c : CommEvUNIXClient) : List Nat := c.reqMemSlot.list pendingAck

abbrev stack (c : CommEvUNIXClient) : List Nat := c.active.map Prod.fst

end CommEvUNIXClient

open CommEvUNIXClient

/-- The invocation of a finish callback, if there is one. -/
def finishObs (req : CommEvUNIXWriteRequest) (size : Int) : List Obs :=
  if req.hasFinishCb then
    [.finish req.serial size (.request req.serial) (.cbdata req.finishCbdata)]
  else []

/-- The invocation of an ACK callback, if there is one. -/
def ackObs (req : CommEvUNIXWriteRequest) (code : AckCode) : List Obs :=
  if req.hasAckCb then [.ack req.serial code] else []

/-- The finish callback that the destruction of the buffers invokes. -/
def abandonObs (req : CommEvUNIXWriteRequest) : List Obs :=
  if req.hasFinishCb then [.finish req.serial (-1) (.cbdata req.finishCbdata) .parent] else []

/-- A slot between its grant and the decision what becomes of the request. -/
def Fresh (c : CommEvUNIXClient) (x : Nat) : Prop :=
  x ∈ c.writes ∧ (c.req x).inUse = false ∧ x ∉ c.stack

def Closed (log : List Obs) : Prop :=
  Obs.called .disconnect ∈ log ∨ Obs.called .disconnectRequest ∈ log

inductive Act : CommEvUNIXClient → CommEvUNIXClient → Prop
  | quiet {s t} (h : t.view = s.view) : Act s t
  | touch {s t} (x : Nat) (f : CommEvUNIXWriteRequest → CommEvUNIXWriteRequest)
      (hf : ∀ req, (f req).core = req.core)
      (h : t.view = { s.view with reqMemSlot := s.reqMemSlot.modifyData x f }) : Act s t
  | initData {s t} (hs : s.init = false)
      (h : t.view = { s.view with reqMemSlot := .init {} 4096, init := true }) : Act s t
  | called {s t} (op : UserOp)
      (h : t.view = { s.view with log := s.log ++ [.called op] }) : Act s t
  | granted {s t}
      (h : t.view = { s.view with log := s.log ++ [.granted s.destroying] }) : Act s t
  | accept {s t} (x : Nat) (pool : MemSlotBase CommEvUNIXWriteRequest)
      (req : CommEvUNIXWriteRequest) (hinit : s.init = true)
      (hgrab : s.reqMemSlot.slotGrab = some (x, pool))
      (hfresh : s.destroying = false → ∀ y ∈ s.writes, (s.req y).inUse = true ∨ y ∈ s.stack)
      (hlate : s.destroying = true → Obs.granted true ∈ s.log)
      (hserial : req.serial = s.created) (hid : req.reqId = x) (hoff : req.offset = 0)
      (hseq : req.seqId = 0) (hremain : req.remain = req.data.length)
      (huse : req.inUse = false) (hdata : req.data.length ≤ maxWriteSize)
      (hfds : req.fdArr.length ≤ maxFdArrSz)
      (hflags : req.ctrlFlags = flagRequest + if req.wantsAck then flagWantAck else 0)
      (h : t.view = { s.view with
        reqMemSlot := pool.modifyData x fun _ => req
        created := s.created + 1
        log := s.log ++ [.accepted req] }) : Act s t
  | header {s t} (x : Nat) (hx : x ∈ s.writes) (hstack : x ∉ s.stack)
      (hseq : (s.req x).seqId = 0)
      (hfirst : (s.pendingWriteRequest = false ∧ (s.req x).inUse = false) ∨
        (s.active = [] ∧ s.writes.head? = some x))
      (h : t.view = { s.view with
        reqMemSlot := s.reqMemSlot.modifyData x fun req => { req with seqId := req.seqId + 1 }
        out := s.out ++ (s.req x).header.encode
        log := s.log ++ [.header (s.req x)] }) : Act s t
  | payload {s t} (x n : Nat) (hx : x ∈ s.writes) (hstack : x ∉ s.stack)
      (hbegun : (s.req x).begun = true) (hn : (n : Int) ≤ (s.req x).remain)
      (hpos : 0 < n)
      (h : t.view = { s.view with
        reqMemSlot := s.reqMemSlot.modifyData x fun req =>
          { req with
            offset := req.offset + n
            remain := req.remain - n
            seqId := req.seqId + 1 }
        out := s.out ++ ((s.req x).data.drop (s.req x).offset).take n
        log := s.log ++
          [.payload (s.req x).serial (((s.req x).data.drop (s.req x).offset).take n)] }) :
      Act s t
  | enqueue {s t} (x : Nat) (hx : Fresh s x)
      (h : t.view = { s.view with
        reqMemSlot := s.reqMemSlot.modifyData x fun req =>
          { req with inUse := true, wrote := false, txRetryCount := req.txRetryCount + 1 }
        reqScheduled := s.reqScheduled + 1
        pendingWriteRequest := true }) : Act s t
  | finish {s t} (x : Nat) (size : Int) (hx : x ∈ s.writes) (hstack : x ∉ s.stack)
      (hbegun : (s.req x).begun = true) (hremain : (s.req x).remain = 0)
      (hsched : 0 ≤ t.reqScheduled)
      (h : t.view = { s.view with
        reqScheduled := s.reqScheduled - if (s.req x).inUse then 1 else 0
        active := (x, false) :: s.active
        log := s.log ++ finishObs (s.req x) size }) : Act s t
  | drop {s t} (x : Nat) (size : Int) (hx : x ∈ s.writes) (hstack : x ∉ s.stack)
      (h : t.view = { s.view with
        active := (x, false) :: s.active
        log := s.log ++ ([.dropped (s.req x).serial (s.req x).begun] ++
          finishObs (s.req x) size) }) : Act s t
  | ackDropped {s t} (x : Nat) (rest : List (Nat × Bool)) (hx : s.active = (x, false) :: rest)
      (h : t.view = { s.view with
        active := (x, true) :: rest
        log := s.log ++ ackObs (s.req x) .failed }) : Act s t
  | ackStray {s t} (x : Nat) (h : t.view = { s.view with log := s.log ++ [.acked x] }) : Act s t
  | ackIn {s t} (x : Nat) (hx : x ∈ s.writes ∨ x ∈ s.acks) (hstack : x ∉ s.stack)
      (hd : s.destroying = false)
      (h : t.view = { s.view with
        active := (x, true) :: s.active
        log := s.log ++ ([.acked x] ++ ackObs (s.req x) .ok) }) : Act s t
  | release {s t} (x : Nat) (acked : Bool) (rest : List (Nat × Bool))
      (hx : s.active = (x, acked) :: rest)
      (hacked : acked = false → (s.req x).wantsAck = false)
      (h : t.view = { s.view with
        reqMemSlot := (s.reqMemSlot.modifyData x fun req => { req with inUse := false }).slotFree x
        active := rest
        log := s.log ++ [.released (s.req x).serial] }) : Act s t
  | wait {s t} (x : Nat) (rest : List (Nat × Bool)) (hx : s.active = (x, false) :: rest)
      (hwants : (s.req x).wantsAck = true)
      (h : t.view = { s.view with
        reqMemSlot := (s.reqMemSlot.modifyData x fun req =>
          { req with inUse := true, wrote := true }).slotListIDSwitch x pendingAck
        active := rest
        log := s.log ++ [.waiting x] }) : Act s t
  | ackHeader {s t} (reqId : Int32)
      (h : t.view = { s.view with
        out := s.out ++ (Unix.ackHeader reqId.toInt).encode
        log := s.log ++ [.ackHeader reqId s.midFrame] }) : Act s t
  | idle {s t} (hs : s.writes = [])
      (h : t.view = { s.view with pendingWriteRequest := false }) : Act s t
  | destroying {s t} (hs : s.init = true) (hclosed : Closed s.log)
      (h : t.view = { s.view with
        epoch := s.epoch + 1
        destroying := true
        active := []
        log := s.log ++ [.destroying (s.destroying || !s.active.isEmpty)] }) : Act s t
  | abandon {s t} (x : Nat) (rest : List Nat) (hx : s.writes = x :: rest)
      (hd : s.destroying = true) (hstack : s.active = [])
      (h : t.view = { s.view with
        reqMemSlot := s.reqMemSlot.slotFree x
        log := s.log ++ ([.abandoned (s.req x), .released (s.req x).serial] ++
          abandonObs (s.req x)) }) : Act s t
  | fail {s t} (x : Nat) (rest : List Nat) (hx : s.acks = x :: rest)
      (hd : s.destroying = true) (hstack : s.active = [])
      (h : t.view = { s.view with
        reqMemSlot := s.reqMemSlot.slotFree x
        log := s.log ++ ([.released (s.req x).serial] ++ ackObs (s.req x) .failed) }) : Act s t
  | destroyed {s t} (hd : s.destroying = true) (hstack : s.active = []) (hacks : s.acks = [])
      (hwrites : s.writes = [] ∨ Obs.granted true ∈ s.log)
      (h : t.view = { s.view with
        reqMemSlot := .init {} 4096
        init := false
        destroying := false
        log := s.log ++ [.destroyed] }) : Act s t
  | disconnect {s t} (hclosed : Closed s.log)
      (h : t.view = { s.view with connected := false }) : Act s t
  | connect {s t} (hs : s.connected = false)
      (h : t.view = { s.view with
        connected := true
        out := []
        log := s.log ++ [.connected (!s.reqMemSlot.isEmptyList pendingWrite)] }) : Act s t

inductive Path : CommEvUNIXClient → CommEvUNIXClient → Prop
  | refl (s) : Path s s
  | step {s t u} (h : Act s t) (rest : Path t u) : Path s u

theorem Act.path {s t : CommEvUNIXClient} (h : Act s t) : Path s t := .step h (.refl t)

theorem Path.trans {s t u : CommEvUNIXClient} (h : Path s t) (h' : Path t u) : Path s u := by
  induction h with
  | refl => exact h'
  | step h _ ih => exact .step h (ih h')

/-- The ids that the peer has still to acknowledge. -/
def owed (log : List Obs) : List Nat :=
  log.foldl
    (fun ids o =>
      match o with
      | .waiting x => x :: ids
      | .acked x => ids.erase x
      | .destroying _ | .destroyed => []
      | _ => ids) []

/-- What holds of the request in slot `x`, when `created` requests were accepted. -/
structure Formed (created x : Nat) (req : CommEvUNIXWriteRequest) : Prop where
  reqId_eq : req.reqId = x
  serial_lt : req.serial < created
  remain_eq : req.remain = req.data.length - req.offset
  offset_le : req.offset ≤ req.data.length
  length_le : req.data.length ≤ maxWriteSize
  fds_le : req.fdArr.length ≤ maxFdArrSz
  flags_eq : req.ctrlFlags = flagRequest + if req.wantsAck then flagWantAck else 0

structure Base (c : CommEvUNIXClient) : Prop where
  wf : c.reqMemSlot.WF
  bound : ∀ x, x ∈ c.reqMemSlot.slots ∨ x ∈ c.writes ∨ x ∈ c.acks → x < 4096
  uninit : c.init = false → c.writes = [] ∧ c.acks = []
  formed : ∀ x, x ∈ c.writes ∨ x ∈ c.acks → Formed c.created x (c.req x)
  inj : ∀ x y, x ∈ c.writes ∨ x ∈ c.acks → y ∈ c.writes ∨ y ∈ c.acks →
    (c.req x).serial = (c.req y).serial → x = y
  waits : ∀ x ∈ c.acks, (c.req x).inUse = true
  free : c.destroying = false → ∀ x, x ∉ c.writes → x ∉ c.acks → (c.req x).inUse = false
  stack_nodup : c.stack.Nodup
  stack_mem : ∀ e ∈ c.active, e.1 ∈ c.writes ∨ (e.2 = true ∧ e.1 ∈ c.acks)
  fresh_last : c.destroying = false → ∀ x y, Fresh c x → ¬ [x, y].Sublist c.writes
  kicked : c.destroying = false → c.pendingWriteRequest = false →
    ∀ x ∈ c.writes, x ∈ c.stack ∨ (c.req x).inUse = false
  sched : c.destroying = false →
    ((c.writes.countP fun x => (c.req x).inUse && x ∉ c.stack : Nat) : Int) ≤ c.reqScheduled
  sched_nonneg : 0 ≤ c.reqScheduled
  owed_nodup : c.destroying = false → (owed c.log).Nodup
  owed_mem : c.destroying = false → ∀ x ∈ owed c.log, x ∈ c.acks ∧ x ∉ c.stack

section Owed

@[simp] theorem owed_append (log l : List Obs) :
    owed (log ++ l) = l.foldl
      (fun ids o =>
        match o with
        | .waiting x => x :: ids
        | .acked x => ids.erase x
        | .destroying _ | .destroyed => []
        | _ => ids) (owed log) := by
  unfold owed
  rw [foldl_append]

theorem owed_finishObs (log : List Obs) (req : CommEvUNIXWriteRequest) (size : Int) :
    owed (log ++ finishObs req size) = owed log := by
  unfold finishObs
  split <;> simp

theorem owed_ackObs (log : List Obs) (req : CommEvUNIXWriteRequest) (code : AckCode) :
    owed (log ++ ackObs req code) = owed log := by
  unfold ackObs
  split <;> simp

theorem owed_abandonObs (log : List Obs) (req : CommEvUNIXWriteRequest) :
    owed (log ++ abandonObs req) = owed log := by
  unfold abandonObs
  split <;> simp

end Owed

section Base

variable {s t : CommEvUNIXClient}

theorem base_view : Base s.view ↔ Base s :=
  ⟨fun h => ⟨h.wf, h.bound, h.uninit, h.formed, h.inj, h.waits, h.free, h.stack_nodup,
      h.stack_mem, h.fresh_last, h.kicked, h.sched, h.sched_nonneg, h.owed_nodup, h.owed_mem⟩,
    fun h => ⟨h.wf, h.bound, h.uninit, h.formed, h.inj, h.waits, h.free, h.stack_nodup,
      h.stack_mem, h.fresh_last, h.kicked, h.sched, h.sched_nonneg, h.owed_nodup, h.owed_mem⟩⟩

theorem Base.start (auto : Bool) : Base (Unix.start auto) where
  wf := wf_init _ _
  bound := by simp [Unix.start, writes, acks, MemSlotBase.init]
  uninit := fun _ => ⟨rfl, rfl⟩
  formed := by simp [Unix.start, writes, acks, MemSlotBase.init]
  inj := by simp [Unix.start, writes, acks, MemSlotBase.init]
  waits := by simp [Unix.start, acks, MemSlotBase.init]
  free := fun _ _ _ _ => rfl
  stack_nodup := nodup_nil
  stack_mem := by simp [Unix.start]
  fresh_last := fun _ _ _ h => absurd h.1 (by simp [Unix.start, writes, MemSlotBase.init])
  kicked := by simp [Unix.start, writes, MemSlotBase.init]
  sched := by simp [Unix.start, writes, MemSlotBase.init]
  sched_nonneg := Int.le_refl 0
  owed_nodup := fun _ => nodup_nil
  owed_mem := by simp [Unix.start, owed]

theorem Formed.of_core {created x : Nat} {r r' : CommEvUNIXWriteRequest} (h : Formed created x r)
    (hcore : r'.core = r.core) : Formed created x r' := by
  have hid : r'.reqId = r.reqId := (congrArg (·.reqId) hcore :)
  have hserial : r'.serial = r.serial := (congrArg (·.serial) hcore :)
  have hremain : r'.remain = r.remain := (congrArg (·.remain) hcore :)
  have hdata : r'.data = r.data := (congrArg (·.data) hcore :)
  have hoff : r'.offset = r.offset := (congrArg (·.offset) hcore :)
  have hfds : r'.fdArr.length = r.fdArr.length := by
    have h := congrArg (fun q => q.fdArr.length) hcore
    simpa [CommEvUNIXWriteRequest.core] using h
  have hflags : r'.ctrlFlags = r.ctrlFlags := (congrArg (·.ctrlFlags) hcore :)
  have hwants : r'.wantsAck = r.wantsAck := (congrArg (·.wantsAck) hcore :)
  exact ⟨hid ▸ h.reqId_eq, hserial ▸ h.serial_lt, by rw [hremain, hdata, hoff]; exact h.remain_eq,
    by rw [hdata, hoff]; exact h.offset_le, hdata ▸ h.length_le, hfds ▸ h.fds_le,
    by rw [hflags, hwants]; exact h.flags_eq⟩

theorem Formed.mono {created created' x : Nat} {r : CommEvUNIXWriteRequest}
    (h : Formed created x r) (hle : created ≤ created') : Formed created' x r :=
  { h with serial_lt := Nat.lt_of_lt_of_le h.serial_lt hle }

/-- What an act that writes into the requests leaves alone. -/
structure Frame (s t : CommEvUNIXClient) : Prop where
  wf : t.reqMemSlot.WF
  list_eq : t.reqMemSlot.list = s.reqMemSlot.list
  slots_eq : t.reqMemSlot.slots = s.reqMemSlot.slots
  formed : ∀ x, x ∈ s.writes ∨ x ∈ s.acks → Formed t.created x (t.req x)
  serial_eq : ∀ x, (t.req x).serial = (s.req x).serial
  inUse_eq : ∀ x, (t.req x).inUse = (s.req x).inUse
  init_eq : t.init = s.init
  destroying_eq : t.destroying = s.destroying
  active_eq : t.active = s.active
  pending_eq : t.pendingWriteRequest = s.pendingWriteRequest
  sched_eq : t.reqScheduled = s.reqScheduled
  owed_eq : owed t.log = owed s.log

theorem Frame.writes_eq (h : Frame s t) : t.writes = s.writes := by
  unfold writes
  rw [h.list_eq]

theorem Frame.acks_eq (h : Frame s t) : t.acks = s.acks := by
  unfold acks
  rw [h.list_eq]

theorem Frame.stack_eq (h : Frame s t) : t.stack = s.stack := by
  unfold stack
  rw [h.active_eq]

theorem Frame.fresh {x : Nat} (h : Frame s t) : Fresh t x ↔ Fresh s x := by
  unfold Fresh
  rw [h.writes_eq, h.inUse_eq, h.stack_eq]

theorem Base.frame (h : Base s) (hf : Frame s t) : Base t where
  wf := hf.wf
  bound := by rw [hf.slots_eq, hf.writes_eq, hf.acks_eq]; exact h.bound
  uninit := by rw [hf.init_eq, hf.writes_eq, hf.acks_eq]; exact h.uninit
  formed := by rw [hf.writes_eq, hf.acks_eq]; exact hf.formed
  inj := by
    intro x y
    rw [hf.writes_eq, hf.acks_eq, hf.serial_eq, hf.serial_eq]
    exact h.inj x y
  waits := by
    intro x
    rw [hf.acks_eq, hf.inUse_eq]
    exact h.waits x
  free := by
    rw [hf.destroying_eq, hf.writes_eq, hf.acks_eq]
    intro hd x hw ha
    rw [hf.inUse_eq]
    exact h.free hd x hw ha
  stack_nodup := hf.stack_eq ▸ h.stack_nodup
  stack_mem := by rw [hf.active_eq, hf.writes_eq, hf.acks_eq]; exact h.stack_mem
  fresh_last := by
    intro hd x y
    rw [hf.fresh, hf.writes_eq]
    exact h.fresh_last (hf.destroying_eq ▸ hd) x y
  kicked := by
    rw [hf.pending_eq, hf.writes_eq, hf.stack_eq]
    intro hd hp x hx
    rw [hf.inUse_eq]
    exact h.kicked (hf.destroying_eq ▸ hd) hp x hx
  sched := by
    intro hd
    rw [hf.writes_eq, hf.stack_eq, hf.sched_eq]
    simpa only [hf.inUse_eq] using h.sched (hf.destroying_eq ▸ hd)
  sched_nonneg := hf.sched_eq ▸ h.sched_nonneg
  owed_nodup := by rw [hf.destroying_eq, hf.owed_eq]; exact h.owed_nodup
  owed_mem := by rw [hf.destroying_eq, hf.owed_eq, hf.acks_eq, hf.stack_eq]; exact h.owed_mem

theorem frame_of_eq (h : Base s) (hpool : t.reqMemSlot = s.reqMemSlot) (hinit : t.init = s.init)
    (hcreated : t.created = s.created) (hd : t.destroying = s.destroying)
    (hactive : t.active = s.active) (hpending : t.pendingWriteRequest = s.pendingWriteRequest)
    (hsched : t.reqScheduled = s.reqScheduled) (howed : owed t.log = owed s.log) : Frame s t := by
  have hreq : t.req = s.req := by
    funext x
    simp only [req, hpool]
  exact ⟨hpool ▸ h.wf, by rw [hpool], by rw [hpool], fun x hx => by
    rw [hreq, hcreated]; exact h.formed x hx, fun x => by rw [hreq], fun x => by rw [hreq], hinit, hd,
    hactive, hpending, hsched, howed⟩

theorem frame_of_modify (h : Base s) {x : Nat}
    {f : CommEvUNIXWriteRequest → CommEvUNIXWriteRequest}
    (hpool : t.reqMemSlot = s.reqMemSlot.modifyData x f)
    (hserial : ∀ r, (f r).serial = r.serial) (huse : ∀ r, (f r).inUse = r.inUse)
    (hformed : x ∈ s.writes ∨ x ∈ s.acks → Formed s.created x (f (s.req x)))
    (hinit : t.init = s.init) (hcreated : t.created = s.created)
    (hd : t.destroying = s.destroying) (hactive : t.active = s.active)
    (hpending : t.pendingWriteRequest = s.pendingWriteRequest)
    (hsched : t.reqScheduled = s.reqScheduled) (howed : owed t.log = owed s.log) : Frame s t := by
  have hself : t.req x = f (s.req x) := by
    simp [req, hpool]
  have hother : ∀ y, y ≠ x → t.req y = s.req y := fun y hy => by
    simp [req, hpool, slotData_modifyData_of_ne _ _ _ hy]
  refine ⟨hpool ▸ h.wf.modifyData x f, by rw [hpool]; rfl, by rw [hpool]; rfl, fun y hy => ?_,
    fun y => ?_, fun y => ?_, hinit, hd, hactive, hpending, hsched, howed⟩
  · rw [hcreated]
    by_cases hyx : y = x
    · rw [hyx] at hy ⊢
      rw [hself]
      exact hformed hy
    · rw [hother y hyx]
      exact h.formed y hy
  · by_cases hyx : y = x
    · rw [hyx, hself, hserial]
    · rw [hother y hyx]
  · by_cases hyx : y = x
    · rw [hyx, hself, huse]
    · rw [hother y hyx]

end Base

section Counting

variable {l l' : List Nat} {p q : Nat → Bool} {x : Nat}

theorem countP_le_of_sublist (hl : l'.Sublist l) (h : ∀ y ∈ l', q y = true → p y = true) :
    l'.countP q ≤ l.countP p :=
  (countP_mono_left h).trans hl.countP_le

theorem countP_le_succ (hl : l.Nodup) (h : ∀ y ∈ l, q y = true → p y = true ∨ y = x) :
    l.countP q ≤ l.countP p + 1 := by
  induction l with
  | nil => simp
  | cons y l ih =>
      obtain ⟨hy, hl⟩ := nodup_cons.mp hl
      have htail := ih hl fun z hz => h z (mem_cons_of_mem _ hz)
      rw [countP_cons, countP_cons]
      by_cases hyx : y = x
      · have hrest : l.countP q ≤ l.countP p := countP_mono_left fun z hz hq =>
          (h z (mem_cons_of_mem _ hz) hq).resolve_right fun hzx => hy (hyx ▸ hzx ▸ hz)
        have hone : (if q y = true then 1 else 0) ≤ 1 := by split <;> omega
        omega
      · have hhead : q y = true → p y = true := fun hq =>
          (h y mem_cons_self hq).resolve_right hyx
        by_cases hq : q y = true
        · rw [if_pos hq, if_pos (hhead hq)]
          omega
        · rw [if_neg hq]
          omega

theorem countP_succ_le (hx : x ∈ l) (hp : p x = true) (hq : q x = false)
    (h : ∀ y ∈ l, q y = true → p y = true) : l.countP q + 1 ≤ l.countP p := by
  induction l with
  | nil => simp at hx
  | cons y l ih =>
      rw [countP_cons, countP_cons]
      have hhead := h y mem_cons_self
      have hrest : l.countP q ≤ l.countP p :=
        countP_mono_left fun z hz => h z (mem_cons_of_mem _ hz)
      rcases mem_cons.mp hx with rfl | hx
      · simp only [hp, hq, if_true, Bool.false_eq_true, if_false]
        omega
      · have htail := ih hx fun z hz => h z (mem_cons_of_mem _ hz)
        by_cases hqy : q y = true
        · rw [if_pos hqy, if_pos (hhead hqy)]
          omega
        · rw [if_neg hqy]
          omega

end Counting

section Slots

variable {m : MemSlotBase CommEvUNIXWriteRequest} {x : Nat}

theorem not_mem_acks_of_writes (hm : m.WF) (hx : x ∈ m.list pendingWrite) :
    x ∉ m.list pendingAck := fun h => absurd (hm.list_unique hx h) (by decide)

theorem lists_of_slotFree (hm : m.WF) (hx : x ∈ m.list pendingWrite ∨ x ∈ m.list pendingAck) :
    (m.slotFree x).WF ∧ (m.slotFree x).slots = x :: m.slots ∧
      (m.slotFree x).list pendingWrite = (m.list pendingWrite).erase x ∧
      (m.slotFree x).list pendingAck = (m.list pendingAck).erase x := by
  rcases hx with hx | hx
  · refine ⟨hm.slotFree hx, hm.slotFree_slots hx, ?_, ?_⟩
    · rw [hm.slotFree_list hx, update_self]
    · rw [hm.slotFree_list hx, update_of_ne (by decide)]
      exact (erase_of_not_mem (not_mem_acks_of_writes hm hx)).symm
  · refine ⟨hm.slotFree hx, hm.slotFree_slots hx, ?_, ?_⟩
    · rw [hm.slotFree_list hx, update_of_ne (by decide)]
      exact (erase_of_not_mem fun h => not_mem_acks_of_writes hm h hx).symm
    · rw [hm.slotFree_list hx, update_self]

end Slots

section Keep

variable {s t : CommEvUNIXClient}

theorem Base.remove (h : Base s) {x : Nat} {rest : List (Nat × Bool)}
    (hx : x ∈ s.writes ∨ x ∈ s.acks)
    (hstack : s.active = rest ∨ ∃ acked, s.active = (x, acked) :: rest)
    (hoff : x ∉ rest.map Prod.fst)
    (hlists : t.reqMemSlot.WF ∧ t.reqMemSlot.slots = x :: s.reqMemSlot.slots ∧
      t.writes = s.writes.erase x ∧ t.acks = s.acks.erase x)
    (hreq : ∀ y, y ≠ x → t.req y = s.req y)
    (hfree : s.destroying = false → (t.req x).inUse = false)
    (hinit : t.init = s.init) (hcreated : t.created = s.created)
    (hd : t.destroying = s.destroying) (hactive : t.active = rest)
    (hpending : t.pendingWriteRequest = s.pendingWriteRequest)
    (hsched : t.reqScheduled = s.reqScheduled)
    (howed : owed t.log = owed s.log) (hnot : s.destroying = false → x ∉ owed s.log) : Base t := by
  obtain ⟨hwf, hslots, hwrites, hacks⟩ := hlists
  have hwnodup : s.writes.Nodup := h.wf.list_nodup _
  have hanodup : s.acks.Nodup := h.wf.list_nodup _
  have hmemW : ∀ y, y ∈ t.writes ↔ y ≠ x ∧ y ∈ s.writes := fun y => by
    rw [hwrites, hwnodup.mem_erase_iff]
  have hmemA : ∀ y, y ∈ t.acks ↔ y ≠ x ∧ y ∈ s.acks := fun y => by
    rw [hacks, hanodup.mem_erase_iff]
  have hmem : ∀ y, y ∈ t.writes ∨ y ∈ t.acks → y ≠ x ∧ (y ∈ s.writes ∨ y ∈ s.acks) := by
    intro y hy
    rcases hy with hy | hy
    · exact ⟨((hmemW y).mp hy).1, .inl ((hmemW y).mp hy).2⟩
    · exact ⟨((hmemA y).mp hy).1, .inr ((hmemA y).mp hy).2⟩
  have hstackT : t.stack = rest.map Prod.fst := by rw [stack, hactive]
  -- the stack without the request
  have hstackS : ∀ y, y ≠ x → (y ∈ s.stack ↔ y ∈ t.stack) := fun y hy => by
    rcases hstack with hs | ⟨acked, hs⟩
    · rw [hstackT, stack, hs]
    · rw [hstackT, stack, hs, map_cons, mem_cons]
      exact ⟨fun hin => hin.resolve_left hy, .inr⟩
  have hsub : rest.Sublist s.active := by
    rcases hstack with hs | ⟨acked, hs⟩
    · rw [hs]
    · rw [hs]
      exact sublist_cons_self _ _
  have hfresh : ∀ y, Fresh t y → Fresh s y := by
    rintro y ⟨hy, huse, hnotin⟩
    obtain ⟨hne, hin⟩ := (hmemW y).mp hy
    exact ⟨hin, by rw [← hreq y hne]; exact huse, fun hs => hnotin ((hstackS y hne).mp hs)⟩
  refine ⟨hwf, fun y hy => ?_, fun hi => ?_, fun y hy => ?_, fun y z hy hz => ?_, fun y hy => ?_,
    fun hds y hw ha => ?_, ?_, fun e he => ?_, fun hds y z hy hs => ?_, fun hds hp y hy => ?_,
    fun hds => ?_, hsched ▸ h.sched_nonneg, fun hds => ?_, fun hds y hy => ?_⟩
  · rw [hslots, mem_cons] at hy
    rcases hy with (rfl | hy) | hy
    · exact h.bound y (.inr hx)
    · exact h.bound y (.inl hy)
    · exact h.bound y (.inr (hmem y hy).2)
  · obtain ⟨hw, ha⟩ := h.uninit (hinit ▸ hi)
    rw [hwrites, hacks, hw, ha]
    exact ⟨rfl, rfl⟩
  · rw [hcreated, hreq y (hmem y hy).1]
    exact h.formed y (hmem y hy).2
  · rw [hreq y (hmem y hy).1, hreq z (hmem z hz).1]
    exact h.inj y z (hmem y hy).2 (hmem z hz).2
  · obtain ⟨hne, hin⟩ := (hmemA y).mp hy
    rw [hreq y hne]
    exact h.waits y hin
  · rw [hd] at hds
    by_cases hyx : y = x
    · rw [hyx]
      exact hfree hds
    · rw [hreq y hyx]
      exact h.free hds y (fun hin => hw ((hmemW y).mpr ⟨hyx, hin⟩))
        fun hin => ha ((hmemA y).mpr ⟨hyx, hin⟩)
  · rw [hstackT]
    exact List.Nodup.sublist (hsub.map Prod.fst) h.stack_nodup
  · rw [hactive] at he
    have hne : e.1 ≠ x := fun heq => hoff (heq ▸ mem_map_of_mem he)
    rcases h.stack_mem e (hsub.subset he) with hin | ⟨hacked, hin⟩
    · exact .inl ((hmemW _).mpr ⟨hne, hin⟩)
    · exact .inr ⟨hacked, (hmemA _).mpr ⟨hne, hin⟩⟩
  · rw [hwrites] at hs
    exact h.fresh_last (hd ▸ hds) y z (hfresh y hy) (hs.trans erase_sublist)
  · obtain ⟨hne, hin⟩ := (hmemW y).mp hy
    rw [hreq y hne, ← hstackS y hne]
    exact h.kicked (hd ▸ hds) (hpending ▸ hp) y hin
  · refine Int.le_trans (Int.ofNat_le.mpr ?_) (hsched ▸ h.sched (hd ▸ hds))
    refine countP_le_of_sublist (hwrites ▸ erase_sublist) fun y hy hq => ?_
    have hne := ((hmemW y).mp hy).1
    rw [hreq y hne] at hq
    simpa [hstackS y hne] using hq
  · exact howed ▸ h.owed_nodup (hd ▸ hds)
  · rw [howed] at hy
    have hne : y ≠ x := fun heq => hnot (hd ▸ hds) (heq ▸ hy)
    obtain ⟨hin, hnotin⟩ := h.owed_mem (hd ▸ hds) y hy
    exact ⟨(hmemA y).mpr ⟨hne, hin⟩, fun hs => hnotin ((hstackS y hne).mpr hs)⟩

theorem Base.push (h : Base s) {x : Nat} {acked : Bool} {rest : List (Nat × Bool)}
    (hx : x ∈ s.writes ∨ (acked = true ∧ x ∈ s.acks)) (hoff : x ∉ rest.map Prod.fst)
    (hstack : s.active = rest ∨ ∃ old, s.active = (x, old) :: rest)
    (hactive : t.active = (x, acked) :: rest) (hpool : t.reqMemSlot = s.reqMemSlot)
    (hinit : t.init = s.init) (hcreated : t.created = s.created)
    (hd : t.destroying = s.destroying) (hpending : t.pendingWriteRequest = s.pendingWriteRequest)
    (hsched : t.reqScheduled = s.reqScheduled ∨
      (t.reqScheduled = s.reqScheduled - 1 ∧ 0 ≤ t.reqScheduled ∧ x ∈ s.writes ∧
        (s.req x).inUse = true ∧ x ∉ s.stack))
    (howed : s.destroying = false → (owed t.log).Nodup)
    (howedMem : s.destroying = false → ∀ y ∈ owed t.log, y ∈ owed s.log ∧ y ≠ x) : Base t := by
  have hreq : t.req = s.req := by
    funext y
    simp only [req, hpool]
  have hwrites : t.writes = s.writes := by rw [writes, hpool]
  have hacks : t.acks = s.acks := by rw [acks, hpool]
  have hstackT : t.stack = x :: rest.map Prod.fst := by rw [stack, hactive]; rfl
  have hsub : ∀ y, y ∈ s.stack → y ∈ t.stack := fun y hy => by
    rw [hstackT]
    rcases hstack with hs | ⟨old, hs⟩
    · rw [stack, hs] at hy
      exact mem_cons_of_mem _ hy
    · rw [stack, hs] at hy
      exact hy
  have hrest : ∀ e ∈ rest, e ∈ s.active := fun e he => by
    rcases hstack with hs | ⟨old, hs⟩
    · exact hs ▸ he
    · exact hs ▸ mem_cons_of_mem _ he
  have hnodup : t.stack.Nodup := by
    rw [hstackT]
    refine nodup_cons.mpr ⟨hoff, ?_⟩
    rcases hstack with hs | ⟨old, hs⟩
    · have hn := h.stack_nodup
      rw [stack, hs] at hn
      exact hn
    · have hn := h.stack_nodup
      rw [stack, hs] at hn
      exact (nodup_cons.mp hn).2
  refine ⟨hpool ▸ h.wf, by rw [hpool, hwrites, hacks]; exact h.bound,
    by rw [hinit, hwrites, hacks]; exact h.uninit,
    by rw [hwrites, hacks, hreq, hcreated]; exact h.formed,
    by rw [hwrites, hacks, hreq]; exact h.inj, by rw [hacks, hreq]; exact h.waits,
    by rw [hd, hwrites, hacks, hreq]; exact h.free, hnodup, fun e he => ?_, fun hds y z hy hs => ?_,
    fun hds hp y hy => ?_, fun hds => ?_, ?_, fun hds => howed (hd ▸ hds), fun hds y hy => ?_⟩
  · rw [hwrites, hacks]
    rw [hactive] at he
    rcases mem_cons.mp he with rfl | he
    · exact hx
    · exact h.stack_mem e (hrest e he)
  · rw [hwrites] at hs
    refine h.fresh_last (hd ▸ hds) y z ⟨hwrites ▸ hy.1, hreq ▸ hy.2.1, fun hin => hy.2.2 (hsub y hin)⟩ hs
  · rw [hreq]
    exact (h.kicked (hd ▸ hds) (hpending ▸ hp) y (hwrites ▸ hy)).imp_left (hsub y)
  · rw [hwrites, hreq]
    have hmono : ∀ y ∈ s.writes, ((s.req y).inUse && decide (y ∉ t.stack)) = true →
        ((s.req y).inUse && decide (y ∉ s.stack)) = true := by
      intro y _ hq
      simp only [Bool.and_eq_true, decide_eq_true_eq] at hq ⊢
      exact ⟨hq.1, fun hin => hq.2 (hsub y hin)⟩
    have hold := h.sched (hd ▸ hds)
    rcases hsched with hs | ⟨hs, -, hxw, huse, hout⟩
    · rw [hs]
      exact Int.le_trans (Int.ofNat_le.mpr (countP_mono_left hmono)) hold
    · have hless := countP_succ_le hxw (by simp only [huse, hout, Bool.and_eq_true,
        decide_eq_true_eq, not_false_eq_true, and_self]) (by simp [hstackT]) hmono
      rw [hs]
      omega
  · rcases hsched with hs | ⟨-, hs, -⟩
    · exact hs ▸ h.sched_nonneg
    · exact hs
  · obtain ⟨hin, hne⟩ := howedMem (hd ▸ hds) y hy
    obtain ⟨hacksIn, hout⟩ := h.owed_mem (hd ▸ hds) y hin
    rw [hacks]
    refine ⟨hacksIn, fun hin' => ?_⟩
    rw [hstackT, mem_cons] at hin'
    rcases hin' with heq | hin'
    · exact hne heq
    · obtain ⟨e, he, rfl⟩ := mem_map.mp hin'
      exact hout (mem_map_of_mem (hrest e he))

theorem Base.blank {n : Nat} (hn : n ≤ 4096) (hpool : t.reqMemSlot = .init {} n)
    (hactive : t.active = []) (hsched : 0 ≤ t.reqScheduled)
    (howed : t.destroying = false → owed t.log = []) : Base t := by
  have hwrites : t.writes = [] := by rw [writes, hpool]; rfl
  have hacks : t.acks = [] := by rw [acks, hpool]; rfl
  have hnone : ∀ {x}, ¬ (x ∈ t.writes ∨ x ∈ t.acks) := by simp [hwrites, hacks]
  refine ⟨hpool ▸ wf_init _ _, fun x hx => ?_, fun _ => ⟨hwrites, hacks⟩,
    fun x hx => absurd hx hnone, fun x _ hx => absurd hx hnone, by simp [hacks], fun _ x _ _ => ?_,
    by simp [stack, hactive], by simp [hactive], fun _ x _ hx => absurd (.inl hx.1) hnone,
    by simp [hwrites], by simpa [hwrites] using fun _ => hsched, hsched,
    fun hd => by rw [howed hd]; exact nodup_nil, fun hd => by simp [howed hd]⟩
  · rcases hx with hx | hx
    · rw [hpool] at hx
      exact Nat.lt_of_lt_of_le (mem_range.mp hx) hn
    · exact absurd hx hnone
  · simp [req, hpool, MemSlotBase.init, slotData]

theorem Base.accept (h : Base s) {x : Nat} {pool : MemSlotBase CommEvUNIXWriteRequest}
    {req : CommEvUNIXWriteRequest} (hinit : s.init = true)
    (hgrab : s.reqMemSlot.slotGrab = some (x, pool))
    (hfresh : s.destroying = false → ∀ y ∈ s.writes, (s.req y).inUse = true ∨ y ∈ s.stack)
    (hserial : req.serial = s.created) (hformed : Formed (s.created + 1) x req)
    (huse : req.inUse = false) (hpool : t.reqMemSlot = pool.modifyData x fun _ => req)
    (hi : t.init = s.init) (hcreated : t.created = s.created + 1)
    (hd : t.destroying = s.destroying) (hactive : t.active = s.active)
    (hpending : t.pendingWriteRequest = s.pendingWriteRequest)
    (hsched : t.reqScheduled = s.reqScheduled) (howed : owed t.log = owed s.log) : Base t := by
  have hself : t.req x = req := by simp [CommEvUNIXClient.req, hpool]
  have hother : ∀ y, y ≠ x → t.req y = s.req y := fun y hy => by
    simp [CommEvUNIXClient.req, hpool, slotData_modifyData_of_ne _ _ _ hy, slotGrab_data hgrab]
  have hwrites : t.writes = s.writes ++ [x] := by
    rw [writes, hpool, modifyData_list]
    exact slotGrab_list_zero hgrab
  have hacks : t.acks = s.acks := by
    rw [acks, hpool, modifyData_list]
    exact slotGrab_list_of_ne hgrab (by decide)
  have hnotW : x ∉ s.writes := h.wf.slotGrab_fresh hgrab _
  have hnotA : x ∉ s.acks := h.wf.slotGrab_fresh hgrab _
  have hslots : s.reqMemSlot.slots = x :: t.reqMemSlot.slots := by
    rw [hpool, modifyData_slots]
    exact (slotGrab_eq_some hgrab).1
  have hstack : t.stack = s.stack := by rw [stack, hactive]
  have hnotS : x ∉ s.stack := by
    intro hin
    obtain ⟨e, he, rfl⟩ := mem_map.mp hin
    rcases h.stack_mem e he with hw | ⟨-, ha⟩
    · exact hnotW hw
    · exact hnotA ha
  have hmem : ∀ y, y ∈ t.writes ∨ y ∈ t.acks → y = x ∨ (y ≠ x ∧ (y ∈ s.writes ∨ y ∈ s.acks)) := by
    intro y hy
    by_cases hyx : y = x
    · exact .inl hyx
    · rw [hwrites, hacks] at hy
      exact .inr ⟨hyx, by simpa [hyx] using hy⟩
  refine ⟨hpool ▸ (h.wf.slotGrab hgrab).modifyData _ _, fun y hy => ?_, fun hno => ?_,
    fun y hy => ?_, fun y z hy hz => ?_, fun y hy => ?_, fun hds y hw ha => ?_,
    hstack ▸ h.stack_nodup, fun e he => ?_, fun hds y z hy hs => ?_, fun hds hp y hy => ?_, fun hds => ?_,
    hsched ▸ h.sched_nonneg, by rw [hd, howed]; exact h.owed_nodup,
    by rw [hd, howed, hacks, hstack]; exact h.owed_mem⟩
  · rcases hy with hy | hy
    · exact h.bound y (.inl (by rw [hslots]; exact mem_cons_of_mem _ hy))
    · rcases hmem y hy with rfl | ⟨-, hy⟩
      · exact h.bound y (.inl (by rw [hslots]; exact mem_cons_self))
      · exact h.bound y (.inr hy)
  · rw [hi, hinit] at hno
    cases hno
  · rw [hcreated]
    rcases hmem y hy with rfl | ⟨hne, hy⟩
    · rw [hself]
      exact hformed
    · rw [hother y hne]
      exact (h.formed y hy).mono (Nat.le_succ _)
  · rcases hmem y hy with rfl | ⟨hyne, hy⟩ <;> rcases hmem z hz with rfl | ⟨hzne, hz⟩
    · exact fun _ => rfl
    · rw [hself, hother z hzne, hserial]
      intro heq
      exact absurd (h.formed z hz).serial_lt (by omega)
    · rw [hself, hother y hyne, hserial]
      intro heq
      exact absurd (h.formed y hy).serial_lt (by omega)
    · rw [hother y hyne, hother z hzne]
      exact h.inj y z hy hz
  · rw [hacks] at hy
    have hne : y ≠ x := fun heq => hnotA (heq ▸ hy)
    rw [hother y hne]
    exact h.waits y hy
  · rw [hwrites, mem_append, mem_singleton, not_or] at hw
    rw [hother y hw.2]
    exact h.free (hd ▸ hds) y hw.1 (hacks ▸ ha)
  · rw [hactive] at he
    rw [hwrites, hacks]
    exact (h.stack_mem e he).imp_left fun hw => mem_append_left _ hw
  · obtain ⟨hin, hno, hout⟩ := hy
    rw [hwrites] at hin hs
    rw [hstack] at hout
    have hyx : y = x := by
      by_contra hne
      rw [hother y hne] at hno
      have hold : y ∈ s.writes := by simpa [hne] using hin
      rcases hfresh (hd ▸ hds) y hold with huse' | hst
      · rw [huse'] at hno
        cases hno
      · exact hout hst
    -- nothing comes behind the slot that was granted last
    have hnodup : (s.writes ++ [x]).Nodup :=
      nodup_append.mpr ⟨h.wf.list_nodup _, by simp, fun a ha b hb => by
        rw [mem_singleton.mp hb]
        exact fun heq => hnotW (heq ▸ ha)⟩
    rw [hyx] at hs
    obtain ⟨l₁, l₂, hsplit, h₁, h₂⟩ := cons_sublist_iff.mp hs
    have hxl : x ∈ l₁ := h₁
    have hlast : x ∈ l₂ := by
      have hne : l₂ ≠ [] := by
        intro hnil
        rw [hnil] at h₂
        simp at h₂
      have hlastEq := congrArg List.getLast? hsplit
      rw [getLast?_append_of_ne_nil _ hne, getLast?_concat] at hlastEq
      exact mem_of_getLast? hlastEq.symm
    rw [hsplit] at hnodup
    exact (nodup_append.mp hnodup).2.2 x hxl x hlast rfl
  · rw [hwrites] at hy
    rw [hstack]
    rcases mem_append.mp hy with hy | hy
    · by_cases hyx : y = x
      · exact absurd (hyx ▸ hy) hnotW
      · rw [hother y hyx]
        exact h.kicked (hd ▸ hds) (hpending ▸ hp) y hy
    · rw [mem_singleton.mp hy, hself]
      exact .inr huse
  · have hcount : t.writes.countP (fun y => (t.req y).inUse && decide (y ∉ t.stack)) =
        s.writes.countP fun y => (s.req y).inUse && decide (y ∉ s.stack) := by
      rw [hwrites, countP_append, hstack]
      have hone : List.countP (fun y => (t.req y).inUse && decide (y ∉ s.stack)) [x] = 0 := by
        simp [hself, huse]
      rw [hone, Nat.add_zero]
      refine countP_congr fun y hy => ?_
      have hyx : y ≠ x := fun heq => hnotW (heq ▸ hy)
      rw [hother y hyx]
    rw [hcount, hsched]
    exact h.sched (hd ▸ hds)

theorem Base.enqueue (h : Base s) {x : Nat}
    {f : CommEvUNIXWriteRequest → CommEvUNIXWriteRequest} (hx : Fresh s x)
    (hf : ∀ r, (f r).core = { r with inUse := true }.core)
    (hpool : t.reqMemSlot = s.reqMemSlot.modifyData x f) (hinit : t.init = s.init)
    (hcreated : t.created = s.created) (hd : t.destroying = s.destroying)
    (hactive : t.active = s.active) (hpending : t.pendingWriteRequest = true)
    (hsched : t.reqScheduled = s.reqScheduled + 1) (howed : owed t.log = owed s.log) : Base t := by
  obtain ⟨hxw, huse, hxs⟩ := hx
  have hself : t.req x = f (s.req x) := by simp [req, hpool]
  have hother : ∀ y, y ≠ x → t.req y = s.req y := fun y hy => by
    simp [req, hpool, slotData_modifyData_of_ne _ _ _ hy]
  have hwrites : t.writes = s.writes := by rw [writes, hpool]; rfl
  have hacks : t.acks = s.acks := by rw [acks, hpool]; rfl
  have hslots : t.reqMemSlot.slots = s.reqMemSlot.slots := by rw [hpool]; rfl
  have hstack : t.stack = s.stack := by rw [stack, hactive]
  have hselfUse : (t.req x).inUse = true := by
    rw [hself]
    exact (congrArg (·.inUse) (hf (s.req x)) :)
  have hserial : ∀ y, (t.req y).serial = (s.req y).serial := fun y => by
    by_cases hyx : y = x
    · rw [hyx, hself]
      exact (congrArg (·.serial) (hf (s.req x)) :)
    · rw [hother y hyx]
  refine ⟨hpool ▸ h.wf.modifyData x f, by rw [hslots, hwrites, hacks]; exact h.bound,
    by rw [hinit, hwrites, hacks]; exact h.uninit, fun y hy => ?_, fun y z hy hz => ?_,
    fun y hy => ?_, fun hds y hw ha => ?_, hstack ▸ h.stack_nodup,
    by rw [hactive, hwrites, hacks]; exact h.stack_mem, fun hds y z hy hs => ?_,
    fun _ hp => absurd (hpending ▸ hp) (by decide), fun hds => ?_, ?_,
    by rw [hd, howed]; exact h.owed_nodup, by rw [hd, howed, hacks, hstack]; exact h.owed_mem⟩
  · rw [hwrites, hacks] at hy
    rw [hcreated]
    by_cases hyx : y = x
    · rw [hyx] at hy ⊢
      rw [hself]
      have hform := h.formed x hy
      have hform' : Formed s.created x { s.req x with inUse := true } :=
        ⟨hform.reqId_eq, hform.serial_lt, hform.remain_eq, hform.offset_le, hform.length_le,
          hform.fds_le, hform.flags_eq⟩
      exact hform'.of_core (hf _)
    · rw [hother y hyx]
      exact h.formed y hy
  · rw [hwrites, hacks] at hy hz
    rw [hserial, hserial]
    exact h.inj y z hy hz
  · rw [hacks] at hy
    rw [hother y fun heq => not_mem_acks_of_writes h.wf hxw (heq ▸ hy)]
    exact h.waits y hy
  · rw [hother y fun heq => hw (hwrites ▸ heq ▸ hxw)]
    exact h.free (hd ▸ hds) y (hwrites ▸ hw) (hacks ▸ ha)
  · obtain ⟨hin, hno, hout⟩ := hy
    have hyx : y ≠ x := by
      rintro rfl
      rw [hselfUse] at hno
      cases hno
    rw [hother y hyx] at hno
    exact h.fresh_last (hd ▸ hds) y z ⟨hwrites ▸ hin, hno, hstack ▸ hout⟩ (hwrites ▸ hs)
  · have hcount := countP_le_succ (l := s.writes) (x := x)
      (p := fun y => (s.req y).inUse && decide (y ∉ s.stack))
      (q := fun y => (t.req y).inUse && decide (y ∉ t.stack)) (h.wf.list_nodup pendingWrite)
      fun y _ hq => by
        by_cases hyx : y = x
        · exact .inr hyx
        · rw [hother y hyx, hstack] at hq
          exact .inl hq
    have hold := h.sched (hd ▸ hds)
    rw [hwrites, hsched]
    omega
  · have hnonneg := h.sched_nonneg
    omega

theorem lists_of_wait (h : Base s) {x : Nat}
    {f : CommEvUNIXWriteRequest → CommEvUNIXWriteRequest} (hx : x ∈ s.writes)
    (hpool : t.reqMemSlot = (s.reqMemSlot.modifyData x f).slotListIDSwitch x pendingAck) :
    t.reqMemSlot.WF ∧ t.writes = s.writes.erase x ∧ t.acks = x :: s.acks := by
  have hwf := h.wf.modifyData x f
  have hx : x ∈ (s.reqMemSlot.modifyData x f).list pendingWrite := hx
  have hne : pendingWrite ≠ pendingAck := by decide
  have hlist := hwf.slotListIDSwitch_list hx hne (by decide)
  refine ⟨hpool ▸ hwf.slotListIDSwitch hx (by decide) (by decide), ?_, ?_⟩
  · rw [writes, hpool, hlist, update_of_ne (by decide), update_self]
    rfl
  · rw [acks, hpool, hlist, update_self]
    rfl

theorem Base.wait (h : Base s) {x : Nat} {rest : List (Nat × Bool)}
    {f : CommEvUNIXWriteRequest → CommEvUNIXWriteRequest} (hx : s.active = (x, false) :: rest)
    (hf : ∀ r, (f r).core = { r with inUse := true }.core)
    (hpool : t.reqMemSlot = (s.reqMemSlot.modifyData x f).slotListIDSwitch x pendingAck)
    (hinit : t.init = s.init) (hcreated : t.created = s.created)
    (hd : t.destroying = s.destroying) (hactive : t.active = rest)
    (hpending : t.pendingWriteRequest = s.pendingWriteRequest)
    (hsched : t.reqScheduled = s.reqScheduled) (howed : owed t.log = x :: owed s.log) :
    Base t := by
  have hself : t.req x = f (s.req x) := by simp [req, hpool]
  have hother : ∀ y, y ≠ x → t.req y = s.req y := fun y hy => by
    simp [req, hpool, slotData_modifyData_of_ne _ _ _ hy]
  have hxw : x ∈ s.writes := by
    have hmem := h.stack_mem (x, false) (by rw [hx]; exact mem_cons_self)
    exact hmem.resolve_right fun hno => by cases hno.1
  have hxa : x ∉ s.acks := not_mem_acks_of_writes h.wf hxw
  obtain ⟨hwf, hwrites, hacks⟩ := lists_of_wait h hxw hpool
  have hslots : t.reqMemSlot.slots = s.reqMemSlot.slots := by rw [hpool]; simp
  have hstackS : s.stack = x :: t.stack := by rw [stack, hx, stack, hactive]; rfl
  have hnodup := h.stack_nodup
  rw [hstackS, nodup_cons] at hnodup
  have hwnodup : s.writes.Nodup := h.wf.list_nodup _
  have hmemW : ∀ y, y ∈ t.writes ↔ y ≠ x ∧ y ∈ s.writes := fun y => by
    rw [hwrites, hwnodup.mem_erase_iff]
  have hmemStack : ∀ y, y ≠ x → (y ∈ s.stack ↔ y ∈ t.stack) := fun y hy => by
    rw [hstackS, mem_cons]
    exact ⟨fun hin => hin.resolve_left hy, .inr⟩
  have hmem : ∀ y, y ∈ t.writes ∨ y ∈ t.acks ↔ y ∈ s.writes ∨ y ∈ s.acks := by
    intro y
    rw [hmemW, hacks, mem_cons]
    by_cases hyx : y = x
    · simp [hyx, hxw]
    · simp [hyx]
  have hselfUse : (t.req x).inUse = true := by
    rw [hself]
    exact (congrArg (·.inUse) (hf (s.req x)) :)
  have hserial : ∀ y, (t.req y).serial = (s.req y).serial := fun y => by
    by_cases hyx : y = x
    · rw [hyx, hself]
      exact (congrArg (·.serial) (hf (s.req x)) :)
    · rw [hother y hyx]
  refine ⟨hwf, by simp only [hslots, hmem]; exact h.bound, fun hi => ?_, fun y hy => ?_,
    fun y z hy hz => ?_,
    fun y hy => ?_, fun hds y hw ha => ?_, hnodup.2, fun e he => ?_, fun hds y z hy hs => ?_,
    fun hds hp y hy => ?_, fun hds => ?_, hsched ▸ h.sched_nonneg, fun hds => ?_, fun hds y hy => ?_⟩
  · rw [(h.uninit (hinit ▸ hi)).1] at hxw
    cases hxw
  · rw [hmem] at hy
    rw [hcreated]
    by_cases hyx : y = x
    · rw [hyx] at hy ⊢
      rw [hself]
      have hform := h.formed x hy
      have hform' : Formed s.created x { s.req x with inUse := true } :=
        ⟨hform.reqId_eq, hform.serial_lt, hform.remain_eq, hform.offset_le, hform.length_le,
          hform.fds_le, hform.flags_eq⟩
      exact hform'.of_core (hf _)
    · rw [hother y hyx]
      exact h.formed y hy
  · rw [hmem] at hy hz
    rw [hserial, hserial]
    exact h.inj y z hy hz
  · by_cases hyx : y = x
    · rw [hyx]
      exact hselfUse
    · rw [hother y hyx]
      rw [hacks, mem_cons] at hy
      exact h.waits y (hy.resolve_left hyx)
  · rw [hacks, mem_cons, not_or] at ha
    rw [hother y ha.1]
    exact h.free (hd ▸ hds) y (fun hin => hw ((hmemW y).mpr ⟨ha.1, hin⟩)) ha.2
  · rw [hactive] at he
    have hne : e.1 ≠ x := fun heq => hnodup.1 (by
      rw [stack, hactive, ← heq]
      exact mem_map_of_mem he)
    rcases h.stack_mem e (by rw [hx]; exact mem_cons_of_mem _ he) with hin | ⟨hacked, hin⟩
    · exact .inl ((hmemW _).mpr ⟨hne, hin⟩)
    · exact .inr ⟨hacked, by rw [hacks]; exact mem_cons_of_mem _ hin⟩
  · obtain ⟨hin, hno, hout⟩ := hy
    obtain ⟨hyx, hin⟩ := (hmemW y).mp hin
    rw [hother y hyx] at hno
    rw [hwrites] at hs
    exact h.fresh_last (hd ▸ hds) y z ⟨hin, hno, fun hst => hout ((hmemStack y hyx).mp hst)⟩
      (hs.trans erase_sublist)
  · obtain ⟨hyx, hin⟩ := (hmemW y).mp hy
    rw [hother y hyx, ← hmemStack y hyx]
    exact h.kicked (hd ▸ hds) (hpending ▸ hp) y hin
  · refine Int.le_trans (Int.ofNat_le.mpr ?_) (hsched ▸ h.sched (hd ▸ hds))
    refine countP_le_of_sublist (hwrites ▸ erase_sublist) fun y hy hq => ?_
    have hyx := ((hmemW y).mp hy).1
    rw [hother y hyx] at hq
    simpa [hmemStack y hyx] using hq
  · rw [howed, nodup_cons]
    exact ⟨fun hin => (h.owed_mem (hd ▸ hds) x hin).2 (hstackS ▸ mem_cons_self),
      h.owed_nodup (hd ▸ hds)⟩
  · rw [howed, mem_cons] at hy
    rw [hacks, mem_cons]
    rcases hy with rfl | hy
    · exact ⟨.inl rfl, hnodup.1⟩
    · obtain ⟨hin, hout⟩ := h.owed_mem (hd ▸ hds) y hy
      exact ⟨.inr hin, fun hst => hout (hstackS ▸ mem_cons_of_mem _ hst)⟩

theorem lists_of_release (h : Base s) {x : Nat}
    {f : CommEvUNIXWriteRequest → CommEvUNIXWriteRequest} (hx : x ∈ s.writes ∨ x ∈ s.acks)
    (hpool : t.reqMemSlot = (s.reqMemSlot.modifyData x f).slotFree x) :
    t.reqMemSlot.WF ∧ t.reqMemSlot.slots = x :: s.reqMemSlot.slots ∧
      t.writes = s.writes.erase x ∧ t.acks = s.acks.erase x := by
  have hlists := lists_of_slotFree (h.wf.modifyData x f) hx
  rw [← hpool] at hlists
  exact hlists

theorem Base.release (h : Base s) {x : Nat} {acked : Bool} {rest : List (Nat × Bool)}
    (hx : s.active = (x, acked) :: rest)
    (hpool : t.reqMemSlot =
      (s.reqMemSlot.modifyData x fun req => { req with inUse := false }).slotFree x)
    (hinit : t.init = s.init) (hcreated : t.created = s.created)
    (hd : t.destroying = s.destroying) (hactive : t.active = rest)
    (hpending : t.pendingWriteRequest = s.pendingWriteRequest)
    (hsched : t.reqScheduled = s.reqScheduled) (howed : owed t.log = owed s.log) : Base t := by
  have hmem := h.stack_mem (x, acked) (by rw [hx]; exact mem_cons_self)
  have hnodup := h.stack_nodup
  rw [stack, hx, map_cons, nodup_cons] at hnodup
  refine h.remove (hmem.imp_right And.right) (.inr ⟨acked, hx⟩) hnodup.1
    (lists_of_release h (hmem.imp_right And.right) hpool) (fun y hy => ?_) (fun _ => ?_) hinit
    hcreated hd hactive hpending hsched howed fun hds hin => ?_
  · simp [req, hpool, slotData_modifyData_of_ne _ _ _ hy]
  · simp [req, hpool]
  · refine (h.owed_mem hds x hin).2 ?_
    rw [stack, hx]
    exact mem_cons_self

theorem Base.popped (h : Base s) {x : Nat} (hx : x ∈ s.writes ∨ x ∈ s.acks)
    (hds : s.destroying = true) (hnone : s.active = [])
    (hpool : t.reqMemSlot = s.reqMemSlot.slotFree x) (hinit : t.init = s.init)
    (hcreated : t.created = s.created) (hd : t.destroying = s.destroying)
    (hactive : t.active = s.active) (hpending : t.pendingWriteRequest = s.pendingWriteRequest)
    (hsched : t.reqScheduled = s.reqScheduled) (howed : owed t.log = owed s.log) : Base t := by
  have hlists := lists_of_slotFree h.wf hx
  rw [← hpool] at hlists
  exact h.remove hx (.inl rfl) (by simp [hnone]) hlists
    (fun y _ => by simp [req, hpool]) (fun hno => by simp [hds] at hno) hinit
    hcreated hd hactive hpending hsched howed fun hno => by simp [hds] at hno

theorem Act.base (h : Act s t) (hs : Base s) : Base t := by
  rw [← base_view]
  cases h with
  | quiet h =>
      rw [h, base_view]
      exact hs
  | touch x f hf h =>
      rw [h]
      refine hs.frame (frame_of_modify hs rfl (fun r => (congrArg (·.serial) (hf r) :))
        (fun r => (congrArg (·.inUse) (hf r) :)) (fun hx => (hs.formed x hx).of_core (hf _))
        rfl rfl rfl rfl rfl rfl rfl)
  | initData hinit h =>
      rw [h]
      obtain ⟨hw, ha⟩ := hs.uninit hinit
      have hnone : s.active = [] := by
        by_contra hne
        obtain ⟨e, he⟩ := exists_mem_of_ne_nil _ hne
        have hmem := hs.stack_mem e he
        simp [hw, ha] at hmem
      refine Base.blank (Nat.le_refl 4096) rfl hnone hs.sched_nonneg fun hd => ?_
      refine eq_nil_iff_forall_not_mem.mpr fun x hx => ?_
      have hmem := (hs.owed_mem hd x hx).1
      rw [ha] at hmem
      cases hmem
  | called op h =>
      rw [h]
      exact hs.frame (frame_of_eq hs rfl rfl rfl rfl rfl rfl rfl (by simp))
  | granted h =>
      rw [h]
      exact hs.frame (frame_of_eq hs rfl rfl rfl rfl rfl rfl rfl (by simp))
  | accept x pool req hinit hgrab hfresh hlate hserial hid hoff hseq hremain huse hdata hfds hflags h =>
      rw [h]
      refine hs.accept hinit hgrab hfresh hserial ⟨hid, by omega, by rw [hremain, hoff]; simp,
        by rw [hoff]; exact Nat.zero_le _, hdata, hfds, hflags⟩ huse rfl rfl rfl rfl rfl rfl rfl ?_
      simp
  | header x hx hstack hseq hfirst h =>
      rw [h]
      refine hs.frame (frame_of_modify (f := fun req => { req with seqId := req.seqId + 1 }) hs rfl
        (fun _ => rfl) (fun _ => rfl) (fun hx => ?_) rfl rfl rfl rfl rfl rfl (by simp))
      have hform := hs.formed x hx
      exact ⟨hform.reqId_eq, hform.serial_lt, hform.remain_eq, hform.offset_le, hform.length_le,
        hform.fds_le, hform.flags_eq⟩
  | payload x n hx hstack hbegun hn hpos h =>
      rw [h]
      refine hs.frame (frame_of_modify (f := fun req =>
          { req with offset := req.offset + n, remain := req.remain - n, seqId := req.seqId + 1 })
        hs rfl (fun _ => rfl) (fun _ => rfl) (fun hx => ?_) rfl rfl rfl rfl rfl rfl (by simp))
      have hform := hs.formed x hx
      have hremain := hform.remain_eq
      exact ⟨hform.reqId_eq, hform.serial_lt, by simp only; omega, by simp only; omega,
        hform.length_le, hform.fds_le, hform.flags_eq⟩
  | enqueue x hx h =>
      rw [h]
      exact hs.enqueue (f := fun req =>
          { req with inUse := true, wrote := false, txRetryCount := req.txRetryCount + 1 })
        hx (fun _ => rfl) rfl rfl rfl rfl rfl rfl rfl rfl
  | finish x size hx hstack hbegun hremain hsched h =>
      rw [h]
      have hview : t.reqScheduled = s.reqScheduled - if (s.req x).inUse then 1 else 0 :=
        (congrArg (·.reqScheduled) h :)
      refine hs.push (.inl hx) hstack (.inl rfl) rfl rfl rfl rfl rfl rfl ?_ (fun hds => ?_)
        fun hds y hy => ?_
      · by_cases huse : (s.req x).inUse = true
        · refine .inr ⟨by simp [huse], ?_, hx, huse, hstack⟩
          simpa [← hview] using hsched
        · exact .inl (by simp [huse])
      · rw [owed_finishObs]
        exact hs.owed_nodup hds
      · rw [owed_finishObs] at hy
        exact ⟨hy, fun heq => not_mem_acks_of_writes hs.wf hx (heq ▸ (hs.owed_mem hds y hy).1)⟩
  | drop x size hx hstack h =>
      rw [h]
      have howed : owed (s.log ++ ([.dropped (s.req x).serial (s.req x).begun] ++
          finishObs (s.req x) size)) = owed s.log := by
        rw [← append_assoc, owed_finishObs]
        simp
      refine hs.push (.inl hx) hstack (.inl rfl) rfl rfl rfl rfl rfl rfl (.inl rfl) (fun hds => ?_)
        fun hds y hy => ?_
      · exact howed ▸ hs.owed_nodup hds
      · have hy : y ∈ owed s.log := howed ▸ hy
        exact ⟨hy, fun heq => not_mem_acks_of_writes hs.wf hx (heq ▸ (hs.owed_mem hds y hy).1)⟩
  | ackDropped x rest hx h =>
      rw [h]
      have hmem := hs.stack_mem (x, false) (by rw [hx]; exact mem_cons_self)
      have hnodup := hs.stack_nodup
      rw [stack, hx, map_cons, nodup_cons] at hnodup
      refine hs.push (.inl (hmem.resolve_right fun hno => by cases hno.1)) hnodup.1
        (.inr ⟨false, hx⟩) rfl rfl rfl rfl rfl rfl (.inl rfl) (fun hds => ?_) fun hds y hy => ?_
      · rw [owed_ackObs]
        exact hs.owed_nodup hds
      · rw [owed_ackObs] at hy
        refine ⟨hy, fun heq => (hs.owed_mem hds y hy).2 ?_⟩
        rw [stack, hx, heq]
        exact mem_cons_self
  | ackStray x h =>
      rw [h]
      have howed : owed (s.log ++ [.acked x]) = (owed s.log).erase x := by simp
      refine { base_view.mpr hs with owed_nodup := fun hds => ?_, owed_mem := fun hds y hy => ?_ }
      · exact howed ▸ (hs.owed_nodup hds).erase x
      · have hy : y ∈ (owed s.log).erase x := howed ▸ hy
        exact hs.owed_mem hds y (mem_of_mem_erase hy)
  | ackIn x hx hstack hd h =>
      rw [h]
      have howed : owed (s.log ++ ([.acked x] ++ ackObs (s.req x) .ok)) = (owed s.log).erase x := by
        rw [← append_assoc, owed_ackObs]
        simp
      refine hs.push (hx.imp_right fun hx => ⟨rfl, hx⟩) hstack (.inl rfl) rfl rfl rfl rfl rfl rfl
        (.inl rfl)
        (fun hds => ?_) fun hds y hy => ?_
      · exact howed ▸ (hs.owed_nodup hds).erase x
      · have hy : y ∈ (owed s.log).erase x := howed ▸ hy
        rw [(hs.owed_nodup hds).mem_erase_iff] at hy
        exact ⟨hy.2, hy.1⟩
  | release x acked rest hx hacked h =>
      rw [h]
      exact hs.release hx rfl rfl rfl rfl rfl rfl rfl (by simp)
  | wait x rest hx hwants h =>
      rw [h]
      exact hs.wait (f := fun req => { req with inUse := true, wrote := true }) hx
        (fun _ => rfl) rfl rfl rfl rfl rfl rfl rfl (by simp)
  | ackHeader reqId h =>
      rw [h]
      exact hs.frame (frame_of_eq hs rfl rfl rfl rfl rfl rfl rfl (by simp))
  | idle hw h =>
      rw [h]
      refine { base_view.mpr hs with kicked := fun _ _ x hx => ?_ }
      have hx : x ∈ s.writes := hx
      rw [hw] at hx
      cases hx
  | destroying hinit hclosed h =>
      rw [h]
      exact ⟨hs.wf, hs.bound, hs.uninit, hs.formed, hs.inj, hs.waits, nofun, nodup_nil,
        by simp, nofun, nofun, nofun, hs.sched_nonneg, nofun, nofun⟩
  | abandon x rest hx hd hstack h =>
      rw [h]
      refine hs.popped (x := x) (.inl (by rw [hx]; exact mem_cons_self)) hd hstack rfl rfl rfl
        rfl rfl rfl rfl ?_
      rw [← append_assoc, owed_abandonObs]
      simp
  | fail x rest hx hd hstack h =>
      rw [h]
      refine hs.popped (x := x) (.inr (by rw [hx]; exact mem_cons_self)) hd hstack rfl rfl rfl
        rfl rfl rfl rfl ?_
      rw [← append_assoc, owed_ackObs]
      simp
  | destroyed hd hstack hacks hwrites h =>
      rw [h]
      exact Base.blank (Nat.le_refl 4096) rfl hstack hs.sched_nonneg fun _ => by simp
  | disconnect hclosed h =>
      rw [h]
      exact hs.frame (frame_of_eq hs rfl rfl rfl rfl rfl rfl rfl rfl)
  | connect hc h =>
      rw [h]
      exact hs.frame (frame_of_eq hs rfl rfl rfl rfl rfl rfl rfl (by simp))

theorem Path.base (h : Path s t) (hs : Base s) : Base t := by
  induction h with
  | refl => exact hs
  | step h _ ih => exact ih (h.base hs)

theorem Act.log_prefix (h : Act s t) : s.log <+: t.log := by
  have hview : ∀ {v : CommEvUNIXClient}, t.view = v → s.log <+: v.log → s.log <+: t.log := by
    intro v hv hp
    rw [← hv] at hp
    exact hp
  cases h with
  | quiet h => exact hview h (prefix_refl _)
  | touch x f hf h => exact hview h (prefix_refl _)
  | initData hinit h => exact hview h (prefix_refl _)
  | enqueue x hx h => exact hview h (prefix_refl _)
  | idle hw h => exact hview h (prefix_refl _)
  | disconnect hclosed h => exact hview h (prefix_refl _)
  | called op h => exact hview h (prefix_append _ _)
  | granted h => exact hview h (prefix_append _ _)
  | accept x pool req hinit hgrab hfresh hlate hserial hid hoff hseq hremain huse hdata hfds hflags h =>
      exact hview h (prefix_append _ _)
  | header x hx hstack hseq hfirst h => exact hview h (prefix_append _ _)
  | payload x n hx hstack hbegun hn hpos h => exact hview h (prefix_append _ _)
  | finish x size hx hstack hbegun hremain hsched h => exact hview h (prefix_append _ _)
  | drop x size hx hstack h => exact hview h (prefix_append _ _)
  | ackDropped x rest hx h => exact hview h (prefix_append _ _)
  | ackStray x h => exact hview h (prefix_append _ _)
  | ackIn x hx hstack hd h => exact hview h (prefix_append _ _)
  | release x acked rest hx hacked h => exact hview h (prefix_append _ _)
  | wait x rest hx hwants h => exact hview h (prefix_append _ _)
  | ackHeader reqId h => exact hview h (prefix_append _ _)
  | destroying hinit hclosed h => exact hview h (prefix_append _ _)
  | abandon x rest hx hd hstack h => exact hview h (prefix_append _ _)
  | fail x rest hx hd hstack h => exact hview h (prefix_append _ _)
  | destroyed hd hstack hacks hwrites h => exact hview h (prefix_append _ _)
  | connect hc h => exact hview h (prefix_append _ _)

theorem Path.log_prefix (h : Path s t) : s.log <+: t.log := by
  induction h with
  | refl => exact prefix_refl _
  | step h _ ih => exact h.log_prefix.trans ih

end Keep

end Unix
