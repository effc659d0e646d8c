import BrbFramework.Unix.Stream

/-!
# The reading side of a framed UNIX client

The peer reads what the kernel has for it: a header, then as much of the payload as
is there. A payload that is not complete waits in `data_mb` for the next event.
The connection of a server reads like a client, but for an assertion and for the
number of bytes that it leaves in the socket.

`coming` are bytes that were emitted and have not reached the socket yet. What the
upper layers do with a message is left out.
-/

namespace Unix

open Handler List

inductive ReadObs
  /-- the kernel handed out a part of a header -/
  | shortHeader
  /-- an acknowledgement is queued for the peer -/
  | wantsAck (reqId : Int)
  | dispatch (reqId : Int) (data : List UInt8)
  | reply (reqId : Int)
  deriving DecidableEq

/-- What `recvmsg` answers. -/
inductive RecvResult
  | received (n : Nat)
  | failed

/-- The reading half of `CommEvUNIXIOData`, and the kernel's side of the socket. -/
structure CommEvUNIXReader where
  controlData : List UInt8 := List.replicate controlDataSz 0
  dataMb : List UInt8 := []
  readPartial : Bool := false
  coming : List UInt8 := []
  socket : List UInt8 := []
  recvs : Nat := 0
  log : List ReadObs := []

/-- The assertions about the magic code and the size of a message. `stuck` is for an
event that reads nothing and never ends. -/
inductive ReadFault
  | badMagic | wrongSize | stuck
  deriving DecidableEq

inductive ReadSide
  | client | server

/-- So little is left in the socket that the reader waits for the next event. -/
def ReadSide.drained (left : Int) : ReadSide → Bool
  | .client => unsignedLong left ≤ minDataSz
  | .server => unsignedLong left < controlDataSz

def CommEvUNIXReader.control (r : CommEvUNIXReader) : CommEvUNIXControlData :=
  .decode r.controlData

def CommEvUNIXReader.record (r : CommEvUNIXReader) (o : ReadObs) : CommEvUNIXReader :=
  { r with log := r.log ++ [o] }

section Functions

variable (recv : Nat → RecvResult) (side : ReadSide)

/-- `recvmsg`, which takes no more than there is. -/
def recvmsg (len : Nat) : EStateM ReadFault CommEvUNIXReader (Option (List UInt8)) := do
  let r ← get
  modify fun r => { r with recvs := r.recvs + 1 }
  match recv r.recvs with
  | .failed => return none
  | .received n =>
      modify fun r => { r with socket := r.socket.drop (min n len) }
      return some (r.socket.take (min n len))

/-- `read_raw` of `CommEvUNIXIORead`. -/
def readRaw (totalRead canReadBytes : Int) : EStateM ReadFault CommEvUNIXReader Int := do
  let r ← get
  let needRead := min ((r.control.dataSz - r.dataMb.length).bmod (2 ^ 32)) canReadBytes
  let iovLen := if needRead < readBufferSize - 1 then needRead else readBufferSize - 1
  match ← recvmsg recv (unsignedLong iovLen).toNat with
  | none =>
      modify fun r => { r with readPartial := true }
      return totalRead - 1
  | some [] =>
      modify fun r => { r with readPartial := true }
      return totalRead
  | some (b :: bytes) =>
      modify fun r => { r with dataMb := r.dataMb ++ b :: bytes }
      let r ← get
      if r.dataMb.length < unsignedLong r.control.dataSz then
        modify fun r => { r with readPartial := true }
      else
        assertThat (decide (r.dataMb.length = unsignedLong r.control.dataSz)) .wrongSize
        modify fun r => { r with readPartial := false }
      return totalRead + (b :: bytes).length

/-- `CommEvUNIXIORead`. -/
def ioRead (canReadSz : Int) : EStateM ReadFault CommEvUNIXReader Int := do
  if (← get).readPartial then readRaw recv 0 canReadSz
  else
    match ← recvmsg recv controlDataSz with
    | none => return -1
    | some bytes =>
        modify fun r =>
          { r with
            controlData := bytes ++ r.controlData.drop bytes.length
            log := r.log ++ if bytes.length < controlDataSz then [.shortHeader] else [] }
        if bytes.length = 0 then return 0
        let r ← get
        assertThat (decide (r.control.magicCode = magicCode00)) .badMagic
        if r.control.dataSz ≤ 0 then return bytes.length
        else if canReadSz - bytes.length ≤ 0 then
          modify fun r => { r with readPartial := true }
          return bytes.length
        else readRaw recv bytes.length (canReadSz - bytes.length)

/-- What the events of both sides do with a request that is complete. -/
def dispatchRequest : EStateM ReadFault CommEvUNIXReader Unit := do
  let control := (← get).control
  if ebitTest control.flags flagWantAck then
    modify (·.record (.wantsAck control.reqId))
  modify fun r => { r.record (.dispatch control.reqId r.dataMb) with dataMb := [] }

def processControl : EStateM ReadFault CommEvUNIXReader Unit := do
  let r ← get
  if ebitTest r.control.flags flagRequest then
    match side with
    | .client =>
        if ¬ r.dataMb.length < unsignedLong r.control.dataSz then
          assertThat (decide (r.dataMb.length = unsignedLong r.control.dataSz)) .wrongSize
          dispatchRequest
    | .server => dispatchRequest
  else if ebitTest r.control.flags flagReply then
    modify (·.record (.reply r.control.reqId))

/-- `CommEvUNIXClientEventBrbProtoRead` and `CommEvUNIXServerEventBrbProtoRead`. -/
def eventBrbProtoReadLoop (canReadSz : Int) : Nat → Int → EStateM ReadFault CommEvUNIXReader Int
  | 0, _ => throw .stuck
  | fuel + 1, totalRead => do
      let r ← get
      if !r.readPartial && decide (unsignedLong canReadSz < controlDataSz) then return 0
      let readBytes ← ioRead recv (canReadSz - totalRead)
      if readBytes < 0 then return totalRead
      if (← get).readPartial then return totalRead + readBytes
      processControl side
      if side.drained (canReadSz - (totalRead + readBytes)) then return totalRead + readBytes
      eventBrbProtoReadLoop canReadSz fuel (totalRead + readBytes)

def eventBrbProtoRead (canReadSz : Nat) : EStateM ReadFault CommEvUNIXReader Unit := do
  if canReadSz = 0 then return ()
  let _ ← eventBrbProtoReadLoop recv side canReadSz (canReadSz + 1) 0

/-- Bytes reach the socket, or an event reports some that are there. -/
inductive ReadEvent
  | arrive (n : Nat)
  | read (canReadSz : Nat)

def handleRead : ReadEvent → EStateM ReadFault CommEvUNIXReader Unit
  | .arrive n =>
      modify fun r => { r with socket := r.socket ++ r.coming.take n, coming := r.coming.drop n }
  | .read canReadSz => do
      -- the size is an `int`
      eventBrbProtoRead recv side (min (min canReadSz (2 ^ 31 - 1)) (← get).socket.length)

def readFrom (coming : List UInt8) (evs : List ReadEvent) :
    Runs.Config ReadFault CommEvUNIXReader :=
  Runs.run (handleRead recv side) (.live { coming }) evs

end Functions

def WireFrame.deliver : WireFrame → List ReadObs
  | .message req =>
      (if ebitTest req.ctrlFlags flagWantAck then [.wantsAck req.reqId] else []) ++
        [.dispatch req.reqId req.data]
  | .ack reqId => [.reply reqId.toInt]

def WireFrame.control : WireFrame → CommEvUNIXControlData
  | .message req => req.header
  | .ack reqId => ackHeader reqId.toInt

def WireFrame.payload : WireFrame → List UInt8
  | .message req => req.data
  | .ack _ => []

structure WireFrame.Fine (f : WireFrame) : Prop where
  inRange : f.control.InRange
  magic : f.control.magicCode = magicCode00
  size : f.control.dataSz = f.payload.length ∨ (f.control.dataSz = -1 ∧ f.payload = [])
  request : ∀ req, f = .message req → ebitTest req.ctrlFlags flagRequest = true
  length_le : f.payload.length ≤ maxWriteSize

def Whole (log : List ReadObs) : Prop := ReadObs.shortHeader ∉ log

/-- Where the reader is in the frames that are left, when `rest` was not emitted yet. -/
inductive Reading (rest : List UInt8) (r : CommEvUNIXReader) : List WireFrame → Prop
  | between (todo : List WireFrame) (hpart : r.readPartial = false) (hmb : r.dataMb = [])
      (hbytes : r.socket ++ (r.coming ++ rest) = stream todo) : Reading rest r todo
  | inside (f : WireFrame) (todo : List WireFrame) (k : Nat) (hpart : r.readPartial = true)
      (hcontrol : r.control = f.control) (hk : k < f.payload.length)
      (hmb : r.dataMb = f.payload.take k)
      (hbytes : r.socket ++ (r.coming ++ rest) = f.payload.drop k ++ stream todo) :
      Reading rest r (f :: todo)

structure Got (rest : List UInt8) (r : CommEvUNIXReader) (f : WireFrame) (todo : List WireFrame) :
    Prop where
  notPartial : r.readPartial = false
  control : r.control = f.control
  dataMb : r.dataMb = f.payload
  bytes : r.socket ++ (r.coming ++ rest) = stream todo

section Bytes

variable {l t p q : List UInt8} {n k : Nat}

theorem take_of_append_eq (h : l ++ t = p ++ q) (hn : n ≤ l.length) (hp : p.length = n) :
    l.take n = p ∧ l.drop n ++ t = q := by
  have htake := congrArg (List.take n) h
  have hdrop := congrArg (List.drop n) h
  rw [take_append_of_le_length hn, take_left' hp] at htake
  rw [drop_append_of_le_length hn, drop_left' hp] at hdrop
  exact ⟨htake, hdrop⟩

theorem take_of_drop_append_eq (h : l ++ t = p.drop k ++ q) (hn : n ≤ l.length)
    (hk : k + n ≤ p.length) :
    l.take n = (p.drop k).take n ∧ l.drop n ++ t = p.drop (k + n) ++ q := by
  have hsplit : p.drop k = (p.drop k).take n ++ p.drop (k + n) := by
    rw [← drop_drop, take_append_drop]
  rw [hsplit, append_assoc] at h
  exact take_of_append_eq h hn (by rw [length_take, length_drop]; omega)

theorem WireFrame.bytes_eq (f : WireFrame) : f.bytes = f.control.encode ++ f.payload := by
  cases f with
  | message req => rfl
  | ack reqId => exact (append_nil _).symm

@[simp] theorem stream_nil : stream [] = [] := rfl

@[simp] theorem stream_cons (f : WireFrame) (fs : List WireFrame) :
    stream (f :: fs) = f.bytes ++ stream fs := rfl

theorem head_of_stream {todo : List WireFrame} (h : l ++ t = stream todo)
    (hl : controlDataSz ≤ l.length) :
    ∃ f rest, todo = f :: rest ∧ l.take controlDataSz = f.control.encode ∧
      l.drop controlDataSz ++ t = f.payload ++ stream rest := by
  cases todo with
  | nil =>
      have hlen := congrArg List.length h
      rw [length_append, stream_nil, length_nil] at hlen
      exact absurd hl (by unfold controlDataSz; omega)
  | cons f rest =>
      rw [stream_cons, f.bytes_eq, append_assoc] at h
      exact ⟨f, rest, rfl, take_of_append_eq h hl (CommEvUNIXControlData.length_encode _)⟩

theorem unsignedLong_of_lt {x : Int} (h : 0 ≤ x) (hlt : x < 2 ^ 64) : unsignedLong x = x :=
  Int.emod_eq_of_lt h hlt

end Bytes

section Reads

variable {recv : Nat → RecvResult} {side : ReadSide} {r t : CommEvUNIXReader}
  {rest : List UInt8} {f : WireFrame} {todo : List WireFrame}

theorem recvmsg_ends {E : ReadFault → CommEvUNIXReader → Prop} (len : Nat) :
    Ends (recvmsg recv len) r
      (fun o t => (o = none ∧ t = { r with recvs := r.recvs + 1 }) ∨
        ∃ n ≤ len, n ≤ r.socket.length ∧ o = some (r.socket.take n) ∧
          t = { r with socket := r.socket.drop n, recvs := r.recvs + 1 }) E := by
  simp only [recvmsg, ends_bind, ends_get, ends_modify]
  cases recv r.recvs with
  | failed => exact .inl ⟨rfl, rfl⟩
  | received n =>
      refine .inr ⟨min (min n len) r.socket.length, by omega, by omega, ?_, ?_⟩
      · rw [take_eq_take_min]
      · rw [← drop_eq_drop_min]

/-- What a read leaves behind, when it was asked for at most `can` bytes: it failed before
it took anything, or is inside a frame, or got a frame. -/
def ReadDone (rest : List UInt8) (r : CommEvUNIXReader) (todo : List WireFrame) (can n : Int)
    (t : CommEvUNIXReader) : Prop :=
  t.log = r.log ∧ ((n < 0 ∧ Reading rest t todo) ∨ (t.readPartial = true ∧ Reading rest t todo) ∨
    (0 < n ∧ n ≤ can ∧ (t.socket.length : Int) = r.socket.length - n ∧
      ∃ f todo', todo = f :: todo' ∧ f.Fine ∧ Got rest t f todo'))

theorem readRaw_ends {E : ReadFault → CommEvUNIXReader → Prop} (hf : f.Fine) {k : Nat}
    {can total : Int} (hcontrol : r.control = f.control) (hk : k < f.payload.length)
    (hmb : r.dataMb = f.payload.take k)
    (hbytes : r.socket ++ (r.coming ++ rest) = f.payload.drop k ++ stream todo)
    (hpos : 0 < can) :
    Ends (readRaw recv total can) r
      (fun n t => t.log = r.log ∧ ((t.readPartial = true ∧ Reading rest t (f :: todo)) ∨
        (total < n ∧ n ≤ total + can ∧ (t.socket.length : Int) = r.socket.length - (n - total) ∧
          Got rest t f todo))) E := by
  have hsize : f.control.dataSz = f.payload.length := by
    rcases hf.size with hsize | ⟨-, hnil⟩
    · exact hsize
    · rw [hnil] at hk
      exact absurd hk (Nat.not_lt_zero _)
  have hle := hf.length_le
  unfold maxWriteSize at hle
  have hmbLen : r.dataMb.length = k := by rw [hmb, length_take]; omega
  have hneed : (r.control.dataSz - r.dataMb.length).bmod (2 ^ 32) = f.payload.length - k := by
    rw [hcontrol, hsize, hmbLen]
    exact Int.bmod_eq_of_le_mul_two (by omega) (by omega)
  simp only [readRaw, ends_bind, ends_get, hneed]
  -- how much is asked for
  obtain ⟨len, hlen, hlenPos, hlenNeed, hlenCan⟩ : ∃ len : Nat,
      (unsignedLong (if min (f.payload.length - k : Int) can < readBufferSize - 1 then
        min (f.payload.length - k : Int) can else readBufferSize - 1)).toNat = len ∧
      0 < len ∧ len ≤ f.payload.length - k ∧ (len : Int) ≤ can := by
    refine ⟨_, rfl, ?_⟩
    unfold readBufferSize unsignedLong
    split <;> omega
  rw [hlen]
  refine (recvmsg_ends len).imp fun o t ht => ?_
  rcases ht with ⟨rfl, rfl⟩ | ⟨n, hn, hsock, rfl, rfl⟩
  · simp only [ends_bind, ends_modify, ends_pure]
    exact ⟨trivial, .inl ⟨trivial, .inside f todo k rfl hcontrol hk hmb hbytes⟩⟩
  · obtain ⟨htake, hdrop⟩ := take_of_drop_append_eq hbytes hsock (by omega : k + n ≤ f.payload.length)
    cases htook : r.socket.take n with
    | nil =>
        have hzero : n = 0 := by
          have hlen' := congrArg List.length htook
          rw [length_take, length_nil] at hlen'
          omega
        subst hzero
        simp only [ends_bind, ends_modify, ends_pure]
        exact ⟨trivial, .inl ⟨trivial, .inside f todo k rfl hcontrol hk hmb hdrop⟩⟩
    | cons b bytes =>
        have hlenTook : (b :: bytes).length = n := by
          rw [← htook, length_take]
          omega
        have hpiece : b :: bytes = (f.payload.drop k).take n := htook.symm.trans htake
        have hmbNew : r.dataMb ++ b :: bytes = f.payload.take (k + n) := by
          rw [hmb, hpiece, List.take_add]
        have hmbNewLen : (r.dataMb ++ b :: bytes).length = k + n := by
          rw [length_append, hmbLen, hlenTook]
        have hnPos : 0 < n := by rw [← hlenTook]; exact Nat.succ_pos _
        have hunsigned : ∀ u : CommEvUNIXReader, u.controlData = r.controlData →
            unsignedLong u.control.dataSz = f.payload.length := fun u hu => by
          rw [CommEvUNIXReader.control, hu, ← CommEvUNIXReader.control, hcontrol, hsize]
          exact unsignedLong_of_lt (by omega) (by omega)
        have hleft : ((r.socket.drop n).length : Int) = r.socket.length - n := by
          rw [length_drop]
          omega
        simp only [ends_bind, ends_modify, ends_get, ends_ite, ends_pure, ends_assertThat,
          hunsigned, hmbNewLen, hlenTook, hleft]
        refine ⟨fun hlt => ⟨trivial, .inl ⟨trivial, ?_⟩⟩, fun hge => ⟨fun _ => ⟨trivial, .inr ?_⟩,
          fun hno => ?_⟩⟩
        · exact .inside f todo (k + n) rfl hcontrol (by omega) hmbNew hdrop
        · have hall : k + n = f.payload.length := by omega
          refine ⟨by omega, by omega, by omega, rfl, hcontrol, ?_, ?_⟩
          · rw [hmbNew, hall, take_length]
          · rw [hall, drop_length, nil_append] at hdrop
            exact hdrop
        · have hall : k + n = f.payload.length := by omega
          exact absurd hno (by simp [hall])

theorem readRaw_log (total can : Int) :
    Ends (readRaw recv total can) r (fun _ t => t.log = r.log) fun _ t => t.log = r.log := by
  simp only [readRaw, ends_bind, ends_get]
  refine (recvmsg_ends _).imp fun o t ht => ?_
  have hlog : t.log = r.log := by
    rcases ht with ⟨-, rfl⟩ | ⟨n, -, -, -, rfl⟩ <;> rfl
  rcases o with _ | _ | ⟨b, bytes⟩
  · simpa only [ends_bind, ends_modify, ends_pure] using hlog
  · simpa only [ends_bind, ends_modify, ends_pure] using hlog
  · simp only [ends_bind, ends_modify, ends_get, ends_ite, ends_pure, ends_assertThat]
    exact ⟨fun _ => hlog, fun _ => ⟨fun _ => hlog, fun _ => hlog⟩⟩

theorem ioRead_log (can : Int) :
    Ends (ioRead recv can) r (fun _ t => r.log <+: t.log) fun _ t => r.log <+: t.log := by
  have hraw : ∀ (u : CommEvUNIXReader) total can, r.log <+: u.log →
      Ends (readRaw recv total can) u (fun _ t => r.log <+: t.log) fun _ t => r.log <+: t.log :=
    fun u total can hu =>
      (readRaw_log total can).mono (fun _ t ht => by rw [ht]; exact hu) fun _ t ht => by
        rw [ht]
        exact hu
  simp only [ioRead, ends_bind, ends_get, ends_ite]
  refine ⟨fun _ => hraw r 0 can (prefix_refl _), fun _ => ?_⟩
  refine (recvmsg_ends _).imp fun o t ht => ?_
  have hlog : t.log = r.log := by
    rcases ht with ⟨-, rfl⟩ | ⟨n, -, -, -, rfl⟩ <;> rfl
  cases o with
  | none =>
      have hsame : r.log <+: t.log := hlog.symm ▸ prefix_refl _
      exact hsame
  | some bytes =>
      simp only [ends_bind, ends_modify, ends_get, ends_ite, ends_pure, ends_assertThat, hlog]
      have hp := prefix_append r.log
      refine ⟨fun _ => hp _, fun _ => ⟨fun _ => ⟨fun _ => hp _, fun _ => ⟨fun _ => hp _, fun _ => ?_⟩⟩,
        fun _ => hp _⟩⟩
      exact hraw _ _ _ (hp _)

theorem ioRead_ends (hfine : ∀ f ∈ todo, f.Fine) {can : Int} (hr : Reading rest r todo)
    (hpos : 0 < can) (hheader : r.readPartial = false → controlDataSz ≤ can) :
    Ends (ioRead recv can) r
      (fun n t => ReadObs.shortHeader ∈ t.log ∨ ReadDone rest r todo can n t)
      fun _ t => ReadObs.shortHeader ∈ t.log := by
  simp only [ioRead, ends_bind, ends_get, ends_ite]
  cases hr with
  | inside f todo k hpart hcontrol hk hmb hbytes =>
      refine ⟨fun _ => ?_, fun hno => absurd hpart hno⟩
      refine (readRaw_ends (hfine f mem_cons_self) hcontrol hk hmb hbytes hpos).imp
        (fun n t ht => .inr ⟨ht.1, ?_⟩)
      rcases ht.2 with hin | ⟨hlt, hle, hleft, hgot⟩
      · exact .inr (.inl hin)
      · exact .inr (.inr ⟨hlt, by omega, by omega, f, todo, rfl, hfine f mem_cons_self, hgot⟩)
  | between todo hpart hmb hbytes =>
      refine ⟨fun hno => absurd hno (by simp [hpart]), fun _ => ?_⟩
      have hheader := hheader hpart
      refine (recvmsg_ends _).imp fun o t ht => ?_
      rcases ht with ⟨rfl, rfl⟩ | ⟨n, hn, hsock, rfl, rfl⟩
      · simp only [ends_pure]
        exact .inr ⟨rfl, .inl ⟨by decide, .between todo hpart hmb hbytes⟩⟩
      · have hlen : (r.socket.take n).length = n := by
          rw [length_take]
          omega
        simp only [ends_bind, ends_modify, ends_get, ends_ite, ends_pure, ends_assertThat, hlen]
        by_cases hshort : n < controlDataSz
        · -- whatever comes of it, a part of a header was handed out
          simp only [hshort, if_true]
          have hin : ReadObs.shortHeader ∈ r.log ++ [.shortHeader] := by simp
          refine ⟨fun _ => .inl hin, fun _ => ⟨fun _ => ⟨fun _ => .inl hin, fun _ =>
            ⟨fun _ => .inl hin, fun _ => ?_⟩⟩, fun _ => hin⟩⟩
          refine (readRaw_log _ _).mono (fun _ t ht => .inl ?_) fun _ t ht => ?_
          · rw [ht]
            exact hin
          · rw [ht]
            exact hin
        · obtain rfl : n = controlDataSz := by omega
          obtain ⟨f, todo, rfl, htake, hdrop⟩ := head_of_stream hbytes hsock
          have hf := hfine f mem_cons_self
          have hcontrol : CommEvUNIXControlData.decode
              (r.socket.take controlDataSz ++ r.controlData.drop controlDataSz) = f.control := by
            rw [CommEvUNIXControlData.decode_append (by rw [hlen]), htake,
              CommEvUNIXControlData.decode_encode hf.inRange]
          have hleft : ((r.socket.drop controlDataSz).length : Int) =
              r.socket.length - controlDataSz := by
            rw [length_drop]
            omega
          simp only [CommEvUNIXReader.control, hcontrol, hf.magic, lt_irrefl, if_false,
            append_nil]
          refine ⟨fun hno => absurd hno (by decide), fun _ => ⟨fun _ => ⟨fun hsize => ?_,
            fun hsize => ⟨fun hcan => ?_, fun hcan => ?_⟩⟩, fun hno => absurd hno (by decide)⟩⟩
          · -- there is no payload
            have hnil : f.payload = [] := by
              rcases hf.size with heq | ⟨-, hnil⟩
              · exact length_eq_zero_iff.mp (by omega)
              · exact hnil
            rw [hnil, nil_append] at hdrop
            refine .inr ⟨rfl, .inr (.inr ⟨by decide, hheader, hleft, f, todo, rfl, hf, ?_⟩)⟩
            exact ⟨hpart, hcontrol, hmb.trans hnil.symm, hdrop⟩
          · have hk : 0 < f.payload.length := by
              rcases hf.size with heq | ⟨heq, -⟩ <;> omega
            exact .inr ⟨rfl, .inr (.inl ⟨rfl, .inside f todo 0 rfl hcontrol hk hmb hdrop⟩)⟩
          · have hk : 0 < f.payload.length := by
              rcases hf.size with heq | ⟨heq, -⟩ <;> omega
            obtain ⟨u, hu⟩ : ∃ u : CommEvUNIXReader, { r with
                controlData := r.socket.take controlDataSz ++ r.controlData.drop controlDataSz
                socket := r.socket.drop controlDataSz
                recvs := r.recvs + 1 } = u := ⟨_, rfl⟩
            rw [hu]
            have hcontrolU : u.control = f.control := by rw [← hu]; exact hcontrol
            have hmbU : u.dataMb = f.payload.take 0 := by rw [← hu]; exact hmb
            have hbytesU : u.socket ++ (u.coming ++ rest) = f.payload.drop 0 ++ stream todo := by
              rw [← hu]
              exact hdrop
            have hlogU : u.log = r.log := by rw [← hu]
            have hleftU : (u.socket.length : Int) = r.socket.length - controlDataSz := by
              rw [← hu]
              exact hleft
            refine (readRaw_ends hf hcontrolU hk hmbU hbytesU (by omega)).imp
              (fun n t ht => .inr ⟨ht.1.trans hlogU, ?_⟩)
            rcases ht.2 with hin | ⟨hlt, hle, hleft', hgot⟩
            · exact .inr (.inl hin)
            · exact .inr (.inr ⟨by omega, by omega, by omega, f, todo, rfl, hf, hgot⟩)

theorem dispatchRequest_ends {E : ReadFault → CommEvUNIXReader → Prop} :
    Ends dispatchRequest r
      (fun _ t => t = { r with
        dataMb := []
        log := r.log ++
          ((if ebitTest r.control.flags flagWantAck then [.wantsAck r.control.reqId] else []) ++
            [.dispatch r.control.reqId r.dataMb]) }) E := by
  simp only [dispatchRequest, ends_bind, ends_get, ends_ite, ends_modify]
  refine ⟨fun hwants => ?_, fun hwants => ?_⟩
  · rw [if_pos hwants]
    simp [CommEvUNIXReader.record]
  · rw [if_neg hwants]
    simp [CommEvUNIXReader.record]

theorem processControl_log :
    Ends (processControl side) r (fun _ t => r.log <+: t.log) fun _ t => r.log <+: t.log := by
  have hdispatch : Ends dispatchRequest r (fun _ t => r.log <+: t.log) fun _ t => r.log <+: t.log :=
    dispatchRequest_ends.imp fun _ t ht => by rw [ht]; exact prefix_append _ _
  have hp := prefix_refl r.log
  simp only [processControl, ends_bind, ends_get, ends_ite]
  refine ⟨fun _ => ?_, fun _ => ⟨fun _ => prefix_append _ _, fun _ => hp⟩⟩
  cases side with
  | client =>
      simp only [ends_bind, ends_ite, ends_assertThat, ends_pure]
      exact ⟨fun _ => ⟨fun _ => hdispatch, fun _ => hp⟩, fun _ => hp⟩
  | server => exact hdispatch

theorem processControl_ends {E : ReadFault → CommEvUNIXReader → Prop} (hf : f.Fine)
    (hgot : Got rest r f todo) :
    Ends (processControl side) r
      (fun _ t => t.log = r.log ++ f.deliver ∧ t.socket = r.socket ∧ t.readPartial = false ∧
        Reading rest t todo) E := by
  have hcontrol := hgot.control
  simp only [processControl, ends_bind, ends_get, ends_ite, hcontrol]
  cases f with
  | ack reqId =>
      have hrequest : ebitTest (WireFrame.ack reqId).control.flags flagRequest = false := rfl
      have hreply : ebitTest (WireFrame.ack reqId).control.flags flagReply = true := rfl
      simp only [hrequest, hreply, Bool.false_eq_true, false_implies, not_false_eq_true,
        not_true_eq_false, true_implies, true_and, and_true, ends_modify]
      exact ⟨rfl, rfl, hgot.notPartial, .between todo hgot.notPartial hgot.dataMb hgot.bytes⟩
  | message req =>
      have hrequest : ebitTest (WireFrame.message req).control.flags flagRequest = true :=
        hf.request req rfl
      refine ⟨fun _ => ?_, fun hno => absurd hrequest hno⟩
      have hdispatch : Ends dispatchRequest r
          (fun _ t => t.log = r.log ++ (WireFrame.message req).deliver ∧ t.socket = r.socket ∧
            t.readPartial = false ∧ Reading rest t todo) E := by
        refine dispatchRequest_ends.imp fun _ t ht => ?_
        rw [ht]
        refine ⟨?_, rfl, hgot.notPartial, .between todo hgot.notPartial rfl hgot.bytes⟩
        rw [hcontrol, hgot.dataMb]
        rfl
      cases side with
      | server => exact hdispatch
      | client =>
          have hle := hf.length_le
          have hsize : unsignedLong (WireFrame.message req).control.dataSz = r.dataMb.length := by
            rw [hgot.dataMb]
            unfold maxWriteSize at hle
            have hdata : (WireFrame.message req).control.dataSz = req.data.length := rfl
            have hpay : (WireFrame.message req).payload = req.data := rfl
            rw [hdata, hpay]
            rw [hpay] at hle
            exact unsignedLong_of_lt (by omega) (by omega)
          simp only [ends_bind, ends_ite, ends_assertThat, ends_pure, hsize, lt_irrefl,
            not_false_eq_true, not_true_eq_false, true_implies, decide_true, Bool.true_eq_false,
            false_implies, and_true]
          exact hdispatch

/-- The reader has delivered the frames in `done`, unless a header was torn. -/
def Progress (rest : List UInt8) (fs : List WireFrame) (r : CommEvUNIXReader) : Prop :=
  Whole r.log → ∃ done todo, fs = done ++ todo ∧ r.log = done.flatMap WireFrame.deliver ∧
    Reading rest r todo

theorem eventBrbProtoReadLoop_log (can : Int) (fuel : Nat) :
    ∀ (r : CommEvUNIXReader) (total : Int), Ends (eventBrbProtoReadLoop recv side can fuel total) r
      (fun _ t => r.log <+: t.log) fun _ t => r.log <+: t.log := by
  induction fuel with
  | zero => exact fun r _ => prefix_refl r.log
  | succ fuel ih =>
      intro r total
      simp only [eventBrbProtoReadLoop, ends_bind, ends_get, ends_ite, ends_pure]
      refine ⟨fun _ => prefix_refl _, fun _ => ?_⟩
      refine (ioRead_log _).imp fun n t ht => ⟨fun _ => ht, fun _ => ⟨fun _ => ht, fun _ => ?_⟩⟩
      refine processControl_log.mono (fun _ u hu => ⟨fun _ => ht.trans hu, fun _ => ?_⟩)
        fun _ _ he => ht.trans he
      exact (ih u _).mono (fun _ _ hv => ht.trans (hu.trans hv)) fun _ _ hv => ht.trans (hu.trans hv)

theorem not_whole_of_log {log log' : List ReadObs} (h : ¬ Whole log) (hp : log <+: log') :
    ¬ Whole log' := fun hw => h fun hin => hw (hp.subset hin)

theorem eventBrbProtoReadLoop_ends {fs : List WireFrame} (hfine : ∀ f ∈ fs, f.Fine) {can : Int}
    (hint : can < 2 ^ 31) (fuel : Nat) :
    ∀ (r : CommEvUNIXReader) (total : Int), 0 ≤ total → total < can →
      total = 0 ∨ controlDataSz ≤ can - total → can - total < fuel → Progress rest fs r →
      Ends (eventBrbProtoReadLoop recv side can fuel total) r (fun _ t => Progress rest fs t)
        fun _ t => ¬ Whole t.log := by
  induction fuel with
  | zero => exact fun r total _ hlt _ hfuel => absurd hfuel (by omega)
  | succ fuel ih =>
      intro r total htotal hlt hmore hfuel hr
      by_cases hwhole : Whole r.log
      · obtain ⟨done, todo, rfl, hlog, hreading⟩ := hr hwhole
        have htodo : ∀ f ∈ todo, f.Fine := fun f hf => hfine f (mem_append_right _ hf)
        have hunsigned : unsignedLong can = can := unsignedLong_of_lt (by omega) (by omega)
        simp only [eventBrbProtoReadLoop, ends_bind, ends_get, ends_ite, ends_pure, hunsigned]
        refine ⟨fun _ => hr, fun henough => ?_⟩
        have hheader : r.readPartial = false → controlDataSz ≤ can - total := by
          intro hpart
          rw [hpart] at henough
          simp only [Bool.not_false, Bool.true_and, decide_eq_true_eq] at henough
          omega
        refine (ioRead_ends htodo hreading (by omega) hheader).mono (fun n t ht => ?_)
          fun _ t ht => fun hw => hw ht
        rcases ht with htorn | ⟨htlog, hdone⟩
        · -- a torn header: nothing is said about the rest
          have htorn : ¬ Whole t.log := fun hw => hw htorn
          have hno : ∀ u : CommEvUNIXReader, t.log <+: u.log → ¬ Whole u.log :=
            fun u hu => not_whole_of_log htorn hu
          have hany : ∀ u : CommEvUNIXReader, t.log <+: u.log → Progress rest (done ++ todo) u :=
            fun u hu hw => absurd hw (hno u hu)
          refine ⟨fun _ => hany t (prefix_refl _), fun _ =>
            ⟨fun _ => hany t (prefix_refl _), fun _ => ?_⟩⟩
          refine processControl_log.mono (fun _ u hu => ⟨fun _ => hany u hu, fun _ => ?_⟩)
            fun _ u hu => hno u hu
          exact (eventBrbProtoReadLoop_log can fuel u _).mono (fun _ v hv => hany v (hu.trans hv))
            fun _ v hv => hno v (hu.trans hv)
        · rw [hlog] at htlog
          have hsame : Reading rest t todo → Progress rest (done ++ todo) t := fun h _ =>
            ⟨done, todo, rfl, htlog, h⟩
          rcases hdone with ⟨hneg, hin⟩ | ⟨hpart, hin⟩ | ⟨hpos, hle, -, f, todo', rfl, hf, hgot⟩
          · exact ⟨fun _ => hsame hin, fun hno => absurd hneg hno⟩
          · exact ⟨fun _ => hsame hin, fun _ => ⟨fun _ => hsame hin, fun hno => absurd hpart hno⟩⟩
          · refine ⟨fun hno => absurd hno (by omega), fun _ => ⟨fun hno => ?_, fun _ => ?_⟩⟩
            · rw [hgot.notPartial] at hno
              cases hno
            refine (processControl_ends hf hgot).imp fun _ u hu => ?_
            obtain ⟨hulog, -, -, hreading⟩ := hu
            have hprogress : Progress rest (done ++ f :: todo') u := fun _ =>
              ⟨done ++ [f], todo', by simp, by rw [hulog, htlog]; simp, hreading⟩
            refine ⟨fun _ => hprogress, fun hdrained => ?_⟩
            have hleft : controlDataSz ≤ can - (total + n) := by
              have hunsigned : unsignedLong (can - (total + n)) = can - (total + n) :=
                unsignedLong_of_lt (by omega) (by omega)
              cases side with
              | client =>
                  simp only [ReadSide.drained, hunsigned, decide_eq_true_eq] at hdrained
                  unfold minDataSz at hdrained
                  omega
              | server =>
                  simp only [ReadSide.drained, hunsigned, decide_eq_true_eq] at hdrained
                  omega
            have hheaderPos : 0 < controlDataSz := by decide
            exact ih u (total + n) (by omega) (by omega) (.inr hleft) (by omega) hprogress
      · exact (eventBrbProtoReadLoop_log can (fuel + 1) r total).mono
          (fun _ t ht hw => absurd hw (not_whole_of_log hwhole ht))
          fun _ t ht => not_whole_of_log hwhole ht

theorem handleRead_ends {fs : List WireFrame} (hfine : ∀ f ∈ fs, f.Fine) (ev : ReadEvent)
    (hr : Progress rest fs r) :
    Ends (handleRead recv side ev) r (fun _ t => Progress rest fs t) fun _ t => ¬ Whole t.log := by
  cases ev with
  | arrive n =>
      simp only [handleRead, ends_modify]
      intro hw
      obtain ⟨done, todo, hfs, hlog, hreading⟩ := hr hw
      refine ⟨done, todo, hfs, hlog, ?_⟩
      have hbytes : (r.socket ++ r.coming.take n) ++ (r.coming.drop n ++ rest) =
          r.socket ++ (r.coming ++ rest) := by
        rw [append_assoc, ← append_assoc (r.coming.take n), take_append_drop]
      cases hreading with
      | between todo hpart hmb h => exact .between todo hpart hmb (hbytes.trans h)
      | inside f todo k hpart hcontrol hk hmb h =>
          exact .inside f todo k hpart hcontrol hk hmb (hbytes.trans h)
  | read n =>
      simp only [handleRead, eventBrbProtoRead, ends_bind, ends_get, ends_ite, ends_pure]
      refine ⟨fun _ => hr, fun hpos => ?_⟩
      exact (eventBrbProtoReadLoop_ends hfine (by omega) _ r 0 (Int.le_refl 0) (by omega) (.inl rfl)
        (by omega) hr).imp fun _ _ ht => ht

/-- **Reading.**  The reader of a sequence of frames delivers them one after another, and
none of its assertions fails, unless the kernel tears a header. -/
theorem readFrom_progress (recv : Nat → RecvResult) (side : ReadSide) {fs : List WireFrame}
    (hfine : ∀ f ∈ fs, f.Fine) {bytes : List UInt8} (hbytes : bytes ++ rest = stream fs)
    (evs : List ReadEvent) :
    Runs.Holds (Progress rest fs) (fun _ r => ¬ Whole r.log) (readFrom recv side bytes evs) := by
  refine Runs.invariant_run (I := Progress rest fs) (fun ev r hr => handleRead_ends hfine ev hr) ?_ evs
  exact fun _ => ⟨[], fs, rfl, rfl, .between fs rfl rfl hbytes⟩

theorem Reading.eq_nil (h : Reading [] r todo) (hsock : r.socket = []) (hcoming : r.coming = []) :
    todo = [] := by
  cases h with
  | between todo hpart hmb hbytes =>
      cases todo with
      | nil => rfl
      | cons f todo =>
          have hlen := congrArg List.length hbytes
          rw [hsock, hcoming, stream_cons, f.bytes_eq] at hlen
          simp only [append_nil, length_nil, length_append,
            CommEvUNIXControlData.length_encode, controlDataSz] at hlen
          omega
  | inside f todo k hpart hcontrol hk hmb hbytes =>
      have hlen := congrArg List.length hbytes
      rw [hsock, hcoming] at hlen
      simp only [append_nil, length_nil, length_append, length_drop] at hlen
      omega

end Reads

section Messages

theorem Fits.fine {req : CommEvUNIXWriteRequest} (h : Fits req) : (WireFrame.message req).Fine := by
  have hlen := h.length_le
  have hfds := h.fds_le
  have hid := h.reqId_lt
  have hflags := h.flags_eq
  have hseq := req.seqId.toNat_lt
  unfold maxWriteSize at hlen
  unfold maxFdArrSz at hfds
  have hflagsOr : req.ctrlFlags = 1 ∨ req.ctrlFlags = 5 := by
    rw [hflags]
    unfold flagRequest flagWantAck
    split <;> omega
  refine ⟨⟨?_, ?_, ?_, ?_, ?_, ?_⟩, rfl, .inl rfl, fun r hr => ?_, h.length_le⟩
  · simp only [WireFrame.control, CommEvUNIXWriteRequest.header]
    omega
  · simp only [WireFrame.control, CommEvUNIXWriteRequest.header, magicCode00]
    omega
  · simp only [WireFrame.control, CommEvUNIXWriteRequest.header]
    omega
  · simp only [WireFrame.control, CommEvUNIXWriteRequest.header]
    omega
  · simp only [WireFrame.control, CommEvUNIXWriteRequest.header]
    omega
  · simp only [WireFrame.control, CommEvUNIXWriteRequest.header]
    omega
  · obtain rfl := WireFrame.message.inj hr
    rcases hflagsOr with heq | heq <;> rw [heq] <;> rfl

theorem fine_ack (reqId : Int32) : (WireFrame.ack reqId).Fine := by
  have hlow := reqId.le_toInt
  have hhigh := reqId.toInt_lt
  refine ⟨⟨?_, ?_, ⟨hlow, hhigh⟩, ?_, ?_, ?_⟩, rfl, .inr ⟨rfl, rfl⟩, nofun, Nat.zero_le _⟩ <;>
    simp [WireFrame.control, ackHeader, magicCode00, flagReply]

theorem Sequence.fine {c : CommEvUNIXClient} (h : Sequence c) : ∀ f ∈ frames c.log, f.Fine := by
  intro f hf
  obtain ⟨o, ho, heq⟩ := mem_filterMap.mp hf
  cases o with
  | header req =>
      obtain rfl := Option.some.inj heq
      exact (h.fits req (mem_headers.mpr ho)).fine
  | ackHeader reqId mid =>
      obtain rfl := Option.some.inj heq
      exact fine_ack reqId
  | _ => cases heq

/-- What was emitted are whole frames, of which the last may have a rest still to come;
their messages are accepted requests in their order and each once, and a request without
a frame is pending, or was given up before anything of it was sent; and whoever reads the
bytes delivers the frames in their order, with no assertion that fails. -/
structure Delivers (c : CommEvUNIXClient) : Prop where
  emitted : ∃ rest, c.out ++ rest = stream (frames c.log) ∧ Rest c rest
  messages : ((headers c.log).map letter).Sublist ((accepts c.log).map letter)
  left : ∀ r ∈ accepts c.log, (∃ r' ∈ headers c.log, r'.serial = r.serial) ∨
    (∃ x ∈ c.writes, (c.req x).serial = r.serial ∧ (c.req x).begun = false) ∨
    Obs.dropped r.serial false ∈ c.log
  read : ∀ recv side evs, Runs.Holds
    (fun r => Whole r.log → ∃ done todo, frames c.log = done ++ todo ∧
      r.log = done.flatMap WireFrame.deliver ∧
      (r.socket = [] → r.coming = [] → c.midFrame = false → todo = []))
    (fun _ r => ¬ Whole r.log) (readFrom recv side c.out evs)

theorem Ordered.delivers {c : CommEvUNIXClient} (h : Ordered c) : Delivers c where
  emitted := h.flow.rest
  messages := h.sequence.headers_sublist
  left := h.sequence.sent
  read := fun recv side evs => by
    obtain ⟨rest, hout, hrest⟩ := h.flow.rest
    refine (readFrom_progress recv side h.sequence.fine hout evs).mono (fun r hr hw => ?_)
      fun _ _ hr => hr
    obtain ⟨done, todo, hfs, hlog, hreading⟩ := hr hw
    refine ⟨done, todo, hfs, hlog, fun hsock hcoming hmid => ?_⟩
    have hnone : ∀ x ∈ c.writes, opened c x = false := by
      simpa [CommEvUNIXClient.midFrame, opened] using hmid
    rw [hrest.eq_nil hnone] at hreading
    exact hreading.eq_nil hsock hcoming

/-- **Messages.**  In every run of a framed client in which no acknowledgement is sent in
the middle of a request's frame, no request is given up there and none takes so many
pieces that its header is sent anew, everything is delivered. -/
theorem messages_delivered (env : Env) (fuel : Nat) (auto : Bool) (evs : List Event) :
    Runs.Holds (fun c => Smooth c.log → Delivers c) (fun _ c => Smooth c.log → Delivers c)
      (runFrom env fuel auto evs) :=
  (runFrom_paths env fuel auto evs).mono
    (fun _ hc hlog => (hc.1.ordered (Base.start auto) hlog (Ordered.start auto)).delivers)
    fun _ _ hc hlog => (hc.1.ordered (Base.start auto) hlog (Ordered.start auto)).delivers

/-- The kernel takes two bytes of the first payload, and everything after that. -/
def takeTwo : Env where
  sendmsg n := .sent (if n = 1 then 2 else 100)
  bufferWriteSize _ := 100000
  onFinish _ := []
  onAck _ _ := []

/-- An acknowledgement is queued while a request waits in the middle of its payload. -/
def ackInside : Config :=
  runFrom takeTwo 8 false
    [.user (.brbProtoWrite [1, 2, 3, 4] [] false false 0 0), .user (.brbProtoACK 5), .write 1000,
      .write 1000]

def misled : Runs.Config ReadFault CommEvUNIXReader :=
  readFrom (fun _ => .received 100) .client ackInside.state.out [.arrive 100, .read 100, .read 100]

/-- The bytes emitted are not those of the two frames that were begun, the peer delivers
another payload than the one that was sent, and its assertion about the magic code
fails on the bytes behind it. -/
theorem messages_misread :
    ackInside.fault.isNone = true ∧ ackInside.state.midFrame = false ∧
    ackInside.state.out.length = (stream (frames ackInside.state.log)).length ∧
    ackInside.state.out ≠ stream (frames ackInside.state.log) ∧
    (headers ackInside.state.log).map (·.data) = [[1, 2, 3, 4]] ∧
    misled.state.log = [.dispatch 0 [1, 2, 255, 255]] ∧
    misled.fault = some .badMagic := by
  decide +kernel

end Messages

end Unix
