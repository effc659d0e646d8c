import BrbFramework.Data.MemStreamContent
import BrbFramework.Tcp.SelfSync

/-!
# The read methods of a TCP client

A client reads into a `MemBuffer` or into a `MemStream`. The data comes from
the socket, or from the buffer that TLS filled. The branch for streams goes on
to read the socket after it took the data in, so that every read asks the
socket once more than the branch for buffers does, or oftener.

The socket counts how often it was read. `appended` is a history: the bytes by
which the reads made the buffer or the stream longer.
-/

namespace Tcp

open BrbData Handler Machine Runs List

/-- `CommEvTCPClientReadMethod`. -/
inductive ReadMthd
  | memBuffer | memStream
  deriving DecidableEq

/-- The socket behind `socket_fd`: the bytes that are still to come, and how many of them
each read finds at most, if it does not fail. -/
structure Socket where
  incoming : List UInt8
  ready : Nat → Option Nat
  reads : Nat := 0

/-- `read`, or `recv`, of at most `sz` bytes. Under `MSG_PEEK` they stay where they are. -/
def Socket.read (fd : Socket) (sz : Nat) (peek : Bool) : Option (List UInt8) × Socket :=
  let answer := (fd.ready fd.reads).map fun n => fd.incoming.take (min n sz)
  (answer,
    { fd with
      incoming := if peek then fd.incoming else fd.incoming.drop (answer.getD []).length
      reads := fd.reads + 1 })

@[simp] theorem Socket.read_reads (fd : Socket) (sz : Nat) (peek : Bool) :
    (fd.read sz peek).2.reads = fd.reads + 1 := rfl

/-- What a read is called with, and what the upper layers do with its outcome. -/
structure ReadCall where
  readSz : Nat
  readBuf : List UInt8
  upper : Upper

def ReadCall.asks (e : ReadCall) : Nat := if e.readBuf = [] then 1 else 0

structure ReadingClient where
  client : CommEvTCPClient
  readMthd : ReadMthd
  peekOnRead : Bool
  mtEngine : Bool
  readStream : Option MemStream := none
  fd : Socket
  appended : List UInt8 := []

namespace ReadingClient

abbrev M := EStateM MemStream.Fault ReadingClient

def onStream {α : Type} (x : MemStream.M α) : M α := fun c =>
  match c.readStream with
  | none => .error .null c
  | some s =>
    match x s with
    | .ok a t =>
        .ok a { c with
          readStream := some t
          appended := c.appended ++ t.supplied.drop s.supplied.length }
    | .error f t => .error f { c with readStream := some t }

/-- `MemStreamGrabDataFromFD` fills up the last node, and reads once more for a new one. -/
def readsTwice (s : MemStream) (dataSz : Nat) : Bool :=
  s.nodeCount ≠ 0 && s.tailAvail ≤ dataSz

/-- `MemStreamGrabDataFromFD` on the socket. What is left for a second read is computed from
what the first returned. -/
def grabDataFromFD (dataSz : Nat) : M Int := do
  let c ← get
  match c.readStream with
  | none => throw .null
  | some s =>
    let (first, fd) := c.fd.read (if readsTwice s dataSz then s.tailAvail else dataSz) false
    let readBytes := uint64 (first.elim (2 ^ 64 - 1) List.length)
    let (second, fd') := fd.read (uint64Sub dataSz readBytes) false
    let dataRead ← onStream (MemStream.grabDataFromFD dataSz first second)
    modify fun c => { c with fd := if readsTwice s dataSz then fd' else fd }
    return dataRead

def createStream : M PUnit := modify fun c =>
  { c with
    readStream := c.readStream.getD (.new 8092 (if c.mtEngine then .mtSafe else .mtUnsafe)) }

/-- The data that was read already, or what the socket has. -/
def absorbStream (e : ReadCall) : M PUnit := do
  if e.readBuf ≠ [] then
    onStream (MemStream.write e.readBuf)
  else
    let _ ← grabDataFromFD e.readSz

/-- What follows the switch over the methods. With self-sync there is no buffer to look at, and
else the handler of `COMM_CLIENT_EVENT_READ` takes what the stream holds. -/
def dispatchStream (upper : Upper) : M PUnit := do
  if (← get).client.selfSync then
    modify fun c => { c with
      client := { c.client with io := c.client.selfSyncReadBuffer c.client.io upper } }
  else
    match upper with
    | .clean => onStream MemStream.clean
    | .destroy => modify fun c => { c with readStream := none }

/-- By how many bytes a read makes the read buffer longer. -/
def grown (client : CommEvTCPClient) (r : Read) : List UInt8 :=
  (held (client.io.absorb client.transform r).1.readBuffer).drop
    (held client.io.readBuffer ++ held client.io.partialReadBuffer).length

/-- `CommEvTCPClientProcessBuffer`. -/
def processBuffer (e : ReadCall) : M Int := do
  let c ← get
  match c.readMthd with
  | .memBuffer =>
    let (recv, fd) :=
      if e.readBuf ≠ [] then (none, c.fd) else c.fd.read e.readSz c.peekOnRead
    let r : Read := ⟨e.readSz, e.readBuf, recv⟩
    let (client, dataRead) := c.client.processBuffer (r, e.upper)
    set { c with client := client, fd := fd, appended := c.appended ++ grown c.client r }
    return dataRead.elim (-1) Int.ofNat
  | .memStream =>
    createStream
    absorbStream e
    -- the source reads the socket again, whatever was absorbed
    let dataRead ← grabDataFromFD e.readSz
    dispatchStream e.upper
    return dataRead

def handle (e : ReadCall) : M PUnit := do let _ ← processBuffer e

/-- The client with a read method, and without a transform. -/
def reading (c : ReadingClient) (mthd : ReadMthd) : ReadingClient :=
  { c with readMthd := mthd, client := { c.client with transform := fun _ => none } }

/-- The reads come to their end with either method, have appended the same bytes and have
read the socket as often. -/
structure Agree (c : ReadingClient) (es : List ReadCall) : Prop where
  ends : (run handle (.live (c.reading .memStream)) es).fault = none
  appended : (run handle (.live (c.reading .memStream)) es).state.appended =
    (run handle (.live (c.reading .memBuffer)) es).state.appended
  reads : (run handle (.live (c.reading .memStream)) es).state.fd.reads =
    (run handle (.live (c.reading .memBuffer)) es).state.fd.reads

/-! ## How often the socket is read -/

section Reads

variable {c : ReadingClient} {n : Nat}

theorem onStream_ends {α : Type} (x : MemStream.M α) :
    Ends (onStream x) c (fun _ t => t.readMthd = c.readMthd ∧ t.fd = c.fd) fun _ _ => True := by
  unfold Ends onStream
  cases c.readStream with
  | none => trivial
  | some s =>
      simp only
      cases x s with
      | ok a t => exact ⟨rfl, rfl⟩
      | error f t => trivial

theorem grabDataFromFD_ends (dataSz : Nat) :
    Ends (grabDataFromFD dataSz) c
      (fun _ t => t.readMthd = c.readMthd ∧ c.fd.reads + 1 ≤ t.fd.reads) fun _ _ => True := by
  simp only [grabDataFromFD, ends_bind, ends_get]
  cases c.readStream with
  | none => trivial
  | some s =>
      simp only [ends_bind, ends_modify, ends_pure]
      apply (onStream_ends _).imp
      intro _ t ht
      refine ⟨ht.1, ?_⟩
      split
      · simp only [Socket.read_reads]
        omega
      · simp only [Socket.read_reads]
        omega

theorem absorbStream_ends (e : ReadCall) :
    Ends (absorbStream e) c
      (fun _ t => t.readMthd = c.readMthd ∧ c.fd.reads + e.asks ≤ t.fd.reads)
      fun _ _ => True := by
  unfold absorbStream ReadCall.asks
  by_cases hdata : e.readBuf = []
  · simp only [hdata, ne_eq, not_true_eq_false, if_false, if_true, ends_bind, ends_pure]
    exact grabDataFromFD_ends e.readSz
  · simp only [hdata, ne_eq, not_false_eq_true, if_true, if_false]
    apply (onStream_ends _).imp
    intro _ t ht
    exact ⟨ht.1, by rw [ht.2]; omega⟩

theorem dispatchStream_ends (upper : Upper) :
    Ends (dispatchStream upper) c (fun _ t => t.readMthd = c.readMthd ∧ t.fd = c.fd)
      fun _ _ => True := by
  simp only [dispatchStream, ends_bind, ends_get]
  split
  · exact ⟨rfl, rfl⟩
  · cases upper with
    | clean => exact onStream_ends _
    | destroy => exact ⟨rfl, rfl⟩

/-- **One read into a buffer.** -/
theorem handle_memBuffer (e : ReadCall) (hmthd : c.readMthd = .memBuffer) :
    Ends (handle e) c
      (fun _ t => t.readMthd = .memBuffer ∧ t.fd.reads = c.fd.reads + e.asks)
      fun _ _ => False := by
  simp only [handle, processBuffer, ends_bind, ends_get, hmthd, ends_set, ends_pure, true_and]
  unfold ReadCall.asks
  by_cases hdata : e.readBuf = []
  · simp only [hdata, ne_eq, not_true_eq_false, if_false, if_true, Socket.read_reads]
  · simp only [hdata, ne_eq, not_false_eq_true, if_true, if_false, Nat.add_zero]

/-- **One read into a stream** asks the socket at least once more than it needs to. -/
theorem handle_memStream (e : ReadCall) (hmthd : c.readMthd = .memStream) :
    Ends (handle e) c
      (fun _ t => t.readMthd = .memStream ∧ c.fd.reads + (e.asks + 1) ≤ t.fd.reads)
      fun _ _ => True := by
  simp only [handle, processBuffer, createStream, ends_bind, ends_get, hmthd, ends_modify,
    ends_pure]
  apply (absorbStream_ends e).imp
  intro _ t ht
  apply (grabDataFromFD_ends e.readSz).imp
  intro _ u hu
  apply (dispatchStream_ends e.upper).imp
  intro _ v hv
  refine ⟨hv.1.trans (hu.1.trans ht.1), ?_⟩
  have hfirst := ht.2
  rw [hv.2]
  simp only at hfirst
  omega

theorem run_memBuffer (es : List ReadCall) (hmthd : c.readMthd = .memBuffer) :
    (run handle (.live c) es).state.fd.reads =
      es.foldl (fun n e => n + e.asks) c.fd.reads := by
  have hrun : Holds (fun t : ReadingClient => t.readMthd = .memBuffer ∧
        t.fd.reads = es.foldl (fun n e => n + e.asks) c.fd.reads)
      (fun _ _ => False) (run handle (.live c) es) := by
    apply refines_run (R := fun n (t : ReadingClient) => t.readMthd = .memBuffer ∧ t.fd.reads = n)
      (P := fun _ _ _ => True) (c := .live c) _ ⟨hmthd, rfl⟩ es
      (meetsAlong_of_forall fun _ _ => trivial)
    intro e n t ht _
    apply (handle_memBuffer e ht.1).imp
    intro _ u hu
    exact ⟨hu.1, by rw [hu.2, ht.2]⟩
  exact hrun.safe.2.2

theorem run_memStream (es : List ReadCall) (hmthd : c.readMthd = .memStream)
    (hends : (run handle (.live c) es).fault = none) :
    es.foldl (fun n e => n + (e.asks + 1)) c.fd.reads ≤
      (run handle (.live c) es).state.fd.reads := by
  have hrun : Holds (fun t : ReadingClient => t.readMthd = .memStream ∧
        es.foldl (fun n e => n + (e.asks + 1)) c.fd.reads ≤ t.fd.reads)
      (fun _ _ => True) (run handle (.live c) es) := by
    apply refines_run (R := fun n (t : ReadingClient) => t.readMthd = .memStream ∧ n ≤ t.fd.reads)
      (P := fun _ _ _ => True) (c := .live c) _ ⟨hmthd, le_rfl⟩ es
      (meetsAlong_of_forall fun _ _ => trivial)
    intro e n t ht _
    apply (handle_memStream e ht.1).imp
    intro _ u hu
    exact ⟨hu.1, le_trans (Nat.add_le_add_right ht.2 _) hu.2⟩
  exact (hrun.of_live hends).2

theorem foldl_asks (es : List ReadCall) (n k : Nat) :
    es.foldl (fun n e => n + (e.asks + 1)) (n + k) =
      es.foldl (fun n e => n + e.asks) n + (k + es.length) := by
  induction es generalizing n k with
  | nil => rfl
  | cons e es ih =>
      have hnext : n + k + (e.asks + 1) = n + e.asks + (k + 1) := by omega
      rw [foldl_cons, foldl_cons, hnext, ih, length_cons]
      omega

theorem Agree.nil {es : List ReadCall} (h : Agree c es) : es = [] := by
  have hbuffer := @run_memBuffer (c.reading .memBuffer) es rfl
  have hstream := @run_memStream (c.reading .memStream) es rfl h.ends
  have hsame : (c.reading .memStream).fd.reads = (c.reading .memBuffer).fd.reads := rfl
  have hasked := foldl_asks es (c.reading .memBuffer).fd.reads 0
  rw [h.reads, hbuffer, hsame] at hstream
  rw [Nat.add_zero] at hasked
  exact eq_nil_of_length_eq_zero (by omega)

end Reads

/-- **The two read methods.**  They agree on a sequence of reads only where nothing is read. -/
theorem agree_iff (c : ReadingClient) (es : List ReadCall) : Agree c es ↔ es = [] := by
  constructor
  · exact Agree.nil
  · rintro rfl
    exact ⟨rfl, rfl, rfl⟩

/-- One byte that TLS has read goes into the buffer or the stream of a client. The socket has
nothing, and is asked for the stream only. -/
theorem stream_asks_for_supplied_data :
    ¬Agree
      { client := { selfSync := false, tokenStr := [], maxBufferSz := 0
                    transform := fun _ => none, io := {} }
        readMthd := .memStream, peekOnRead := false, mtEngine := false
        fd := { incoming := [], ready := fun _ => some 0 } }
      [⟨1, [7], .clean⟩] := by
  intro h
  exact absurd h.nil (cons_ne_nil _ _)

end ReadingClient

end Tcp
