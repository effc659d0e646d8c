import BrbFramework.Lib.Runs
import Mathlib.Logic.Function.Basic

/-!
# The ICMP base

A request is a record in an arena, under the slot that it is granted, and its node is in
the list of those to be written or in that of those that wait for a reply. There is one
such structure for each address family.

The handlers take a record, call the program back, and then cancel whatever request the
record says it holds. So a callback is the steps between the one that invokes it and the
`ret` that ends it: in between, the program may send and cancel. The loops of the handlers
take one turn a step, in which nothing else of the program runs.

What `sendto` returns and whether a request has timed out, which the source computes in
floating point, are parts of a step. Addresses, payloads, checksums and times are left
out, and so are the marks of the arena: each function grabs a slot before it releases it.
A pointer to a record, or to its node, is its slot.
-/

namespace EvICMP

open Handler

/-- `ICMP_QUERY_MAX_SEQID`. -/
def maxSeqId : Nat := 65535

/-- `ICMP_BASE_TIMEOUT_TIMER`. -/
def timeoutTimerMs : Int := 1000

/-- `ICMP_BASE_MAX_TX_RETRYCOUNT`. -/
def maxTxRetryCount : Nat := 5

/-- `COMM_ICMP_MAX_PAYLOAD`. -/
def maxPayload : Int := 8092

/-- The size of a `CommEvICMPHeader` without its payload. -/
def headerSz : Int := 8

/-- Which of `pending_v4` and `pending_v6`. -/
inductive Family
  | v4 | v6
  deriving DecidableEq, Repr

namespace Family

/-- The headers that `CommEvICMPBaseEventRead` needs. -/
def needSz : Family → Int
  | v4 => 20 + headerSz
  | v6 => 40 + headerSz

/-- `ICMP_CODE_ECHO_REPLY` and `ICMP6_ECHO_REPLY`. -/
def echoReply : Family → Nat
  | v4 => 0
  | v6 => 129

end Family

structure ICMPQueryInfo where
  cbHandler : Option Nat := none
  cbData : Nat := 0
  slotId : Nat := 0
  ownerId : Int := 0
  timeoutMs : Int := 0
  icmpPacketSz : Int := 0
  icmpCode : Nat := 0
  txRetryCount : Nat := 0
  inUse : Bool := false
  waitingReply : Bool := false
  /-- Which of the accepted requests this is; no function of the source reads it. -/
  serial : Nat := 0
  deriving DecidableEq, Repr

structure ICMPReply where
  icmpType : Nat
  icmpCode : Nat
  icmpId : Nat
  icmpSeq : Nat
  deriving DecidableEq, Repr

structure EvICMPPending where
  arena : Nat → ICMPQueryInfo := fun _ => {}
  reqList : List Nat := []
  replyList : List Nat := []
  slots : List Nat := List.range' 0 maxSeqId

inductive After
  /-- The end of `CommEvICMPBaseEventRead`. -/
  | read
  /-- `leave` in `CommEvICMPBaseEventWrite`; the request has been popped. -/
  | write
  /-- The walk over a list in `CommEvICMPBaseTimeoutCheckPending`, with the next node, and
  whether a list was found that is not empty. -/
  | timeout (waitingReply : Bool) (node : Option Nat) (status : Bool)
  deriving DecidableEq, Repr

def After.node : After → Option Nat
  | read | write => none
  | timeout _ node _ => node

inductive Walk
  | idle
  /-- In the loop of `CommEvICMPBaseEventWrite`. -/
  | write (family : Family) (canWriteSz wroteBytes : Int)
  /-- In a loop of `CommEvICMPBaseTimeoutCheckPending`. -/
  | timeout (family : Family) (waitingReply : Bool) (node : Option Nat) (status : Bool)
  /-- In the callback of a request. -/
  | calling (family : Family) (query serial : Nat) (after : After)
  deriving DecidableEq, Repr

/-- Who cancels a request: the program, or the base in the handling of a request. -/
abbrev Caller := Option Nat

inductive Obs
  | called (n : Nat) (reply : ICMPReply)
  | released (caller : Caller) (n : Nat)
  deriving DecidableEq, Repr

structure EvICMPBase where
  pending : Family → EvICMPPending := fun _ => {}
  readEvent : Family → Bool := fun _ => false
  writeEvent : Family → Bool := fun _ => false
  identyId : Nat
  /-- Whether `timer_id` is one. -/
  timer : Bool := false
  minSeenTimeout : Int := timeoutTimerMs
  walk : Walk := .idle
  accepted : Nat := 0
  log : List Obs := []

inductive Fault
  /-- `assert(icmp_queryinfo->flags.in_use)` of `CommEvICMPRequestCancelByReqID`. -/
  | notInUse (caller : Caller)
  /-- `assert(!icmp_queryinfo->flags.in_use)` of `CommEvICMPRequestSend`. -/
  | inUse
  /-- `assert(!icmp_queryinfo->flags.waiting_reply)` of `CommEvICMPBaseEventWrite`. -/
  | waitingReply
  /-- The data of a node is followed and is null. -/
  | null
  deriving DecidableEq, Repr

abbrev M := EStateM Fault EvICMPBase

namespace EvICMPPending

variable (p : EvICMPPending)

def setQuery (x : Nat) (f : ICMPQueryInfo → ICMPQueryInfo) : EvICMPPending :=
  { p with arena := Function.update p.arena x (f (p.arena x)) }

def list : Bool → List Nat
  | false => p.reqList
  | true => p.replyList

/-- `node->next` of the node of a request. -/
def nodeNext (x : Nat) : Option Nat :=
  let l := p.list (p.arena x).waitingReply
  if x ∈ l then l[l.idxOf x + 1]? else none

/-- What `CommEvICMPRequestCancelByReqID` does to a request. -/
def cancel (x : Nat) : EvICMPPending :=
  let query := p.arena x
  let p := { p with slots := query.slotId :: p.slots }
  let p :=
    if !query.waitingReply then { p with reqList := p.reqList.erase x }
    else { p with replyList := p.replyList.erase x }
  p.setQuery x fun _ => {}

/-- `DLINKED_LIST_ISEMPTY` of both lists. -/
def isEmpty : Bool := p.reqList.isEmpty && p.replyList.isEmpty

end EvICMPPending

namespace EvICMPBase

variable (s : EvICMPBase)

def setPending (family : Family) (p : EvICMPPending) : EvICMPBase :=
  { s with pending := Function.update s.pending family p }

def query (family : Family) (x : Nat) : ICMPQueryInfo := (s.pending family).arena x

def note (l : List Obs) : EvICMPBase := { s with log := s.log ++ l }

def setReadEvent (family : Family) : EvICMPBase :=
  { s with readEvent := Function.update s.readEvent family true }

def setWriteEvent (family : Family) : EvICMPBase :=
  { s with writeEvent := Function.update s.writeEvent family true }

/-- The reply that is assembled when there is no packet; the type has eight bits. -/
def replyOf (icmpType : Nat) (query : ICMPQueryInfo) : ICMPReply :=
  { icmpType, icmpCode := query.icmpCode, icmpId := s.identyId, icmpSeq := query.slotId }

end EvICMPBase

/-- `ICMP_CODE_TX_FAILED` and `ICMP_CODE_TIMEOUT` in the eight bits of `icmp_type`. -/
def codeTxFailed : Nat := 254
def codeTimeout : Nat := 255

/-- `CommEvICMPRequestCancelByReqID`. -/
def requestCancelByReqID (caller : Caller) (family : Family) (reqId : Nat) : M PUnit := do
  let s ← get
  assertThat (s.query family reqId).inUse (.notInUse caller)
  set ((s.setPending family ((s.pending family).cancel reqId)).note
    [.released caller (s.query family reqId).serial])

/-- The body of the loops of `CommEvICMPRequestCancelByOwnerID`, over the nodes that are
in the list when it begins. -/
def cancelOwned (family : Family) (ownerId : Int) : List Nat → M PUnit
  | [] => return
  | x :: rest => do
      let s ← get
      if (s.query family x).ownerId = ownerId then
        requestCancelByReqID none family (s.query family x).slotId
      cancelOwned family ownerId rest

/-- `CommEvICMPRequestCancelByOwnerID`. -/
def requestCancelByOwnerID (family : Family) (ownerId : Int) : M PUnit := do
  let s ← get
  cancelOwned family ownerId (s.pending family).reqList
  let s ← get
  cancelOwned family ownerId (s.pending family).replyList

/-- `CommEvICMPRequestSend` of a request with a payload of so many bytes, if any. -/
def requestSend (family : Family) (icmpCode : Nat) (timeoutMs : Int) (payload : Option Int)
    (cbHandler : Option Nat) (cbData : Nat) (ownerId : Int) : M Int := do
  if timeoutMs ≤ 0 then
    return -1
  let s ← get
  let p := s.pending family
  match p.slots with
  | [] => return -1
  | slotId :: slots =>
      assertThat (!(p.arena slotId).inUse) .inUse
      let payloadLen := (payload.map fun len => min (max len 0) maxPayload).getD 0
      let query : ICMPQueryInfo :=
        { inUse := true, slotId, ownerId, cbHandler, cbData, timeoutMs, icmpCode
          icmpPacketSz := headerSz + payloadLen, serial := s.accepted }
      let p := { p.setQuery slotId (fun _ => query) with slots, reqList := p.reqList ++ [slotId] }
      set { (s.setPending family p).setWriteEvent family with
        minSeenTimeout := if s.minSeenTimeout > timeoutMs then timeoutMs else s.minSeenTimeout
        timer := true
        accepted := s.accepted + 1 }
      return slotId

/-- Where the base goes on when a request has been cancelled. -/
def EvICMPBase.resume (s : EvICMPBase) (family : Family) : After → EvICMPBase
  | .read => { s with walk := .idle }
  | .write => { (s.setReadEvent family).setWriteEvent family with walk := .idle }
  | .timeout waitingReply node status =>
      { s with walk := .timeout family waitingReply node status }

/-- "Free slot and delete from pending list", with what the record says then. -/
def finishQuery (family : Family) (x serial : Nat) (after : After) : M PUnit := do
  let s ← get
  requestCancelByReqID (some serial) family (s.query family x).slotId
  modify fun s => s.resume family after

/-- A handler calls the callback of a request, if there is one. -/
def notify (family : Family) (x : Nat) (reply : ICMPReply) (after : After) : M PUnit := do
  let s ← get
  let query := s.query family x
  if query.cbHandler.isSome then
    set { s.note [.called query.serial reply] with
      walk := .calling family x query.serial after }
  else
    finishQuery family x query.serial after

structure Packet where
  dataRead : Int
  icmpType : Nat
  icmpCode : Nat
  icmpId : Nat
  icmpSeq : Nat
  deriving DecidableEq, Repr

/-- `CommEvICMPBaseEventRead`, up to the callback. -/
def baseEventRead (family : Family) (packet : Packet) : M PUnit := do
  modify fun s => s.setReadEvent family
  let s ← get
  if packet.dataRead < family.needSz then
    return
  if packet.icmpId ≠ s.identyId then
    return
  if packet.icmpType ≠ family.echoReply then
    return
  if packet.icmpSeq ≥ maxSeqId then
    return
  if !(s.query family packet.icmpSeq).inUse then
    return
  notify family packet.icmpSeq
    { icmpType := packet.icmpType, icmpCode := packet.icmpCode, icmpId := packet.icmpId
      icmpSeq := packet.icmpSeq } .read

/-- A turn of the loop of `CommEvICMPBaseEventWrite`, in which `sendto` would return
`sent`, up to a callback. -/
def baseEventWrite (family : Family) (canWriteSz wroteBytes sent : Int) : M PUnit := do
  let s ← get
  let p := s.pending family
  match p.reqList with
  | [] => set { s.setReadEvent family with walk := .idle }
  | x :: rest =>
      let query := p.arena x
      let popped := { p with reqList := rest }
      assertThat (!query.waitingReply) .waitingReply
      if query.icmpPacketSz + wroteBytes + 1 > canWriteSz then
        set ((s.setPending family { popped with reqList := x :: rest }).resume family .write)
      else if sent ≤ 0 then
        if query.txRetryCount > maxTxRetryCount then
          set (s.setPending family popped)
          notify family x (s.replyOf codeTxFailed query) .write
        else
          let p := { popped with reqList := x :: rest }
          let p := p.setQuery x fun query => { query with txRetryCount := query.txRetryCount + 1 }
          set ((s.setPending family p).resume family .write)
      else
        let p := { popped with replyList := p.replyList ++ [x] }
        let p := p.setQuery x fun query => { query with waitingReply := true }
        set { s.setPending family p with walk := .write family canWriteSz sent }

/-- The end of `CommEvICMPBaseTimeoutTimer`. -/
def timeoutTimerEnd (s : EvICMPBase) (status : Bool) : EvICMPBase :=
  { s with
    walk := .idle
    timer := status
    minSeenTimeout := if status then s.minSeenTimeout else timeoutTimerMs }

/-- `CommEvICMPBaseTimeoutTimer` from the check of a family on, with what the checks
before it returned. -/
def timeoutCheckPending (s : EvICMPBase) (family : Family) (status : Bool) : EvICMPBase :=
  if !(s.pending family).isEmpty then
    { s with walk := .timeout family false (s.pending family).reqList.head? true }
  else
    match family with
    | .v4 =>
        if !(s.pending .v6).isEmpty then
          { s with walk := .timeout .v6 false (s.pending .v6).reqList.head? true }
        else timeoutTimerEnd s status
    | .v6 => timeoutTimerEnd s status

/-- A turn of a loop of `CommEvICMPBaseTimeoutCheckPending` for a request that has timed
out or not, up to a callback. -/
def timeoutTurn (family : Family) (waitingReply : Bool) (node : Option Nat) (status timedOut : Bool) :
    M PUnit := do
  let s ← get
  match node with
  | some x =>
      let query := s.query family x
      let next := (s.pending family).nodeNext x
      assertThat query.inUse .null
      if timedOut then
        notify family x (s.replyOf codeTimeout query) (.timeout waitingReply next status)
      else
        set { s with walk := .timeout family waitingReply next status }
  | none =>
      match waitingReply, family with
      | false, family =>
          set { s with walk := .timeout family true (s.pending family).replyList.head? status }
      | true, .v4 => set (timeoutCheckPending s .v6 status)
      | true, .v6 => set (timeoutTimerEnd s status)

inductive Event
  | requestSend (family : Family) (icmpCode : Nat) (timeoutMs : Int) (payload : Option Int)
      (cbHandler : Option Nat) (cbData : Nat) (ownerId : Int)
  | cancelByReqID (family : Family) (reqId : Nat)
  | cancelByOwnerID (family : Family) (ownerId : Int)
  | eventRead (family : Family) (packet : Packet)
  | eventWrite (family : Family) (canWriteSz : Int)
  | timeoutTimer
  /-- A turn of the loop that the base is in. -/
  | turn (sent : Int) (timedOut : Bool)
  /-- A callback returns. -/
  | ret
  deriving DecidableEq, Repr

/-- The program runs, and not a loop of the base. -/
def EvICMPBase.userRuns (s : EvICMPBase) : Bool :=
  match s.walk with
  | .idle | .calling .. => true
  | _ => false

def handle : Event → M PUnit
  | .requestSend family icmpCode timeoutMs payload cbHandler cbData ownerId => do
      let s ← get
      if s.userRuns then
        let _ ← requestSend family icmpCode timeoutMs payload cbHandler cbData ownerId
  | .cancelByReqID family reqId => do
      let s ← get
      if s.userRuns then requestCancelByReqID none family reqId
  | .cancelByOwnerID family ownerId => do
      let s ← get
      if s.userRuns then requestCancelByOwnerID family ownerId
  | .eventRead family packet => do
      let s ← get
      if s.walk = .idle ∧ s.readEvent family then baseEventRead family packet
  | .eventWrite family canWriteSz => do
      let s ← get
      if s.walk = .idle ∧ s.writeEvent family then
        set { s with
          writeEvent := Function.update s.writeEvent family false
          walk := .write family canWriteSz 0 }
  | .timeoutTimer => do
      let s ← get
      if s.walk = .idle ∧ s.timer then set (timeoutCheckPending s .v4 false)
  | .turn sent timedOut => do
      let s ← get
      match s.walk with
      | .write family canWriteSz wroteBytes => baseEventWrite family canWriteSz wroteBytes sent
      | .timeout family waitingReply node status =>
          timeoutTurn family waitingReply node status timedOut
      | _ => return
  | .ret => do
      let s ← get
      match s.walk with
      | .calling family x serial after => finishQuery family x serial after
      | _ => return

/-- The steps `evs` of a new base of the process `identyId`. -/
def runFrom (identyId : Nat) (evs : List Event) : Runs.Config Fault EvICMPBase :=
  Runs.run handle (.live { identyId }) evs

end EvICMP
