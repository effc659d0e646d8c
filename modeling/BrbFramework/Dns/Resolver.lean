import BrbFramework.Dns.Rfc1035
import BrbFramework.Lib.Handler
import BrbFramework.Lib.Linked
import BrbFramework.Lib.Runs

/-!
# The DNS resolver

Queries lie in an arena under their slot ids and are linked, through a node of
their own, into the list of those to be written or the list of those that wait
for a reply. The resolver is called from the event loop, and its callbacks may
call it back.

The environment says what `sendto` returns, call by call, and what each
invocation of a callback does. A pointer to a query is its slot id.
-/

namespace Dns

open Handler Linked

def maxSeqId : Nat := 65535

def maxReplyCount : Nat := 32

def querySz : Nat := 512

structure Timeval where
  sec : Int := 0
  usec : Int := 0
deriving DecidableEq

/-- `DNSPendingQuery`, without its list node. -/
structure DNSPendingQuery where
  reqCount : Int := 0
  failCount : Int := 0
  slotId : Nat := 0
  transmitTv : Timeval := {}
  retransmitTv : Timeval := {}
  request : List UInt8 := []
  hasHandler : Bool := false
  cbData : Nat := 0
  inUse : Bool := false
  reXmit : Bool := false
  waitingReply : Bool := false
  canceledReq : Bool := false
deriving DecidableEq

structure DNSEntry where
  ttl : Nat
  type : Nat
  addr : List UInt8
deriving DecidableEq

structure DNSAReply where
  ipCount : Int := 0
  ipArr : List DNSEntry := []
deriving DecidableEq

inductive DNSReplyCodes
  | timedOut | success
deriving DecidableEq

structure Call where
  query : Nat
  slotId : Nat
  cbData : Nat
  reply : DNSAReply
  code : DNSReplyCodes
deriving DecidableEq

structure Stats where
  requestSentSched : Int := 0
  requestSentWrite : Int := 0
  requestFailed : Int := 0
  requestTimeout : Int := 0
  replyReceivedTotal : Int := 0
  replyReceivedValid : Int := 0
  totalBytesSent : Int := 0
  totalBytesReceived : Int := 0

/-- `EvDNSResolverConf`, without the address of the server. -/
structure EvDNSResolverConf where
  lookupTimeoutMs : Int
  retryTimeoutMs : Int
  retryCount : Int

/-- `EvDNSResolverBase`, the time and the events of its `EvKQBase`, the number
of calls to `sendto` and the callbacks invoked so far. -/
structure EvDNSResolverBase where
  conf : EvDNSResolverConf
  arena : Nat → DNSPendingQuery
  nodes : Heap
  slots : List Nat
  reqList : DList
  replyList : DList
  timer : Bool
  stats : Stats
  curInvokeTv : Timeval
  readEvent : Bool
  writeEvent : Bool
  sends : Nat
  log : List Call

/-- `CommEvDNSResolverBaseNew`. -/
def EvDNSResolverBase.new (conf : EvDNSResolverConf) : EvDNSResolverBase where
  conf := conf
  arena := fun _ => {}
  nodes := fun _ => .null
  slots := List.range' 0 maxSeqId
  reqList := .empty
  replyList := .empty
  timer := true
  stats := {}
  curInvokeTv := {}
  readEvent := false
  writeEvent := false
  sends := 0
  log := []

/-- What a callback may do with the resolver, and a user at any time. -/
inductive UserOp
  | lookup (host : List UInt8) (hasHandler : Bool) (cbData : Nat) (queryX : Int)
  | cancel (reqId : Nat)

structure Env where
  sendto : Nat → Int
  callback : Nat → List UserOp

inductive Fault
  | alreadyInUse | alreadyWaiting | notWaiting
  | queryTooLong  -- a query is packed into its buffer without a check
  | overrun  -- a question of a reply leads out of the stack
  | stuck  -- a loop along a list does not end
deriving DecidableEq

abbrev M := EStateM Fault EvDNSResolverBase

/-- A 64-bit unsigned value, as an `int` is converted to it. -/
def unsignedLong (x : Int) : Int := x % 18446744073709551616

namespace EvDNSResolverBase

def setQuery (s : EvDNSResolverBase) (q : Nat) (f : DNSPendingQuery → DNSPendingQuery) :
    EvDNSResolverBase :=
  { s with arena := Function.update s.arena q (f (s.arena q)) }

/-- `memset` of a query, its node included. -/
def clearQuery (s : EvDNSResolverBase) (q : Nat) : EvDNSResolverBase :=
  { s with arena := Function.update s.arena q {}, nodes := Function.update s.nodes q .null }

/-- `SlotQueueFree`. -/
def slotFree (s : EvDNSResolverBase) (slot : Nat) : EvDNSResolverBase :=
  { s with slots := slot :: s.slots }

def reqAdd (s : EvDNSResolverBase) (q : Nat) : EvDNSResolverBase :=
  { s with reqList := (add s.reqList s.nodes q (some q)).1
           nodes := (add s.reqList s.nodes q (some q)).2 }

def reqAddTail (s : EvDNSResolverBase) (q : Nat) : EvDNSResolverBase :=
  { s with reqList := (addTail s.reqList s.nodes q (some q)).1
           nodes := (addTail s.reqList s.nodes q (some q)).2 }

def reqDelete (s : EvDNSResolverBase) (q : Nat) : EvDNSResolverBase :=
  { s with reqList := (delete s.reqList s.nodes q).1
           nodes := (delete s.reqList s.nodes q).2 }

def replyAddTail (s : EvDNSResolverBase) (q : Nat) : EvDNSResolverBase :=
  { s with replyList := (addTail s.replyList s.nodes q (some q)).1
           nodes := (addTail s.replyList s.nodes q (some q)).2 }

def replyDelete (s : EvDNSResolverBase) (q : Nat) : EvDNSResolverBase :=
  { s with replyList := (delete s.replyList s.nodes q).1
           nodes := (delete s.replyList s.nodes q).2 }

end EvDNSResolverBase

/-- `CommEvDNStvSubMsec`. -/
def tvSubMsec (t1 t2 : Timeval) : Int :=
  (t2.sec - t1.sec) * 1000 + (t2.usec - t1.usec).tdiv 1000

section Functions

variable (env : Env)

/-- `DLinkedListPopHead` of the request list. -/
def reqPopHead : M (Option Nat) :=
  modifyGet fun s =>
    ((popHead s.reqList s.nodes).1,
      { s with reqList := (popHead s.reqList s.nodes).2.1
               nodes := (popHead s.reqList s.nodes).2.2 })

/-- The part of the loop of `CommEvDNSWriteEvent` behind a write that did not fail. -/
def sent (q : Nat) (wrote : Int) : M Unit :=
  modify fun s =>
    ((({ s with stats :=
        { s.stats with requestSentWrite := s.stats.requestSentWrite + 1
                       totalBytesSent := s.stats.totalBytesSent + wrote } }.reqDelete q
      ).replyAddTail q).setQuery q fun p =>
        { p with reqCount := p.reqCount + 1, waitingReply := true })

/-- `sendto`. -/
def sendto : M Int :=
  modifyGet fun s => (env.sendto s.sends, { s with sends := s.sends + 1 })

/-- The loop of `CommEvDNSWriteEvent`, with what the last write returned and the
sum of what they returned. -/
def writeLoop (canWriteSz : Int) : Nat → Int → Int → M Int
  | 0, _, _ => throw .stuck
  | fuel + 1, wrote, total => do
      match ← reqPopHead with
      | none =>
          modify fun s => { s with readEvent := true }
          return total
      | some q =>
          let query := (← get).arena q
          assertThat (!query.waitingReply) .alreadyWaiting
          if unsignedLong canWriteSz < unsignedLong (query.request.length + wrote + 1) then
            modify fun s => { s.reqAdd q with readEvent := true, writeEvent := true }
            return total
          let wrote ← sendto env
          -- compared as unsigned: a failed call counts as a full write
          if unsignedLong wrote < query.request.length then
            modify fun s =>
              { (s.reqAdd q).setQuery q fun p => { p with failCount := p.failCount + 1 } with
                readEvent := true, writeEvent := true }
            return total
          sent q wrote
          writeLoop canWriteSz fuel wrote (total + wrote)

/-- `CommEvDNSWriteEvent`. -/
def writeEvent (canWriteSz : Int) : M Int := writeLoop env canWriteSz (maxSeqId + 1) 0 0

/-- `CommEvDNSGetHostByNameX`. -/
def getHostByNameX (host : List UInt8) (hasHandler : Bool) (cbData : Nat) (queryX : Int) :
    M Int := do
  if !hasHandler then
    modify fun s =>
      { s with stats := { s.stats with requestFailed := s.stats.requestFailed + 1 } }
    return -1
  match (← get).slots with
  | [] =>
      modify fun s =>
        { s with stats := { s.stats with requestFailed := s.stats.requestFailed + 1 } }
      return -1
  | slot :: rest =>
      modify fun s => { s with slots := rest }
      assertThat (!((← get).arena slot).inUse) .alreadyInUse
      let request :=
        if queryX > 0 then Rfc1035.buildAAAAQuery host slot else Rfc1035.buildAQuery host slot
      assertThat (decide (request.length ≤ querySz)) .queryTooLong
      modify fun s =>
        { ((s.clearQuery slot).setQuery slot fun p =>
            { p with inUse := true, hasHandler := hasHandler, cbData := cbData, slotId := slot
                     transmitTv := s.curInvokeTv, retransmitTv := s.curInvokeTv
                     request := request }).reqAddTail slot with
          writeEvent := true }
      if (← get).replyList.head.isSome then
        modify fun s => { s with writeEvent := true }
      else
        let _ ← writeEvent env 8092
      modify fun s =>
        { s with timer := true
                 stats := { s.stats with requestSentSched := s.stats.requestSentSched + 1 } }
      return slot

/-- `CommEvDNSCancelPendingRequest`. -/
def cancelPendingRequest (reqId : Nat) : M Int := do
  let query := (← get).arena reqId
  if !query.inUse then
    return 0
  if query.waitingReply then
    modify fun s => s.setQuery reqId fun p => { p with canceledReq := true }
  else
    modify fun s => ((s.slotFree query.slotId).reqDelete reqId).clearQuery reqId
  return 1

def userOp : UserOp → M Unit
  | .lookup host hasHandler cbData queryX => do
      let _ ← getHostByNameX env host hasHandler cbData queryX
  | .cancel reqId => do
      let _ ← cancelPendingRequest reqId

def userOps : List UserOp → M Unit
  | [] => return ()
  | op :: ops => do
      userOp env op
      userOps ops

def invoke (q : Nat) (reply : DNSAReply) (code : DNSReplyCodes) : M Unit := do
  let s ← get
  let query := s.arena q
  if query.hasHandler && !query.canceledReq then
    let call : Call := ⟨q, query.slotId, query.cbData, reply, code⟩
    set { s with log := s.log ++ [call] }
    userOps env (env.callback s.log.length)

/-- What releases a query that was waiting for a reply. -/
def release (q : Nat) : M Unit :=
  modify fun s => ((s.slotFree (s.arena q).slotId).replyDelete q).clearQuery q

inductive Due
  | timedOut | retransmit | wait

def due (s : EvDNSResolverBase) (query : DNSPendingQuery) : Due :=
  if tvSubMsec query.transmitTv s.curInvokeTv > s.conf.lookupTimeoutMs then .timedOut
  else if tvSubMsec query.retransmitTv s.curInvokeTv > s.conf.retryTimeoutMs then
    if query.reqCount ≤ s.conf.retryCount then .retransmit
    else if !query.canceledReq then .timedOut
    else .wait
  else .wait

/-- The walk of `CommEvDNSPeriodicTimerEvent` from a node on, with the number of
queries it has moved to the request list. -/
def timerWalk : Nat → Option Nat → Nat → M Nat
  | 0, _, _ => throw .stuck
  | _ + 1, none, rxmit => return rxmit
  | fuel + 1, some node, rxmit => do
      let s ← get
      match (s.nodes node).data with
      | none => return rxmit
      | some q =>
          assertThat (s.arena q).waitingReply .notWaiting
          match due s (s.arena q) with
          | .retransmit =>
              set ((((s.setQuery q fun p => { p with retransmitTv := s.curInvokeTv }
                ).replyDelete q).reqAddTail q).setQuery q fun p =>
                  { p with waitingReply := false, reXmit := true })
              -- the node is in another list by now
              timerWalk fuel ((← get).nodes node).next (rxmit + 1)
          | .wait => timerWalk fuel (s.nodes node).next rxmit
          | .timedOut =>
              set { s with stats :=
                { s.stats with requestTimeout := s.stats.requestTimeout + 1 } }
              invoke env q {} .timedOut
              let next := ((← get).nodes node).next
              release q
              timerWalk fuel next rxmit

/-- `CommEvDNSPeriodicTimerEvent`. -/
def periodicTimerEvent : M Unit := do
  modify fun s => { s with timer := false }
  let s ← get
  if s.replyList.head.isSome then
    let rxmit ← timerWalk env (maxSeqId + 1) s.replyList.head 0
    modify fun s => { s with writeEvent := s.writeEvent || decide (rxmit > 0), timer := true }

/-- The entries `CommEvDNSDataEvent` takes from the answers. -/
def entries (replyCount : Int) (answers : List Rfc1035.Rr) : List DNSEntry :=
  ((answers.take replyCount.toNat).take (maxReplyCount - 1)).filterMap fun rr =>
    if rr.type = Rfc1035.typeA then some ⟨rr.ttl, rr.type, rr.rdata.take 4⟩
    else if rr.type = Rfc1035.typeAaaa then some ⟨rr.ttl, rr.type, rr.rdata.take 16⟩
    else none

/-- The buffer of `CommEvDNSDataEvent` after `recv`, and the stack behind it. -/
def replyBuffer (toReadSz : Nat) (data : List UInt8) (stack : Nat → UInt8) : Nat → UInt8 :=
  fun i => if i < toReadSz + 16 then data.getD i 0 else stack i

/-- The id under which `CommEvDNSDataEvent` looks for a query. -/
def replySeqId (u : Rfc1035.Unpacked) : Nat := u.id.getD 0

/-- `CommEvDNSDataEvent` from the parsed reply on. -/
def dispatch (u : Rfc1035.Unpacked) : M Unit := do
  let q := replySeqId u
  let s ← get
  if (s.arena q).inUse then
    if u.replyCount < 0 then
      invoke env q { ipCount := u.replyCount } .success
    else
      let ipArr := entries u.replyCount u.records
      set { s with stats :=
        { s.stats with replyReceivedValid := s.stats.replyReceivedValid + 1 } }
      invoke env q { ipCount := ipArr.length, ipArr := ipArr } .success
    release q

/-- `CommEvDNSDataEvent`; `none` is a failed `recv`. -/
def dataEvent (toReadSz : Nat) (received : Option (List UInt8)) (stack : Nat → UInt8) :
    M Unit := do
  match received with
  | none => modify fun s => { s with readEvent := true }
  | some data =>
      modify fun s => { s with stats :=
        { s.stats with replyReceivedTotal := s.stats.replyReceivedTotal + 1
                       totalBytesReceived := s.stats.totalBytesReceived + data.length } }
      match Rfc1035.answersUnpack (replyBuffer toReadSz data stack) data.length with
      | none => throw .overrun
      | some u =>
          dispatch env u
          modify fun s => { s with readEvent := true }

end Functions

/-- What the event loop and the user do with the resolver. -/
inductive Event
  | user (op : UserOp)
  | write (canWriteSz : Int)
  | data (toReadSz : Nat) (received : Option (List UInt8)) (stack : Nat → UInt8)
  | tick

def event (env : Env) : Event → M Unit
  | .user op => userOp env op
  | .write canWriteSz => do
      modify fun s => { s with writeEvent := false }
      let _ ← writeEvent env canWriteSz
  | .data toReadSz received stack => do
      modify fun s => { s with readEvent := false }
      dataEvent env toReadSz received stack
  | .tick => periodicTimerEvent env

def handle (env : Env) (e : Timeval × Event) : M Unit := do
  modify fun s => { s with curInvokeTv := e.1 }
  event env e.2

abbrev Config := Runs.Config Fault EvDNSResolverBase

def runFrom (env : Env) (conf : EvDNSResolverConf) (evs : List (Timeval × Event)) : Config :=
  Runs.run (handle env) (.live (.new conf)) evs

end Dns
