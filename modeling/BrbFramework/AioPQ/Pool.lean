import BrbFramework.Lib.Runs
import BrbFramework.Data.MemSlot

/-!
# The AIOPQ client pool

Queries accepted by `sendReq` wait in the REQUEST list of a slot pool until a
pooled PostgreSQL client takes them to the REPLY list. They go out on two
paths: at once from `sendReq`, or later from the dispatch timer, and the flag
`pqbufferPending` keeps the first path shut while the second has work.

libpq, the kernel and the user's result callbacks are an oracle: `env n` is the
`n`-th answer, read at `clock`. Every C function that asks takes one answer
for all the calls it makes itself. The `log` collects what the pool did, oldest
first; no handler reads it.
-/

namespace EvAIOPQ

open Handler BrbData

/-! ## Answers from outside the pool -/

/-- `ConnStatusType` as `PQstatus` returns it. -/
inductive ConnStatus
  | started | made | awaitingResponse | authOk | sslStartup | setenv | bad | ok
  | unknown
  deriving DecidableEq, Repr

/-- `PostgresPollingStatusType`. -/
inductive PollingStatus
  | failed | reading | writing | ok | active
  deriving DecidableEq, Repr

/-- The error `getsockopt(SO_ERROR)` leaves, when the call itself succeeds. -/
inductive SockError
  | none | inProgress | wouldBlock | already | intr | connRefused | other
  deriving DecidableEq, Repr

/-- What user code may ask of the pool, also from inside a result callback. -/
inductive UserCall
  | sendReq (sqlQuery : Option String) (hasCb : Bool) (ownerId : Int)
  | cancelByOwnerID (ownerId : Int)
  | cancelByReqID (queryId : Int)
  deriving DecidableEq, Repr

structure Answer where
  /-- `PQsocket`. -/
  socket : Int := 3
  /-- `PQstatus`. -/
  connStatus : ConnStatus := .ok
  /-- `PQconnectPoll`. -/
  polling : PollingStatus := .ok
  /-- `PQisBusy`. -/
  isBusy : Bool := false
  /-- `PQconsumeInput`. -/
  consumeInput : Bool := true
  /-- `PQsendQuery`. -/
  sendQuery : Bool := true
  /-- `PQflush`. -/
  flush : Int := 0
  /-- `getsockopt`; `none` when the call fails. -/
  sockError : Option SockError := some .none
  /-- The id of a new timer; `none` when `EvKQBaseTimerAdd` fails. -/
  timer : Option Nat := some 0
  /-- `stats.cur_invoke_tv.tv_sec`. -/
  now : Int := 0
  /-- What the result callback calls while it runs. -/
  callback : List UserCall := []

/-! ## State -/

inductive ClientState
  | uninitialized | connecting | disconnected
  deriving DecidableEq, Repr

structure EvAIOPQClient where
  aiopqReq : Option Nat := none
  pqState : ClientState := .uninitialized
  cliId : Nat := 0
  lastGrabTs : Int := 0
  online : Bool := false
  busy : Bool := false
  flushNeed : Bool := false
  flushFailed : Bool := false
  deriving DecidableEq, Repr

/-- A request. `serial` numbers the accepted requests and is read by no
handler. -/
structure EvAIOPQRequest where
  sqlQueryMb : Option String := none
  hasCb : Bool := false
  parentCli : Option Nat := none
  ownerId : Int := 0
  reqId : Nat := 0
  inUse : Bool := false
  sent : Bool := false
  cancelled : Bool := false
  cbCalled : Bool := false
  serial : Nat := 0
  deriving DecidableEq, Repr

/-- `AIOPQ_QUERYLIST_REQUEST`. -/
abbrev queryListRequest : Nat := 0

/-- `AIOPQ_QUERYLIST_REPLY`. -/
abbrev queryListReply : Nat := 1

def maxFailBeforeDelay : Nat := 16

def decreaseCliDeltaTime : Int := 5

inductive Obs
  /-- `sendReq` accepted the request with this serial. -/
  | accepted (serial : Nat)
  /-- `PQsendQuery` took the request. -/
  | sent (serial : Nat)
  /-- The result callback of the request was invoked. -/
  | called (serial : Nat)
  /-- `clientEventClose` ran on a client, with or without a request attached. -/
  | closed (cli : Nat) (attached : Bool)
  /-- The poll of `clientGrabFree` found the client ready for a query. -/
  | ready (cli : Nat) (online : Bool)
  /-- `clientGrabFree` hands the client out for dispatch. -/
  | selected (cli : Nat) (online busy attached : Bool)
  /-- `PQsendQuery` refused a query on the immediate path. -/
  | immediateFailed (serial : Nat)
  /-- The dispatch timer could not be added. -/
  | timerFailed
  deriving DecidableEq, Repr

/-- Failed assertions and null calls, and a loop that has not ended yet. -/
inductive Fault
  | socketMismatch (cli : Nat)
  | clientOffline (cli : Nat)
  | clientBusy (cli : Nat)
  | requestAttached (cli : Nat)
  | replyNotBusy (cli : Nat)
  | flushStatus (cli : Nat)
  | zeroDescriptor (cli : Nat)
  | nullCallback (req : Nat)
  | slotInUse (req : Nat)
  | requestNotInUse (queryId : Int)
  | requestCancelled (queryId : Int)
  | running
  deriving DecidableEq, Repr

structure EvAIOPQBase where
  clients : Nat → EvAIOPQClient
  healthTimerId : Int
  -- `pending`
  reqslot : MemSlotBase EvAIOPQRequest
  countMax : Nat
  countCur : Nat
  countFail : Nat
  countCancel : Nat
  countCancelNotified : Nat
  countSuccess : Nat
  countTotal : Nat
  timerId : Int
  -- `pqclient`
  cliCountBegin : Nat
  cliCountMax : Nat
  cliCountGrow : Nat
  cliCountCur : Nat
  cliCountReady : Nat
  cliCountBusy : Nat
  decreaseTimerId : Int
  -- `flags`
  pqbufferPending : Bool
  canceledNotify : Bool
  -- the environment's clock and the history
  clock : Nat
  log : List Obs

abbrev M := EStateM Fault EvAIOPQBase

namespace EvAIOPQBase

def request (s : EvAIOPQBase) (slot : Nat) : EvAIOPQRequest := s.reqslot.slotData slot

def requests (s : EvAIOPQBase) : List Nat := s.reqslot.list queryListRequest

def replies (s : EvAIOPQBase) : List Nat := s.reqslot.list queryListReply

def note (s : EvAIOPQBase) (o : Obs) : EvAIOPQBase := { s with log := s.log ++ [o] }

def setClient (s : EvAIOPQBase) (cli : Nat) (f : EvAIOPQClient → EvAIOPQClient) :
    EvAIOPQBase :=
  { s with clients := Function.update s.clients cli (f (s.clients cli)) }

def setRequest (s : EvAIOPQBase) (slot : Nat) (f : EvAIOPQRequest → EvAIOPQRequest) :
    EvAIOPQBase :=
  { s with reqslot := s.reqslot.modifyData slot f }

/-- `AIOPQCLIENT_MARK_ONLINE`. -/
def markOnline (s : EvAIOPQBase) (cli : Nat) : EvAIOPQBase :=
  if (s.clients cli).online then s
  else { s.setClient cli fun c => { c with online := true } with
    cliCountReady := s.cliCountReady + 1 }

/-- `AIOPQCLIENT_MARK_OFFLINE`. -/
def markOffline (s : EvAIOPQBase) (cli : Nat) : EvAIOPQBase :=
  if (s.clients cli).online then
    { s.setClient cli fun c => { c with online := false, busy := false } with
      cliCountReady := s.cliCountReady - 1 }
  else s

/-- A request that `PQsendQuery` took moves to the REPLY list and is attached
to its client. -/
def attach (s : EvAIOPQBase) (cli req : Nat) : EvAIOPQBase :=
  let s := { s with reqslot :=
    s.reqslot.slotListIDSwitch (s.request req).reqId queryListReply }
  let s := s.setRequest req fun r => { r with sent := true }
  let s := s.setClient cli fun c => { c with aiopqReq := some req, busy := true }
  ({ s with cliCountBusy := s.cliCountBusy + 1 }).note (.sent (s.request req).serial)

def detach (s : EvAIOPQBase) (cli req : Nat) : EvAIOPQBase :=
  let s := s.setClient cli fun c =>
    { c with aiopqReq := none, busy := false, flushNeed := false, flushFailed := false }
  let s := { s with cliCountBusy := s.cliCountBusy - 1, countCur := s.countCur - 1 }
  if (s.request req).cancelled then
    { s with countCancelNotified := s.countCancelNotified + 1 }
  else
    { s with countSuccess := s.countSuccess + 1 }

/-- `EvAIOPQRequestDestroy`. -/
def requestDestroy (s : EvAIOPQBase) (req : Nat) : EvAIOPQBase :=
  let s := s.setRequest req fun r => { r with sqlQueryMb := none, inUse := false }
  { s with reqslot := s.reqslot.slotFree req }

end EvAIOPQBase

/-! ## Handlers -/

section Handlers

variable (env : Nat → Answer)

def ask : M Answer :=
  modifyGet fun s => (env s.clock, { s with clock := s.clock + 1 })

def note (o : Obs) : M Unit := modify fun s => s.note o

/-- `EvKQBaseTimerAdd`. -/
def timerAdd : M Int := do
  match (← ask env).timer with
  | some n => return n
  | none => return -1

/-- `EvAIOPQSocketClose` touches the descriptor table only, so what is left of
a close is the flags. -/
def clientEventClose (cli : Nat) (fd : Int) : M Unit := do
  let a ← ask env
  assertThat (a.socket == fd) (.socketMismatch cli)
  modify fun s =>
    (s.markOffline cli).note (.closed cli (s.clients cli).aiopqReq.isSome)

def clientCheckConnReady : M Bool := do
  match (← ask env).connStatus with
  | .ok => return true
  | _ => return false

def clientCheckPollingStatus (cli : Nat) : M Bool := do
  let a ← ask env
  if !(← clientCheckConnReady env) then
    clientEventClose env cli a.socket
    modify fun s => s.markOffline cli
    return false
  match a.polling with
  | .ok => return !a.isBusy
  | _ => return false

def clientConnect (cli : Nat) : M Unit := do
  modify fun s => s.setClient cli fun c => { c with pqState := .connecting, cliId := cli }
  if ← clientCheckPollingStatus env cli then
    modify fun s => s.markOnline cli

def connectFrom : Nat → Nat → M Unit
  | _, 0 => return
  | cli, n + 1 => do
      clientConnect env cli
      connectFrom (cli + 1) n

/-- The loop of `EvAIOPQBaseClientPoolInitN`, which counts every client after
it was connected. -/
def growFrom : Nat → Nat → M Unit
  | _, 0 => return
  | cli, n + 1 => do
      clientConnect env cli
      modify fun s => { s with cliCountCur := s.cliCountCur + 1 }
      growFrom (cli + 1) n

def baseClientPoolInitN (clientCount : Nat) : M Unit := do
  let s ← get
  let cliIdStart := s.cliCountCur
  let cliIdEnd := min (s.cliCountCur + clientCount) s.cliCountMax
  if s.decreaseTimerId == -1 then
    let id ← timerAdd env
    modify fun s => { s with decreaseTimerId := id }
  growFrom env cliIdStart (cliIdEnd - cliIdStart)

def baseClientPoolInitBegin : M Unit := do
  let s ← get
  connectFrom env 0 s.cliCountBegin
  modify fun s => { s with cliCountCur := s.cliCountBegin }

/-- One round of the search in `EvAIOPQClientGrabFree`: the first client that
is not busy, polls ready and has a socket. -/
def searchFree : Nat → Nat → M (Option Nat)
  | _, 0 => return none
  | cli, n + 1 => do
      let s ← get
      if (s.clients cli).busy then
        searchFree (cli + 1) n
      else if !(← clientCheckPollingStatus env cli) then
        searchFree (cli + 1) n
      else
        let a ← ask env
        if a.socket == 0 then
          searchFree (cli + 1) n
        else
          modify fun s =>
            let c := s.clients cli
            ((s.note (.ready cli c.online)).note
              (.selected cli c.online c.busy c.aiopqReq.isSome)).setClient cli
                fun c => { c with lastGrabTs := a.now }
          return some cli

/-- `search_again`, with the tries that `retry_count` still allows. The closing
assertion compares the unsigned `count_ready` with zero. -/
def searchAgain : Nat → M (Option Nat)
  | 0 => return none
  | tries + 1 => do
      let s ← get
      match ← searchFree env 0 s.cliCountCur with
      | some cli => return some cli
      | none =>
          let s ← get
          if s.cliCountCur < s.cliCountMax then
            baseClientPoolInitN env s.cliCountGrow
            searchAgain tries
          else
            return none

def clientGrabFree (outstandingFlag : Bool) : M (Option Nat) := do
  let s ← get
  if !outstandingFlag && s.pqbufferPending then
    return none
  searchAgain env 2

def clientFlushBegin (cli : Nat) : M Unit :=
  modify fun s => s.setClient cli fun c => { c with flushNeed := true }

/-- Attaches a request that `PQsendQuery` took to its client. -/
def attach (cli req : Nat) : M Unit := modify fun s => s.attach cli req

def requestNew (sqlQuery : String) (hasCb : Bool) (ownerId : Int) :
    M (Option Nat) := do
  let s ← get
  match s.reqslot.slotGrab with
  | none => return none
  | some (req, reqslot) => do
      set { s with reqslot := reqslot }
      assertThat (!(s.request req).inUse) (.slotInUse req)
      modify fun s => s.setRequest req fun _ =>
        { sqlQueryMb := some sqlQuery, hasCb := hasCb, ownerId := ownerId
          reqId := s.reqslot.slotGetID req, inUse := true, serial := s.countTotal }
      return some req

def requestEnqueue (sqlQuery : String) (hasCb : Bool) (ownerId : Int) :
    M (Option Nat) := do
  let s ← get
  if s.reqslot.slotListSizeAll ≥ s.countMax then
    return none
  requestNew sqlQuery hasCb ownerId

def requestDestroy (req : Nat) : M Unit := modify fun s => s.requestDestroy req

def armTimer : M Unit := do
  let s ← get
  if s.timerId < 0 then
    let id ← timerAdd env
    modify fun s => { s with timerId := id }
    if id < 0 then
      note .timerFailed

/-- The three assertions on a client that was selected for dispatch. -/
def assertSelected (cli : Nat) : M Unit := do
  let s ← get
  assertThat (s.clients cli).online (.clientOffline cli)
  assertThat (!(s.clients cli).busy) (.clientBusy cli)
  assertThat (s.clients cli).aiopqReq.isNone (.requestAttached cli)

def sendReq (sqlQuery : Option String) (hasCb : Bool) (ownerId : Int) :
    M (Option Nat) := do
  match sqlQuery with
  | none => return none
  | some sqlQuery =>
      match ← requestEnqueue sqlQuery hasCb ownerId with
      | none => return none
      | some req =>
          modify fun s =>
            { s.note (.accepted (s.request req).serial) with
              countCur := s.countCur + 1
              countTotal := s.countTotal + 1 }
          match ← clientGrabFree env false with
          | none =>
              armTimer env
              modify fun s => { s with pqbufferPending := true }
              return some req
          | some cli =>
              assertSelected cli
              let a ← ask env
              if !a.sendQuery then
                modify fun s =>
                  { s.note (.immediateFailed (s.request req).serial) with
                    pqbufferPending := true }
                return some req
              attach cli req
              if a.flush != 0 then
                clientFlushBegin cli
              return some req

def cancelOwner (ownerId : Int) : List Nat → M Nat
  | [] => return 0
  | req :: reqs => do
      let s ← get
      if !(s.request req).cbCalled && (s.request req).ownerId == ownerId then
        modify fun s => s.setRequest req fun r => { r with cancelled := true }
        return (← cancelOwner ownerId reqs) + 1
      else
        cancelOwner ownerId reqs

def queryCancelByOwnerID (ownerId : Int) : M Nat := do
  let s ← get
  let m ← cancelOwner ownerId s.requests
  let n ← cancelOwner ownerId s.replies
  return m + n

def queryCancelByReqID (queryId : Int) : M Nat := do
  if queryId < 0 then
    return 0
  let s ← get
  assertThat (s.request queryId.toNat).inUse (.requestNotInUse queryId)
  assertThat (!(s.request queryId.toNat).cancelled) (.requestCancelled queryId)
  modify fun s => s.setRequest queryId.toNat fun r => { r with cancelled := true }
  return 1

def userCall : UserCall → M Unit
  | .sendReq sqlQuery hasCb ownerId => do
      let _ ← sendReq env sqlQuery hasCb ownerId
  | .cancelByOwnerID ownerId => do
      let _ ← queryCancelByOwnerID ownerId
  | .cancelByReqID queryId => do
      let _ ← queryCancelByReqID queryId

def userCalls : List UserCall → M Unit
  | [] => return
  | u :: us => do
      userCall env u
      userCalls us

def invokeCb (req : Nat) : M Unit := do
  let s ← get
  assertThat (s.request req).hasCb (.nullCallback req)
  modify fun s => (s.setRequest req fun r => { r with cbCalled := true }).note
    (.called (s.request req).serial)
  let a ← ask env
  userCalls env a.callback

def clientCheckSocketConnState : M (Option SockError) :=
  return (← ask env).sockError

/-- `getsockopt` says connected or connecting. -/
def sockAlive : Option SockError → Bool
  | some .none => true
  | some .inProgress | some .wouldBlock | some .already | some .intr => true
  | some .connRefused | some .other | none => false

def clientCheckConnHealthCheck (cli : Nat) : M Unit := do
  let a ← ask env
  let sockState ← clientCheckSocketConnState env
  if !sockAlive sockState then
    clientEventClose env cli a.socket
  else if !(← clientCheckConnReady env) then
    clientEventClose env cli a.socket
  else
    modify fun s => s.markOnline cli

def healthFrom : Nat → Nat → M Unit
  | _, 0 => return
  | cli, n + 1 => do
      clientCheckConnHealthCheck env cli
      healthFrom (cli + 1) n

def clientCheckConnHealthTimer : M Unit := do
  let s ← get
  healthFrom env 0 s.cliCountCur

/-- The end of `EvAIOPQClientEventRead`, once the reply is complete. -/
def invokeAndLeave (cli req : Nat) : M Unit := do
  let s ← get
  if (s.request req).hasCb then
    if s.canceledNotify || !(s.request req).cancelled then
      invokeCb env req
  let s ← get
  assertThat (s.clients cli).busy (.replyNotBusy cli)
  modify fun s => s.detach cli req
  requestDestroy req

def clientEventRead (cli : Nat) : M Unit := do
  let s ← get
  match (s.clients cli).aiopqReq with
  | none => return
  | some req =>
      let a ← ask env
      if a.consumeInput && a.isBusy then
        return
      invokeAndLeave env cli req

def clientFlushDispatch (cli : Nat) : M Bool := do
  let a ← ask env
  if a.flush == -1 then
    modify fun s => s.setClient cli fun c => { c with flushFailed := true }
    return false
  else if a.flush == 0 then
    modify fun s => s.setClient cli fun c => { c with flushNeed := false }
    return true
  else if a.flush == 1 then
    return false
  else
    throw (.flushStatus cli)

/-- The assertion of `EvAIOPQClientEventWrite` assigns, so it fails on
descriptor zero only. -/
def clientEventWrite (cli : Nat) (fd canWriteSz : Int) : M Unit := do
  if canWriteSz < 0 then
    return
  assertThat (fd != 0) (.zeroDescriptor cli)
  let _ ← clientFlushDispatch env cli

def bufferDispatch : M Bool := do
  let s ← get
  match s.reqslot.slotPointToHead queryListRequest with
  | none => return false
  | some req =>
      match ← clientGrabFree env true with
      | none => return false
      | some cli =>
          let s ← get
          if (s.request req).cancelled then
            modify fun s =>
              { s with countCancel := s.countCancel + 1, countCur := s.countCur - 1 }
            if s.canceledNotify then
              modify fun s => s.setClient cli fun c => { c with aiopqReq := some req }
              invokeCb env req
              modify fun s => s.setClient cli fun c => { c with aiopqReq := none }
            requestDestroy req
            return true
          assertSelected cli
          modify fun s => s.setRequest req fun r => { r with parentCli := some cli }
          let a ← ask env
          if !a.sendQuery then
            return false
          attach cli req
          if a.flush != 0 then
            clientFlushBegin cli
          return true

/-- The `while (1)` of the timer tick, stopped after `fuel` rounds; callbacks
may keep it going for ever. -/
def dispatchLoop : Nat → M Nat
  | 0 => throw .running
  | fuel + 1 => do
      if !(← bufferDispatch env) then
        return 0
      return (← dispatchLoop fuel) + 1

def bufferedRequestTimerTick (fuel : Nat) : M Unit := do
  modify fun s => { s with timerId := -1 }
  let s ← get
  if s.reqslot.isEmptyList queryListRequest then
    modify fun s => { s with pqbufferPending := false }
    return
  let dispatchCount ← dispatchLoop env fuel
  modify fun s =>
    { s with countFail := if dispatchCount == 0 then s.countFail + 1 else 0 }
  armTimer env

def checkDecreasePQCliTimer : M Unit := do
  modify fun s => { s with decreaseTimerId := -1 }
  let s ← get
  if s.cliCountCur ≤ s.cliCountBegin then
    return
  let cli := s.cliCountCur - 1
  if !(s.clients cli).busy then
    let a ← ask env
    if a.now - (s.clients cli).lastGrabTs ≥ decreaseCliDeltaTime then
      modify fun s =>
        { (s.markOffline cli).setClient cli fun c => { c with pqState := .disconnected }
          with cliCountCur := s.cliCountCur - 1 }
  let s ← get
  if s.decreaseTimerId < 0 then
    let id ← timerAdd env
    modify fun s => { s with decreaseTimerId := id }

/-! ## Events -/

inductive Event
  | user (u : UserCall)
  | dispatchTick (fuel : Nat)
  | healthTick
  | decreaseTick
  | readReady (cli : Nat)
  | writeReady (cli : Nat) (fd canWriteSz : Int)
  | eof (cli : Nat) (fd : Int)
  deriving DecidableEq, Repr

/-- Delivers an event of a client's descriptor; a client that has left the pool
has none. -/
def onClient (cli : Nat) (x : M Unit) : M Unit := do
  let s ← get
  if cli < s.cliCountCur then x

def handle : Event → M Unit
  | .user u => userCall env u
  | .dispatchTick fuel => do
      let s ← get
      if 0 ≤ s.timerId then bufferedRequestTimerTick env fuel
  | .healthTick => clientCheckConnHealthTimer env
  | .decreaseTick => do
      let s ← get
      if 0 ≤ s.decreaseTimerId then checkDecreasePQCliTimer env
  | .readReady cli => onClient cli (clientEventRead env cli)
  | .writeReady cli fd canWriteSz => onClient cli (clientEventWrite env cli fd canWriteSz)
  | .eof cli fd => onClient cli (clientEventClose env cli fd)

end Handlers

/-! ## A freshly opened pool -/

structure EvAIOPQBaseConf where
  countMax : Nat := 8
  cliCountBegin : Nat := 1
  cliCountMax : Nat := 1
  cliCountGrow : Nat := 1
  canceledNotify : Bool := false

/-- `EvAIOPQBaseNew` before the first clients are connected. -/
def baseNew (conf : EvAIOPQBaseConf) : EvAIOPQBase where
  clients := fun _ => {}
  healthTimerId := -1
  reqslot := MemSlotBase.init {} (conf.countMax + 2)
  countMax := conf.countMax
  countCur := 0
  countFail := 0
  countCancel := 0
  countCancelNotified := 0
  countSuccess := 0
  countTotal := 0
  timerId := -1
  cliCountBegin := conf.cliCountBegin
  cliCountMax := conf.cliCountMax
  cliCountGrow := conf.cliCountGrow
  cliCountCur := 0
  cliCountReady := 0
  cliCountBusy := 0
  decreaseTimerId := -1
  pqbufferPending := false
  canceledNotify := conf.canceledNotify
  clock := 0
  log := []

def baseOpen (env : Nat → Answer) : M Unit := do
  let id ← timerAdd env
  modify fun s => { s with healthTimerId := id }
  baseClientPoolInitBegin env

abbrev Config := Runs.Config Fault EvAIOPQBase

/-- The pool after `EvAIOPQBaseNew`. -/
def opened (env : Nat → Answer) (conf : EvAIOPQBaseConf) : Config :=
  ⟨(exec (baseOpen env) (baseNew conf)).1, (exec (baseOpen env) (baseNew conf)).2⟩

/-- The pool after `EvAIOPQBaseNew` and a sequence of events. -/
def runFrom (env : Nat → Answer) (conf : EvAIOPQBaseConf) (evs : List Event) : Config :=
  Runs.run (handle env) (opened env conf) evs

end EvAIOPQ
