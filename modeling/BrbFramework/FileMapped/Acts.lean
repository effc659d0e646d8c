import Mathlib.Logic.Relation
import BrbFramework.FileMapped.Loop

/-!
# What the store can do

Every handler of the store is a path of a few atomic acts. `Calm` acts touch
the pages, the bitmap, the data file and what nobody counts; the other acts take
and give holds, move requests, AIO states and metadata, or open and close the
files.

Between two acts of one handler the store is not in a state the event loop sees,
and `Mode` says what is under way. A synchronously failed submission or a lost
request may leave an AIO state that waits for a request nobody has; the log says
so, and acts that only this makes possible ask for it.
-/

namespace FileMapped

open Relation BrbData Machine

/-- What a handler has begun and not yet finished. -/
structure Mode where
  /-- Finish callbacks and cancellations that did not give their hold back yet. -/
  held : Nat := 0
  /-- The last hold is gone, the store not yet cleaned. -/
  dying : Bool := false
  /-- The request whose finish callback has begun, until it is checked off. -/
  settling : Option EvAIOReq := none
  /-- An update of a metadata file that neither waits nor is issued. -/
  asked : Option Data := none
  /-- A close whose metadata write is not issued. -/
  closing : Bool := false
  /-- The AIO state that is being filled. -/
  building : Option Nat := none
  /-- Requests issued for AIO states and not yet on their pending lists. -/
  unrecorded : List (Engine × Nat) := []
  /-- An abandoned AIO state, with the ids left to cancel. -/
  dropped : Option (Nat × List Int) := none
  /-- A load that failed half way, after which nothing happens to the store. -/
  aborted : Bool := false
  /-- The AIO state whose last request is checked off, until it is finished. -/
  done : Option Nat := none
  deriving DecidableEq, Repr

/-- Where user calls happen: nothing but callbacks is under way. -/
def Mode.calls (held : Nat) : Mode := { held := held }

def Mode.idle : Mode := {}

abbrev Point := EvKQFileMapped × Mode

/-! ## What the log says -/

/-- The call cancels the callbacks of AIO states. -/
def UserCall.cancels : UserCall → Bool
  | .cancelByAIOReqID _ | .cancelAllByOwner _ => true
  | _ => false

def UserCall.releases : UserCall → Bool
  | .unlock | .clean | .destroy => true
  | _ => false

def UserCall.completes : UserCall → Bool
  | .completed | .checkLastBlock _ => true
  | _ => false

def Called (kind : UserCall → Bool) (log : List Obs) : Prop :=
  ∃ c, kind c = true ∧ Obs.call c ∈ log

/-- A request called back before it was recorded, or will never call back. -/
def Wild (log : List Obs) : Prop :=
  ∃ r, Obs.failedNotified r ∈ log ∨ Obs.lost r ∈ log

/-- A read that the kernel did at once is recorded under the id 0. -/
def Misread (log : List Obs) : Prop :=
  ∃ r others, Obs.issued r others ∈ log ∧ r.finishCb = .readRawData ∧ r.queued = false ∧ r.id ≠ 0

/-- A pending list may hold an id that stands for no request. -/
def Astray (log : List Obs) : Prop :=
  Wild log ∨ Misread log ∨ ∃ serial, Obs.phantom serial ∈ log

def Refused (log : List Obs) : Prop :=
  ∃ cb closing again, Obs.metaRefused cb closing again ∈ log

/-- A hold was taken for a request that was not issued. -/
def Leaky (log : List Obs) : Prop :=
  ∃ r, Obs.lost r ∈ log ∨ (Obs.canceledAtSubmit r ∈ log ∧ r.finishCb = .genericUnlock)

section Logs

variable {log log' : List Obs}

theorem Called.mono {kind : UserCall → Bool} (h : Called kind log) (hsub : log ⊆ log') :
    Called kind log' := by
  obtain ⟨c, hkind, hc⟩ := h
  exact ⟨c, hkind, hsub hc⟩

theorem Wild.mono (h : Wild log) (hsub : log ⊆ log') : Wild log' := by
  obtain ⟨r, h⟩ := h
  exact ⟨r, h.imp (fun h => hsub h) fun h => hsub h⟩

theorem Refused.mono (h : Refused log) (hsub : log ⊆ log') : Refused log' := by
  obtain ⟨cb, closing, again, h⟩ := h
  exact ⟨cb, closing, again, hsub h⟩

end Logs

/-- Bytes of a write the store was asked for, at their place in the file. -/
def Slice (log : List Obs) (off : Nat) (bytes : List UInt8) : Prop :=
  ∃ data offset k, Obs.wrote data offset ∈ log ∧ k + bytes.length ≤ data.length ∧
    bytes = (data.drop k).take bytes.length ∧ off = offset + k

/-! ## Calm acts -/

/-- The size of a page is the one of the configuration, which a loaded store takes
from its metadata file without a check. -/
def Plain (s : EvKQFileMapped) : Prop := s.byLoad = false ∧ 0 < s.pageSz

/-- Where the bytes of a write of the data file come from. -/
inductive Sourced (s : EvKQFileMapped) (r : EvAIOReq) : Prop
  | bytes (l : List UInt8) (hslice : Plain s → Slice s.log r.offset l) (hdata : r.data = .bytes l)
      (hsize : r.size = l.length)
      (halign : Plain s → r.offset % s.pageSz = 0 ∨ l.length < s.pageSz)
  | page (p : PagePart) (hp : p ∈ s.partialMbList) (hdata : r.data = .page p.mb p.buf.moved)
      (hsize : r.size = s.pageSz) (blockIdx : Nat) (hoff : r.offset = blockIdx * s.pageSz)
      (hidx : p.userInt = int32 blockIdx) (hfull : s.pageSz ≤ p.buf.getSize - p.userLong)

/-- What a request that is no metadata write is issued for. -/
inductive Purpose (s : EvKQFileMapped) (r : EvAIOReq) : Prop
  | write (hcb : r.finishCb = .writeRawData) (hsrc : Sourced s r)
  | complete (hcb : r.finishCb = .genericUnlock) (hlog : Called (·.completes) s.log)
  | read (hcb : r.finishCb = .readRawData)
  | load (hcb : r.finishCb = .readMetaData ∨ r.finishCb = .readMetaAuxData)
      (hload : s.byLoad = true)

/-- The finish callback of `r` sets the bit of block `i`. -/
def Marks (pageSz : Nat) (r : EvAIOReq) (i : Int) : Prop :=
  r.finishCb = .writeRawData ∧ i < ((r.offset + r.size.toNat) / pageSz : Nat) ∧
    ∃ j < r.size.toNat / pageSz, i = int32 (r.offset / pageSz + j : Nat)

/-- Observations about calls and pages, and submissions that issued nothing. -/
def Obs.calm : Obs → Bool
  | .call _ | .wrote .. | .merged .. | .canceledAtSubmit _ | .phantom _ => true
  | _ => false

/-- A page after a piece of data was stored into it. -/
def PagePart.store (p : PagePart) (userLong : Nat) (blockIdx relOffset : Nat)
    (data : List UInt8) : PagePart :=
  { p with userLong := userLong, userInt := int32 blockIdx, buf := p.buf.offsetWrite relOffset data }

/-- The offset that a page has after a piece was stored into it. -/
inductive Placed (log : List Obs) (p : PagePart) (dataSz relOffset : Nat) : Nat → Prop
  | first (hsize : p.buf.size = 0) (hlong : p.userLong = relOffset) :
      Placed log p dataSz relOffset relOffset
  | merged (hskip : skipPiece p dataSz relOffset = false)
      (hlog : Obs.merged relOffset p.buf.getSize ∈ log) :
      Placed log p dataSz relOffset
        (if relOffset > p.userLong then p.userLong else relOffset)

/-- An act on pages, the bitmap and the data file, or on what nobody counts. -/
inductive Calm (m : Mode) : EvKQFileMapped → EvKQFileMapped → Prop
  | quiet {s : EvKQFileMapped} {clock curOffset : Nat} {loadAiostate : Option Nat}
      {dataFd metaFd fdAux pendingRawWrite : Int}
      {pathAux paths complete destroyed loading metaAuxFile freed : Bool} :
      Calm m s { s with
        clock := clock, curOffset := curOffset, loadAiostate := loadAiostate
        dataFd := dataFd, metaFd := metaFd, fdAux := fdAux, pathAux := pathAux, paths := paths
        pendingRawWrite := pendingRawWrite, complete := complete, destroyed := destroyed
        loading := loading, metaAuxFile := metaAuxFile, freed := freed }
  | wants (s) (b : Bool) (h : b = true → Called (·.completes) s.log) :
      Calm m s { s with wantsComplete := b }
  | note (s) (o : Obs) (ho : o.calm = true) : Calm m s (s.note o)
  | spend (s) (r : EvAIOReq) (h : s.threadedAio = false) (hpurpose : Purpose s r) :
      Calm m s ((s.execute r []).note (.lost r))
  | tweak (s) (f : EvAIOReq → EvAIOReq)
      (hf : ∀ r, ∃ q d, f r = { r with queued := q, delayedNotify := d }) :
      Calm m s { s with aio := s.aio.map f }
  | perform {s r} (garbage : List UInt8) (hmem : r ∈ s.aio) (hnot : r.performed = false) :
      Calm m s ((s.execute r garbage).setReq r.engine r.id fun q => { q with performed := true })
  | page (s) (blockIdx relOffset : Nat) (h : ∃ data offset, Obs.wrote data offset ∈ s.log) :
      Calm m s { s with
        partialMbList := { mb := s.nextMb, userInt := int32 blockIdx, userLong := relOffset
                           buf := .new s.pageSz } :: s.partialMbList
        nextMb := s.nextMb + 1 }
  | store {s p} {userLong blockIdx relOffset : Nat} {data : List UInt8}
      (hp : p ∈ s.partialMbList) (hidx : p.userInt = int32 blockIdx)
      (hslice : Plain s → Slice s.log (blockIdx * s.pageSz + relOffset) data)
      (hfit : Plain s → relOffset + data.length ≤ s.pageSz) (hne : data ≠ [])
      (hplace : Placed s.log p data.length relOffset userLong) :
      Calm m s ({ s with partialMbList := s.partialMbList.map fun (q : PagePart) =>
        if q.mb = p.mb then p.store userLong blockIdx relOffset data else q }.note
          (.stored p.mb s.aio))
  | drop {s p r} (hp : p ∈ s.partialMbList) (hr : m.settling = some r)
      (hmarks : Marks s.pageSz r p.userInt) :
      Calm m s ({ s with partialMbList := s.partialMbList.filter fun q => q.mb != p.mb }.note
        (.dropped p.mb s.aio))
  | bit {s b} {i : Int} (hb : s.bitmap = some b) (hi : 0 ≤ i)
      (h : (∃ r, m.settling = some r ∧ Marks s.pageSz r i) ∨ Called (·.completes) s.log) :
      Calm m s { s with bitmap := some (b.bitSet i.toNat) }
  | emptyMap {s} (h : s.bitmap = none) : Calm m s { s with bitmap := some (.new 32) }
  | loaded {s r} (h : s.byLoad = true) (hr : m.settling = some r)
      (hcb : r.finishCb = .readMetaData) (b : DynBitMap) (pageSz : Nat) :
      Calm m s { s with bitmap := some b, pageSz := pageSz }

/-! ## The other acts -/

namespace EvKQFileMapped

/-- The state after an engine took `r`. -/
def submit (s : EvKQFileMapped) (r : EvAIOReq) : EvKQFileMapped :=
  { s with
    dataFile := if r.performed then s.written r [] else s.dataFile
    aio := s.aio ++ [r]
    log := s.log ++ [.issued r s.aio] }

def hold (s : EvKQFileMapped) : EvKQFileMapped := { s with refCount := s.refCount + 1 }

def enter (s : EvKQFileMapped) : EvKQFileMapped := { s with held := s.held + 1 }

/-- A finish callback ends and its hold goes on with the request it issued. -/
def passOn (s : EvKQFileMapped) : EvKQFileMapped := { s with held := s.held - 1 }

def mainEngine (s : EvKQFileMapped) : Engine := if s.threadedAio then .thread else .kq

/-- `r` is the request of this AIO state that has this id. -/
def Serves (s : EvKQFileMapped) (serial : Nat) (id : Int) (r : EvAIOReq) : Prop :=
  r.state = some serial ∧ (r.id : Int) = id ∧ r.engine = s.mainEngine

def cancelReq (s : EvKQFileMapped) (engine : Engine) (id : Nat) : EvKQFileMapped :=
  s.setReq engine id fun r => { r with cancelled := true }

end EvKQFileMapped

def FinishCB.writesMeta : FinishCB → Bool
  | .writeMetaRawData | .writeMetaAuxData => true
  | _ => false

/-- The finish callbacks of the requests that no AIO state waits for. -/
def FinishCB.stateless : FinishCB → Bool
  | .writeMetaRawData | .writeMetaAuxData | .genericUnlock => true
  | _ => false

structure Fresh (s : EvKQFileMapped) (r : EvAIOReq) : Prop where
  key : ∀ q ∈ s.aio, q.key ≠ r.key
  live : r.cancelled = false
  engine : r.engine = .kq → s.threadedAio = false
  stateless : r.state = none ↔ r.finishCb.stateless = true

/-- The ids that wait to be recorded, after `r` was issued. -/
def Mode.issue (m : Mode) (r : EvAIOReq) : Mode :=
  if r.state = none then m else { m with unrecorded := m.unrecorded ++ [r.key] }

/-- The update in hand is one of the auxiliary file. -/
def Mode.AsksAux (m : Mode) : Prop := ∃ auxMb, m.asked = some (.aux auxMb)

/-- The data is what a metadata write with this finish callback carries. -/
def FinishCB.carries : FinishCB → Data → Bool
  | .writeMetaRawData, .packed _ => true
  | .writeMetaAuxData, .aux _ => true
  | _, _ => false

/-- Nothing is left for a metadata callback to close. -/
def Tried (s : EvKQFileMapped) : Prop :=
  s.closeRequest = true → 1 < s.refCount ∨ s.metaRawWriting = true ∨ s.opened = false

/-- The id recorded for an AIO state is the one of a request that waits for it. -/
def Pairs (s : EvKQFileMapped) (m : Mode) (serial : Nat) (id : Int) (r : EvAIOReq) : Prop :=
  r ∈ s.live ∧ r.state = some serial ∧ (r.id : Int) = id ∧ r.key ∈ m.unrecorded

def Mode.back (m : Mode) (who : Holder) (last : Bool) : Mode :=
  { m with held := if who = .user then m.held else m.held - 1, dying := last }

/-- The mode after a request of this AIO state was checked off. -/
def Mode.retire (m : Mode) (st : EvKQFileMappedAIOState) : Mode :=
  { m with
    settling := none
    done := if st.reqCountFinished + 1 = st.pendingReq.length then some st.serial else none }

/-- No AIO state is being filled, and no callback has a request to check off. -/
structure Mode.Settled (m : Mode) : Prop where
  aborted : m.aborted = false
  building : m.building = none
  settling : m.settling = none

def Listed (s : EvKQFileMapped) (serial : Nat) : Prop :=
  ∃ st ∈ s.aioStateList, st.serial = serial

def EvKQFileMappedAIOState.add (id : Int) (st : EvKQFileMappedAIOState) :
    EvKQFileMappedAIOState :=
  { st with pendingReq := st.pendingReq ++ [{ id := id }] }

inductive Act : Point → Point → Prop
  | calm {s t m} (h : Calm m s t) : Act (s, m) (t, m)
  | forget {s m} (building : Option Nat) (h : Astray s.log) :
      Act (s, m) (s, { m with building := building })
  -- holds
  | userLock (s m) : Act (s, m) ({ s.hold with userLocks := s.userLocks + 1 }, m)
  | leak {s m} (h : Leaky s.log) : Act (s, m) (s.hold, m)
  | back {s m} (who : Holder) (hheld : who ≠ .user → 0 < m.held)
      (huser : who = .user → Called (·.releases) s.log)
      (hmeta : ∀ cb, who = .finish cb → cb.writesMeta = true → Tried s) :
      Act (s, m) (s.giveBack who, m.back who (decide (s.refCount ≤ 0)))
  | clean {s m} (h : m.dying = true) (hcount : s.refCount < 0) (hm : m.Settled) :
      Act (s, m) (s.internalClean, { m with dying := false })
  -- requests
  | issue {s m r} (hfresh : Fresh s r) (hpurpose : Purpose s r) (hsettling : m.settling = none) :
      Act (s, m) ((s.submit r).hold, m.issue r)
  | settle {s r} (hmem : r ∈ s.aio) (hlive : r.cancelled = false) :
      Act (s, .idle) (((s.unqueue r).note (.settled r)).enter,
        { Mode.calls 1 with settling := some r })
  | settled {s m r} (hr : m.settling = some r) (hcb : r.finishCb = .genericUnlock) :
      Act (s, m) (s, { m with settling := none })
  | reap {s r} (hmem : r ∈ s.aio) (hcancelled : r.cancelled = true) :
      Act (s, .idle) (s.unqueue r, .idle)
  | lose {s r} (hmem : r ∈ s.aio) (hlive : r.cancelled = false) (hengine : r.engine = .kq) :
      Act (s, .idle) ((s.unqueue r).note (.lost r), .idle)
  | notified {s r m} (h : s.threadedAio = false) :
      Act (s, m) ((s.note (.failedNotified r)).enter, { m with held := m.held + 1 })
  | cancel {s t m serial ids} {id : Int} (hdropped : m.dropped = some (serial, id :: ids))
      (ht : (∃ n : Nat, t = s.cancelReq s.mainEngine n ∧ (n : Int) = id) ∨
        (t = s ∧ ∀ r ∈ s.aio, r.engine = s.mainEngine → (r.id : Int) ≠ id)) :
      Act (s, m) ((t.note (.cancelled id)).enter,
        { m with held := m.held + 1, dropped := some (serial, ids) })
  | abortLoad {s m} (hload : s.byLoad = true) (hdropped : m.dropped = none)
      (hmeta : ∀ r ∈ s.aio, r.finishCb.writesMeta = false) :
      Act (s, m) ((s.cancelAllByFd .thread s.metaFd).note .loadAborted, { m with aborted := true })
  -- opening and closing
  | closeFiles {s m} (hcount : s.refCount ≤ 1) (hraw : s.metaRawWriting = false)
      (hwhy : 0 < m.held ∨ s.aio = [] ∨ Obs.loadAborted ∈ s.log) (hdropped : m.dropped = none) :
      Act (s, m) (s.closeFiles, m)
  | opens {s m} (metaFd dataFd : Int) (dataFile : Nat → Option UInt8)
      (hclosed : s.opened = false) (hrequest : s.closeRequest = false)
      (hwanted : s.closeWanted = false)
      (hbitmap : (s.bitmap = none ∧ s.aio = []) ∨ Called (fun c => c == .openMap) s.log)
      (hfile : dataFile = (fun _ => none) ∨ dataFile = s.dataFile) :
      Act (s, m) ({ s with
        metaFd := metaFd, dataFd := dataFd, opened := true, dataFile := dataFile }, m)
  | withdraw (s m) : Act (s, m) ({ s with closeWanted := false }, m)
  | reopen {s m} (h : s.opened = false) : Act (s, m) ({ s with closeRequest := false }, m)
  | close (s m) :
      Act (s, m) ({ s with closeRequest := true, closeWanted := true },
        { m with closing := true })
  | closeAsked {s m} (h : s.live ≠ [] ∨ s.metaRawWriting = true ∨
      ∃ again, Obs.metaRefused .writeMetaRawData true again ∈ s.log)
      (hsettling : m.settling = none) :
      Act (s, m) (s, { m with closing := false })
  -- metadata
  | ask {s m} (d : Data) (h : m.asked = none) (hsettling : m.settling = none) :
      Act (s, m) (s.note (.asked d), { m with asked := some d })
  | coalesceRaw {s m packed} (h : m.asked = some (.packed packed))
      (hraw : s.metaRawWriting = true) (hsettling : m.settling = none) :
      Act (s, m) ({ s with lastMbRaw := some packed }, { m with asked := none })
  | coalesceAux {s m auxMb} (h : m.asked = some (.aux auxMb)) (haux : s.metaAuxWriting = true)
      (hsettling : m.settling = none) :
      Act (s, m) ({ s with lastMbAux := some auxMb }, { m with asked := none })
  | auxSlot {s m} (auxMb : Option (List UInt8)) (needUpdate : Bool)
      (h : needUpdate = true → s.metaAuxWriting = false ∧ (m.AsksAux ∨ Refused s.log)) :
      Act (s, m) ({ s with dataAuxMb := auxMb, metaAuxNeedUpdate := needUpdate }, m)
  | issueRaw {s m r packed} (hfresh : Fresh s r) (hcb : r.finishCb = .writeMetaRawData)
      (hengine : r.engine = .thread) (hdata : r.data = .packed packed)
      (hasked : m.asked = some (.packed packed)) (hraw : s.metaRawWriting = false) :
      Act (s, m) ({ (s.push r).hold with metaRawWriting := true }, { m with asked := none })
  | issueAux {s m r auxMb} (hfresh : Fresh s r) (hcb : r.finishCb = .writeMetaAuxData)
      (hengine : r.engine = .thread) (hdata : r.data = .aux auxMb)
      (hasked : m.asked = some (.aux auxMb) ∨ (m.asked = none ∧ Refused s.log))
      (haux : s.metaAuxWriting = false) :
      Act (s, m) ({ (s.push r).hold with metaAuxWriting := true, metaAuxNeedUpdate := false },
        { m with asked := none })
  | refuse (s m) (cb : FinishCB) :
      Act (s, m) (s.note (.metaRefused cb s.closeRequest false), { m with asked := none })
  | takeRaw {s m r packed} (hr : m.settling = some r) (hcb : r.finishCb = .writeMetaRawData)
      (h : s.lastMbRaw = some packed) (hasked : m.asked = none) :
      Act (s, m) ({ s with lastMbRaw := none }, { m with asked := some (.packed packed) })
  | takeAux {s m r auxMb} (hr : m.settling = some r) (hcb : r.finishCb = .writeMetaAuxData)
      (h : s.lastMbAux = some auxMb) (hasked : m.asked = none) :
      Act (s, m) ({ s with lastMbAux := none }, { m with asked := some (.aux auxMb) })
  | reissue {s m r q} (hr : m.settling = some r) (hcb : r.finishCb.writesMeta = true)
      (hfresh : Fresh s q) (hsame : q.finishCb = r.finishCb) (hengine : q.engine = .thread)
      (hasked : m.asked = some q.data) (hdata : q.finishCb.carries q.data = true)
      (hheld : 0 < m.held) :
      Act (s, m) ((s.push q).passOn,
        { m with held := m.held - 1, settling := none, asked := none })
  | refuseAgain {s m r} (hr : m.settling = some r) (hheld : 0 < m.held) :
      Act (s, m) ((s.note (.metaRefused r.finishCb s.closeRequest true)).passOn,
        { m with held := m.held - 1, settling := none, asked := none })
  | rawDone {s m r} (hr : m.settling = some r) (hcb : r.finishCb = .writeMetaRawData)
      (h : s.lastMbRaw = none) :
      Act (s, m) ({ s with metaRawWriting := false }, { m with settling := none })
  | auxDone {s m r} (hr : m.settling = some r) (hcb : r.finishCb = .writeMetaAuxData)
      (h : s.lastMbAux = none) :
      Act (s, m) ({ s with metaAuxWriting := false }, { m with settling := none })
  -- AIO states
  | stateNew {s m} (ownerId : Int) (hasCb : Bool) (h : m.building = none ∨ Astray s.log)
      (hsettling : m.settling = none) :
      Act (s, m) ({ s with
        aioStateList := { serial := s.nextState, ownerId := ownerId, hasCb := hasCb } ::
          s.aioStateList
        nextState := s.nextState + 1 }.note (.made s.nextState hasCb),
        { m with building := some s.nextState })
  | mark {s m} (f : EvKQFileMappedAIOState → EvKQFileMappedAIOState)
      (hf : ∀ st, ∃ l c, f st = { st with finishList := l, cancelled := c } ∧
        (c = true → st.cancelled = true ∨ Called (·.cancels) s.log)) :
      Act (s, m) ({ s with aioStateList := s.aioStateList.map f }, m)
  | record {s m} {serial : Nat} {id : Int} {keys : List (Engine × Nat)} (hid : 0 ≤ id)
      (hnew : ∀ st ∈ s.aioStateList, id ∉ st.openIds)
      (hlisted : Listed s serial ∨ Astray s.log)
      (h : (∃ r, Pairs s m serial id r ∧ keys = m.unrecorded.erase r.key) ∨ Astray s.log) :
      Act (s, m) (s.setState serial (.add id), { m with unrecorded := keys })
  | report {s m serial} (hbuilding : m.building = some serial)
      (hst : ∃ st ∈ s.aioStateList, st.serial = serial ∧ st.pendingReq ≠ []) :
      Act (s, m) (s.note (.reported serial), { m with building := none })
  | leave {s m serial} (hbuilding : m.building = some serial) :
      Act (s, m) (s, { m with building := none })
  | retire {s m st} (r : EvAIOReq) (error : Bool) (hst : st ∈ s.aioStateList)
      (hid : st.hasOpen r.id = true) (hstate : r.state ≠ none)
      (h : m.settling = some r ∨ (m.settling = none ∧ Wild s.log)) (hdone : m.done = none) :
      Act (s, m) (s.setState st.serial (markDone r.id error), m.retire st)
  | finish {s m st} (hst : st ∈ s.aioStateList)
      (hall : st.reqCountFinished = st.pendingReq.length) (hsettling : m.settling = none)
      (hunrecorded : m.unrecorded = []) (hdone : m.done = none ∨ m.done = some st.serial) :
      Act (s, m) ((s.removeState st.serial).note
        (.finished st.serial (!st.cancelled && st.hasCb) (s.liveOf st.serial).length),
        { m with building := none, done := none })
  | dropState {s m serial ids} (hbuilding : m.building = some serial)
      (hst : ∀ st ∈ s.aioStateList, st.serial = serial → st.openIds = ids)
      (hids : (ids.Nodup ∧ ∀ id ∈ ids, ∃ r ∈ s.live, s.Serves serial id r) ∨ Wild s.log) :
      Act (s, m) (s.removeState serial,
        { m with building := none, dropped := some (serial, ids) })
  | dropEnd {s m serial ids} (hdropped : m.dropped = some (serial, ids))
      (hids : ids = [] ∨ Wild s.log) :
      Act (s, m) (s, { m with dropped := none })

abbrev Path := ReflTransGen Act

end FileMapped
