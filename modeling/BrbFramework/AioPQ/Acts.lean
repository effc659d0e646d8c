import Mathlib.Logic.Relation
import BrbFramework.AioPQ.Pool

/-!
# What the pool can do

Every handler of the pool is a path of a few atomic acts. Asking libpq and
bookkeeping that moves no request are `Touch`es; a search for a free client is
a path of `Probe`s; `Send` is what a user call may do, also from inside a
result callback; `Act` is everything.

Between two acts of one handler the pool is not in a state the event loop sees,
and `Mode` says what is under way: a request that `sendReq` has just accepted,
a client lent to the callback of a cancelled request, a dispatch tick. `Formed`
is the invariant that holds at every point of every path.
-/

namespace EvAIOPQ

open Relation BrbData List Function EvAIOPQBase MemSlotBase

/-- What a handler has begun and not yet finished. -/
structure Mode where
  fresh : Option Nat := none
  held : Option Nat := none
  ticking : Bool := false
  deriving DecidableEq, Repr

def Mode.idle : Mode := {}

abbrev Point := EvAIOPQBase × Mode

/-- Observations that neither move a request nor select a client. -/
def Obs.neutral : Obs → Bool
  | .accepted _ | .sent _ | .selected .. => false
  | _ => true

/-! ## Acts -/

inductive Touch : EvAIOPQBase → EvAIOPQBase → Prop
  | ask (s) : Touch s { s with clock := s.clock + 1 }
  | close (s cli) : Touch s
      ((s.markOffline cli).note (.closed cli (s.clients cli).aiopqReq.isSome))
  | online (s cli) : Touch s (s.markOnline cli)
  | client (s cli) (f : EvAIOPQClient → EvAIOPQClient)
      (hreq : ∀ c, (f c).aiopqReq = c.aiopqReq) (hbusy : ∀ c, (f c).busy = c.busy)
      (honline : ∀ c, (f c).online = c.online) : Touch s (s.setClient cli f)
  | note (s) (o : Obs) (ho : o.neutral) : Touch s (s.note o)
  | healthTimer (s id) : Touch s { s with healthTimerId := id }
  | decreaseTimer (s id) : Touch s { s with decreaseTimerId := id }
  | countFail (s n) : Touch s { s with countFail := n }
  | countCancel (s) : Touch s
      { s with countCancel := s.countCancel + 1, countCur := s.countCur - 1 }

/-- The state after `clientGrabFree` picked `cli` at time `ts`. -/
def EvAIOPQBase.select (s : EvAIOPQBase) (cli : Nat) (ts : Int) : EvAIOPQBase :=
  let c := s.clients cli
  ((s.note (.ready cli c.online)).note
    (.selected cli c.online c.busy c.aiopqReq.isSome)).setClient cli
      fun c => { c with lastGrabTs := ts }

inductive Probe : EvAIOPQBase → EvAIOPQBase → Prop
  | touch {s t} (h : Touch s t) : Probe s t
  | grow (s) (n : Nat) (hn : s.cliCountCur ≤ n) : Probe s { s with cliCountCur := n }
  | select (s cli ts) (hcli : cli < s.cliCountCur) (hbusy : (s.clients cli).busy = false) :
      Probe s (s.select cli ts)

abbrev Probes := ReflTransGen Probe

/-- The state after `sendReq` accepted a request into the granted slot. -/
def EvAIOPQBase.accept (s : EvAIOPQBase) (reqslot : MemSlotBase EvAIOPQRequest)
    (req : Nat) (r : EvAIOPQRequest) : EvAIOPQBase :=
  let s := { s with reqslot := reqslot.modifyData req fun _ => r }
  { s.note (.accepted (s.request req).serial) with
    countCur := s.countCur + 1
    countTotal := s.countTotal + 1 }

/-- The dispatch timer is armed, or the log says that it could not be. -/
def Armed (s : EvAIOPQBase) : Prop := 0 ≤ s.timerId ∨ Obs.timerFailed ∈ s.log

inductive Send : Point → Point → Prop
  | touch {s t} (m : Mode) (h : Touch s t) : Send (s, m) (t, m)
  | probe {s t} (m : Mode) (hm : m.held = none) (h : Probe s t) : Send (s, m) (t, m)
  | mark (s) (m : Mode) (req : Nat) (f : EvAIOPQRequest → EvAIOPQRequest)
      (hserial : ∀ r, (f r).serial = r.serial) (hreqId : ∀ r, (f r).reqId = r.reqId)
      (hinUse : ∀ r, (f r).inUse = r.inUse) : Send (s, m) (s.setRequest req f, m)
  | accept {s} {m : Mode} {reqslot req} (r : EvAIOPQRequest) (hm : m.fresh = none)
      (hgrab : s.reqslot.slotGrab = some (req, reqslot)) (hserial : r.serial = s.countTotal)
      (hreqId : r.reqId = req) :
      Send (s, m) (s.accept reqslot req r, { m with fresh := some req })
  | arm (s) (m : Mode) (id : Int) (h : s.timerId < 0) :
      Send (s, m) ({ s with timerId := id }, m)
  | queue {s} {m : Mode} (hm : m.fresh ≠ none) (h : Armed s) :
      Send (s, m) ({ s with pqbufferPending := true }, { m with fresh := none })
  | refuse {s} {m : Mode} {req} (hm : m.fresh = some req) :
      Send (s, m)
        ({ s.note (.immediateFailed (s.request req).serial) with pqbufferPending := true },
          { m with fresh := none })
  | sendNow {s} {m : Mode} {req cli} (hm : m.fresh = some req)
      (hgate : s.pqbufferPending = false) (hcli : cli < s.cliCountCur)
      (honline : (s.clients cli).online = true) (hbusy : (s.clients cli).busy = false)
      (hreq : (s.clients cli).aiopqReq = none) :
      Send (s, m) (s.attach cli req, { m with fresh := none })

def EvAIOPQBase.decrease (s : EvAIOPQBase) : EvAIOPQBase :=
  { (s.markOffline (s.cliCountCur - 1)).setClient (s.cliCountCur - 1)
      fun c => { c with pqState := .disconnected } with
    cliCountCur := s.cliCountCur - 1 }

inductive Act : Point → Point → Prop
  | send {p q} (h : Send p q) : Act p q
  | tickStart (s) : Act (s, .idle) ({ s with timerId := -1 }, { ticking := true })
  | tickEmpty {s} (h : s.requests = []) :
      Act (s, { ticking := true }) ({ s with pqbufferPending := false }, .idle)
  | tickEnd {s} (h : Armed s) : Act (s, { ticking := true }) (s, .idle)
  | dispatch {s req cli} {reqs : List Nat} (h : s.requests = req :: reqs)
      (hcli : cli < s.cliCountCur) (honline : (s.clients cli).online = true)
      (hbusy : (s.clients cli).busy = false) (hreq : (s.clients cli).aiopqReq = none) :
      Act (s, { ticking := true }) (s.attach cli req, { ticking := true })
  | lend {s cli req} (h : req ∈ s.requests) (hbusy : (s.clients cli).busy = false) :
      Act (s, { ticking := true })
        (s.setClient cli fun c => { c with aiopqReq := some req },
          { held := some cli, ticking := true })
  | giveBack (s cli) :
      Act (s, { held := some cli, ticking := true })
        (s.setClient cli fun c => { c with aiopqReq := none }, { ticking := true })
  | drop {s req} (h : req ∈ s.requests) :
      Act (s, { ticking := true }) (s.requestDestroy req, { ticking := true })
  | release {s cli req} (hbusy : (s.clients cli).busy = true)
      (hreq : (s.clients cli).aiopqReq = some req) :
      Act (s, .idle) ((s.detach cli req).requestDestroy req, .idle)
  | decrease {s} (h : 0 < s.cliCountCur)
      (hbusy : (s.clients (s.cliCountCur - 1)).busy = false) :
      Act (s, .idle) (s.decrease, .idle)

abbrev Path := ReflTransGen Act

/-! ## Frames -/

/-- What a search for a free client leaves alone. -/
structure Frame (s t : EvAIOPQBase) : Prop where
  reqslot : t.reqslot = s.reqslot
  gate : t.pqbufferPending = s.pqbufferPending
  timer : t.timerId = s.timerId
  total : t.countTotal = s.countTotal
  attached : ∀ c, (t.clients c).aiopqReq = (s.clients c).aiopqReq

theorem Frame.refl (s : EvAIOPQBase) : Frame s s := ⟨rfl, rfl, rfl, rfl, fun _ => rfl⟩

theorem Frame.trans {s t u : EvAIOPQBase} (h : Frame s t) (h' : Frame t u) : Frame s u :=
  ⟨h'.reqslot.trans h.reqslot, h'.gate.trans h.gate, h'.timer.trans h.timer,
    h'.total.trans h.total, fun c => (h'.attached c).trans (h.attached c)⟩

section Clients

variable (s : EvAIOPQBase) (cli : Nat)

theorem setClient_view {β : Type} (v : EvAIOPQClient → β) (f : EvAIOPQClient → EvAIOPQClient)
    (hf : v (f (s.clients cli)) = v (s.clients cli)) (c : Nat) :
    v ((s.setClient cli f).clients c) = v (s.clients c) := by
  by_cases h : c = cli
  · subst h
    simpa [setClient] using hf
  · simp [setClient, update_of_ne h]

theorem frame_setClient (f : EvAIOPQClient → EvAIOPQClient)
    (hf : (f (s.clients cli)).aiopqReq = (s.clients cli).aiopqReq) :
    Frame s (s.setClient cli f) :=
  ⟨rfl, rfl, rfl, rfl, setClient_view s cli (·.aiopqReq) f hf⟩

theorem frame_note (o : Obs) : Frame s (s.note o) := ⟨rfl, rfl, rfl, rfl, fun _ => rfl⟩

theorem frame_markOffline : Frame s (s.markOffline cli) := by
  unfold markOffline
  split
  · have h := frame_setClient s cli (fun c => { c with online := false, busy := false }) rfl
    exact ⟨h.reqslot, h.gate, h.timer, h.total, h.attached⟩
  · exact Frame.refl s

theorem frame_markOnline : Frame s (s.markOnline cli) := by
  unfold markOnline
  split
  · exact Frame.refl s
  · have h := frame_setClient s cli (fun c => { c with online := true }) rfl
    exact ⟨h.reqslot, h.gate, h.timer, h.total, h.attached⟩

theorem markOffline_online : ((s.markOffline cli).clients cli).online = false := by
  unfold markOffline
  split
  · simp [setClient]
  · simpa using ‹¬(s.clients cli).online = true›

theorem markOffline_of_offline (h : (s.clients cli).online = false) :
    s.markOffline cli = s := by
  simp [markOffline, h]

@[simp] theorem markOffline_countCur : (s.markOffline cli).cliCountCur = s.cliCountCur := by
  unfold markOffline
  split <;> rfl

@[simp] theorem markOffline_log : (s.markOffline cli).log = s.log := by
  unfold markOffline
  split <;> rfl

@[simp] theorem markOnline_countCur : (s.markOnline cli).cliCountCur = s.cliCountCur := by
  unfold markOnline
  split <;> rfl

@[simp] theorem markOnline_log : (s.markOnline cli).log = s.log := by
  unfold markOnline
  split <;> rfl

end Clients

theorem Touch.frame {s t : EvAIOPQBase} (h : Touch s t) : Frame s t := by
  cases h with
  | close cli => exact (frame_markOffline s cli).trans (frame_note _ _)
  | online cli => exact frame_markOnline s cli
  | client cli f hreq _ _ => exact frame_setClient s cli f (hreq _)
  | note o _ => exact frame_note s o
  | _ => exact ⟨rfl, rfl, rfl, rfl, fun _ => rfl⟩

theorem frame_select (s : EvAIOPQBase) (cli : Nat) (ts : Int) : Frame s (s.select cli ts) := by
  have h := frame_setClient s cli (fun c => { c with lastGrabTs := ts }) rfl
  exact ⟨h.reqslot, h.gate, h.timer, h.total, h.attached⟩

theorem frame_decrease (s : EvAIOPQBase) : Frame s s.decrease := by
  have h := (frame_markOffline s (s.cliCountCur - 1)).trans
    (frame_setClient _ (s.cliCountCur - 1) (fun c => { c with pqState := .disconnected }) rfl)
  exact ⟨h.reqslot, h.gate, h.timer, h.total, h.attached⟩

theorem Probe.frame {s t : EvAIOPQBase} (h : Probe s t) : Frame s t := by
  cases h with
  | touch h => exact h.frame
  | grow n _ => exact ⟨rfl, rfl, rfl, rfl, fun _ => rfl⟩
  | select cli ts _ _ => exact frame_select s cli ts

theorem Probes.frame {s t : EvAIOPQBase} (h : Probes s t) : Frame s t := by
  induction h with
  | refl => exact Frame.refl s
  | tail _ hstep ih => exact ih.trans hstep.frame

/-! ## The invariant of every path -/

structure Formed (p : Point) : Prop where
  wf : p.1.reqslot.WF
  reqIds : ∀ l, ∀ i ∈ p.1.reqslot.list l, (p.1.request i).reqId = i
  freeUnused : ∀ i ∈ p.1.reqslot.slots, (p.1.request i).inUse = false
  /-- A request just accepted is alone, or the gate is shut. -/
  fresh : ∀ i, p.2.fresh = some i →
    ∃ l, p.1.requests = l ++ [i] ∧ (l ≠ [] → p.1.pqbufferPending = true)
  gated : p.2.fresh = none → p.1.requests ≠ [] → p.1.pqbufferPending = true
  held : p.2.held ≠ none → p.1.pqbufferPending = true
  attached : ∀ c i, p.2.held ≠ some c → (p.1.clients c).aiopqReq = some i → i ∈ p.1.replies
  attachedOnce : ∀ c c' i, p.2.held ≠ some c → p.2.held ≠ some c' →
    (p.1.clients c).aiopqReq = some i → (p.1.clients c').aiopqReq = some i → c = c'

theorem formed_baseNew (conf : EvAIOPQBaseConf) : Formed (baseNew conf, .idle) where
  wf := wf_init _ _
  reqIds := by simp [baseNew, init]
  freeUnused := by
    simp [baseNew, init, request, slotData]
  fresh := by simp [Mode.idle]
  gated := by simp [baseNew, requests, init]
  held := by simp [Mode.idle]
  attached := by simp [baseNew]
  attachedOnce := by simp [baseNew]

theorem Formed.frame {s t : EvAIOPQBase} {m : Mode} (h : Formed (s, m)) (hst : Frame s t) :
    Formed (t, m) := by
  have hslot := hst.reqslot
  refine ⟨?_, ?_, ?_, ?_, ?_, ?_, ?_, ?_⟩
  · simpa [hslot] using h.wf
  · simpa [hslot, request] using h.reqIds
  · simpa [hslot, request] using h.freeUnused
  · simpa [hslot, hst.gate, requests] using h.fresh
  · simpa [hslot, hst.gate, requests] using h.gated
  · simpa [hst.gate] using h.held
  · simpa [hslot, hst.attached, replies] using h.attached
  · simpa [hst.attached] using h.attachedOnce

section Transforms

variable {s : EvAIOPQBase} {m : Mode} {cli req : Nat}

theorem setRequest_view {β : Type} (v : EvAIOPQRequest → β)
    (f : EvAIOPQRequest → EvAIOPQRequest) (hf : ∀ r, v (f r) = v r) (i : Nat) :
    v ((s.setRequest req f).request i) = v (s.request i) :=
  slotData_modifyData_view s.reqslot req f v hf i

theorem attach_clients : (s.attach cli req).clients = update s.clients cli
    { s.clients cli with aiopqReq := some req, busy := true } := rfl

theorem attach_reqslot : (s.attach cli req).reqslot =
    (s.reqslot.slotListIDSwitch (s.request req).reqId queryListReply).modifyData req
      fun r => { r with sent := true } := rfl

theorem attach_view {β : Type} (v : EvAIOPQRequest → β)
    (hv : ∀ r : EvAIOPQRequest, v { r with sent := true } = v r) (i : Nat) :
    v ((s.attach cli req).request i) = v (s.request i) := by
  unfold request
  rw [attach_reqslot, slotData_modifyData_view _ _ _ v hv,
    slotListIDSwitch_data]

theorem Formed.reqId_of_mem (h : Formed (s, m)) (hreq : req ∈ s.requests) :
    (s.request req).reqId = req :=
  h.reqIds queryListRequest req hreq

theorem Formed.attach_list (h : Formed (s, m)) (hreq : req ∈ s.requests) :
    (s.attach cli req).reqslot.list = update
      (update s.reqslot.list queryListRequest (s.requests.erase req))
      queryListReply (req :: s.replies) := by
  rw [attach_reqslot, modifyData_list, h.reqId_of_mem hreq]
  exact h.wf.slotListIDSwitch_list hreq (by decide) (by decide)

theorem Formed.attach_requests (h : Formed (s, m)) (hreq : req ∈ s.requests) :
    (s.attach cli req).requests = s.requests.erase req := by
  simp [requests, h.attach_list hreq]

theorem Formed.attach_replies (h : Formed (s, m)) (hreq : req ∈ s.requests) :
    (s.attach cli req).replies = req :: s.replies := by
  simp [replies, h.attach_list hreq]

theorem Formed.not_attached (h : Formed (s, m)) (hreq : req ∈ s.requests) {c : Nat}
    (hc : m.held ≠ some c) : (s.clients c).aiopqReq ≠ some req := by
  intro hatt
  have hrep := h.attached c req hc hatt
  exact absurd (h.wf.list_unique hreq hrep) (by decide)

theorem Formed.attach (h : Formed (s, m)) (hreq : req ∈ s.requests) (hheld : m.held = none)
    {m' : Mode} (hheld' : m'.held = none) (hfresh : m'.fresh = none)
    (hgate : s.requests.erase req ≠ [] → s.pqbufferPending = true) :
    Formed (s.attach cli req, m') := by
  have hwf : (s.attach cli req).reqslot.WF := by
    rw [attach_reqslot, h.reqId_of_mem hreq]
    exact (h.wf.slotListIDSwitch hreq (by decide) (by decide)).modifyData _ _
  have hmem : ∀ l, ∀ i ∈ (s.attach cli req).reqslot.list l, ∃ l', i ∈ s.reqslot.list l' := by
    intro l i hi
    rw [h.attach_list hreq] at hi
    by_cases hl : l = queryListReply
    · subst hl
      rw [update_self, mem_cons] at hi
      rcases hi with rfl | hi
      · exact ⟨_, hreq⟩
      · exact ⟨_, hi⟩
    · rw [update_of_ne hl] at hi
      by_cases hl0 : l = queryListRequest
      · subst hl0
        rw [update_self] at hi
        exact ⟨_, mem_of_mem_erase hi⟩
      · exact ⟨l, by simpa [update_of_ne hl0] using hi⟩
  refine ⟨hwf, fun l i hi => ?_, fun i hi => ?_, ?_, ?_, ?_, ?_, ?_⟩
  · rw [attach_view (·.reqId) (fun _ => rfl)]
    obtain ⟨l', hi'⟩ := hmem l i hi
    exact h.reqIds l' i hi'
  · rw [attach_view (·.inUse) (fun _ => rfl)]
    refine h.freeUnused i ?_
    simpa [attach_reqslot] using hi
  · simp [hfresh]
  · intro _ hne
    rw [h.attach_requests hreq] at hne
    exact hgate hne
  · simp [hheld']
  · intro c i _ hatt
    simp only [h.attach_replies hreq, mem_cons]
    by_cases hc : c = cli
    · subst hc
      left
      simpa [attach_clients, eq_comm] using hatt
    · right
      exact h.attached c i (by simp [hheld]) (by simpa [attach_clients, hc] using hatt)
  · intro c c' i _ _ hatt hatt'
    by_cases hc : c = cli
    · by_cases hc' : c' = cli
      · exact hc.trans hc'.symm
      · have hi : req = i := by simpa [attach_clients, hc] using hatt
        have hold : (s.clients c').aiopqReq = some req := by
          simpa [attach_clients, hc', ← hi] using hatt'
        exact absurd hold (h.not_attached hreq (by simp [hheld]))
    · by_cases hc' : c' = cli
      · have hi : req = i := by simpa [attach_clients, hc'] using hatt'
        have hold : (s.clients c).aiopqReq = some req := by
          simpa [attach_clients, hc, ← hi] using hatt
        exact absurd hold (h.not_attached hreq (by simp [hheld]))
      · exact h.attachedOnce c c' i (by simp [hheld]) (by simp [hheld])
          (by simpa [attach_clients, hc] using hatt)
          (by simpa [attach_clients, hc'] using hatt')

theorem requestDestroy_reqslot : (s.requestDestroy req).reqslot =
    (s.reqslot.modifyData req fun r => { r with sqlQueryMb := none, inUse := false }).slotFree
      req := rfl

theorem requestDestroy_view {β : Type} (v : EvAIOPQRequest → β)
    (hv : ∀ r : EvAIOPQRequest, v { r with sqlQueryMb := none, inUse := false } = v r)
    (i : Nat) : v ((s.requestDestroy req).request i) = v (s.request i) := by
  unfold request
  rw [requestDestroy_reqslot, slotFree_data]
  exact slotData_modifyData_view _ _ _ v hv i

section Destroy

variable {l : Nat} (h : Formed (s, m)) (hreq : req ∈ s.reqslot.list l)

include h hreq

theorem Formed.destroy_list : (s.requestDestroy req).reqslot.list =
    update s.reqslot.list l ((s.reqslot.list l).erase req) :=
  (h.wf.modifyData req _).slotFree_list hreq

theorem Formed.destroy_slots :
    (s.requestDestroy req).reqslot.slots = req :: s.reqslot.slots :=
  (h.wf.modifyData req _).slotFree_slots hreq

theorem Formed.destroy_wf : (s.requestDestroy req).reqslot.WF :=
  (h.wf.modifyData req _).slotFree hreq

theorem Formed.destroy_reqIds : ∀ k, ∀ i ∈ (s.requestDestroy req).reqslot.list k,
    ((s.requestDestroy req).request i).reqId = i := by
  intro k i hi
  rw [requestDestroy_view (·.reqId) (fun _ => rfl)]
  rw [h.destroy_list hreq] at hi
  by_cases hk : k = l
  · subst hk
    rw [update_self] at hi
    exact h.reqIds k i (mem_of_mem_erase hi)
  · rw [update_of_ne hk] at hi
    exact h.reqIds k i hi

theorem Formed.destroy_freeUnused : ∀ i ∈ (s.requestDestroy req).reqslot.slots,
    ((s.requestDestroy req).request i).inUse = false := by
  intro i hi
  by_cases hir : i = req
  · subst hir
    simp [request, requestDestroy_reqslot]
  · rw [h.destroy_slots hreq, mem_cons] at hi
    have hfree := h.freeUnused i (hi.resolve_left hir)
    unfold request at hfree ⊢
    rw [requestDestroy_reqslot, slotFree_data,
      slotData_modifyData_of_ne _ _ _ hir]
    exact hfree

end Destroy

theorem Formed.drop_requests (h : Formed (s, m)) (hreq : req ∈ s.requests) :
    (s.requestDestroy req).requests = s.requests.erase req := by
  simp [requests, h.destroy_list hreq]

theorem Formed.drop_replies (h : Formed (s, m)) (hreq : req ∈ s.requests) :
    (s.requestDestroy req).replies = s.replies := by
  simp [replies, h.destroy_list hreq]

theorem Formed.drop (h : Formed (s, m)) (hreq : req ∈ s.requests) (hfresh : m.fresh = none) :
    Formed (s.requestDestroy req, m) where
  wf := h.destroy_wf hreq
  reqIds := h.destroy_reqIds hreq
  freeUnused := h.destroy_freeUnused hreq
  fresh := by simp [hfresh]
  gated := fun _ _ => h.gated hfresh (ne_nil_of_mem hreq)
  held := h.held
  attached := by
    rw [h.drop_replies hreq]
    exact h.attached
  attachedOnce := h.attachedOnce

theorem Formed.release_replies (h : Formed (s, m)) (hreq : req ∈ s.replies) :
    (s.requestDestroy req).replies = s.replies.erase req := by
  simp [replies, h.destroy_list hreq]

theorem Formed.release_requests (h : Formed (s, m)) (hreq : req ∈ s.replies) :
    (s.requestDestroy req).requests = s.requests := by
  simp [requests, h.destroy_list hreq]

theorem detach_reqslot : (s.detach cli req).reqslot = s.reqslot := by
  unfold detach
  simp only
  split <;> rfl

theorem detach_gate : (s.detach cli req).pqbufferPending = s.pqbufferPending := by
  unfold detach
  simp only
  split <;> rfl

theorem detach_clients : (s.detach cli req).clients = update s.clients cli
    { s.clients cli with
      aiopqReq := none, busy := false, flushNeed := false, flushFailed := false } := by
  unfold detach
  simp only
  split <;> rfl

theorem Formed.detach (h : Formed (s, m)) (hheld : m.held = none) :
    Formed (s.detach cli req, m) := by
  have hold : ∀ c i, ((s.detach cli req).clients c).aiopqReq = some i →
      (s.clients c).aiopqReq = some i := by
    intro c i hatt
    by_cases hc : c = cli
    · simp [detach_clients, hc] at hatt
    · simpa [detach_clients, hc] using hatt
  refine ⟨?_, ?_, ?_, ?_, ?_, ?_, fun c i _ hatt => ?_, fun c c' i _ _ hatt hatt' => ?_⟩
  · simpa [detach_reqslot] using h.wf
  · simpa [request, detach_reqslot] using h.reqIds
  · simpa [request, detach_reqslot] using h.freeUnused
  · simpa [requests, detach_reqslot, detach_gate] using h.fresh
  · simpa [requests, detach_reqslot, detach_gate] using h.gated
  · simpa [detach_gate] using h.held
  · simpa [replies, detach_reqslot] using
      h.attached c i (by simp [hheld]) (hold c i hatt)
  · exact h.attachedOnce c c' i (by simp [hheld]) (by simp [hheld])
      (hold c i hatt) (hold c' i hatt')

theorem Formed.detach_reply (h : Formed (s, .idle)) (hmem : req ∈ s.replies) (cli : Nat) :
    Formed (s.detach cli req, .idle) ∧ req ∈ (s.detach cli req).replies := by
  refine ⟨h.detach rfl, ?_⟩
  rw [replies, detach_reqslot]
  exact hmem

theorem Formed.detach_attached (h : Formed (s, .idle))
    (hreq : (s.clients cli).aiopqReq = some req) :
    Formed (s.detach cli req, .idle) ∧ req ∈ (s.detach cli req).replies :=
  h.detach_reply (h.attached cli req (by simp [Mode.idle]) hreq) cli

theorem Formed.release (h : Formed (s, .idle))
    (hreq : (s.clients cli).aiopqReq = some req) :
    Formed ((s.detach cli req).requestDestroy req, .idle) := by
  obtain ⟨hd, hmem⟩ := h.detach_attached hreq
  refine ⟨hd.destroy_wf hmem, hd.destroy_reqIds hmem, hd.destroy_freeUnused hmem,
    by simp [Mode.idle], fun _ hne => ?_, by simp [Mode.idle], fun c i _ hatt => ?_,
    hd.attachedOnce⟩
  · rw [hd.release_requests hmem] at hne
    exact hd.gated rfl hne
  · rw [hd.release_replies hmem]
    have hatt' : ((s.detach cli req).clients c).aiopqReq = some i := hatt
    have hne : i ≠ req := by
      rintro rfl
      have hc : c ≠ cli := by
        rintro rfl
        simp [detach_clients] at hatt'
      have hold : (s.clients c).aiopqReq = some i := by
        simpa [detach_clients, hc] using hatt'
      exact hc (h.attachedOnce c cli i (by simp [Mode.idle]) (by simp [Mode.idle]) hold hreq)
    exact (mem_erase_of_ne hne).2 (hd.attached c i (by simp [Mode.idle]) hatt')

section Accept

variable {reqslot : MemSlotBase EvAIOPQRequest} {r : EvAIOPQRequest}

theorem accept_reqslot : (s.accept reqslot req r).reqslot =
    reqslot.modifyData req fun _ => r := rfl

theorem accept_requests (hgrab : s.reqslot.slotGrab = some (req, reqslot)) :
    (s.accept reqslot req r).requests = s.requests ++ [req] := by
  have h := slotGrab_list_zero hgrab
  exact h

theorem accept_replies (hgrab : s.reqslot.slotGrab = some (req, reqslot)) :
    (s.accept reqslot req r).replies = s.replies := by
  have h := slotGrab_list_of_ne hgrab (l := queryListReply) (by decide)
  exact h

theorem accept_request_self : (s.accept reqslot req r).request req = r := by
  simp [request, accept_reqslot]

theorem accept_request_of_ne (hgrab : s.reqslot.slotGrab = some (req, reqslot)) {i : Nat}
    (hi : i ≠ req) : (s.accept reqslot req r).request i = s.request i := by
  unfold request
  rw [accept_reqslot, slotData_modifyData_of_ne _ _ _ hi]
  exact slotGrab_data hgrab i

theorem Formed.accept (h : Formed (s, m)) (hm : m.fresh = none)
    (hgrab : s.reqslot.slotGrab = some (req, reqslot)) (hreqId : r.reqId = req) :
    Formed (s.accept reqslot req r, { m with fresh := some req }) := by
  have hslots : s.reqslot.slots = req :: reqslot.slots :=
    (slotGrab_eq_some hgrab).1
  have hnodup := h.wf.free_nodup
  rw [hslots, nodup_cons] at hnodup
  have hwf : (s.accept reqslot req r).reqslot.WF := by
    rw [accept_reqslot]
    exact (h.wf.slotGrab hgrab).modifyData req _
  refine ⟨hwf, fun l i hi => ?_, fun i hi => ?_, fun i hi => ?_, by simp, h.held, ?_,
    h.attachedOnce⟩
  · by_cases hir : i = req
    · subst hir
      simp [accept_request_self, hreqId]
    · rw [accept_request_of_ne hgrab hir]
      refine h.reqIds l i ?_
      by_cases hl : l = 0
      · subst hl
        have hmem : i ∈ s.reqslot.list 0 ++ [req] := accept_requests (r := r) hgrab ▸ hi
        simpa [hir] using hmem
      · exact slotGrab_list_of_ne hgrab hl ▸ hi
  · have hi' : i ∈ reqslot.slots := hi
    have hir : i ≠ req := fun he => hnodup.1 (he ▸ hi')
    rw [accept_request_of_ne hgrab hir]
    exact h.freeUnused i (by simp [hslots, hi'])
  · obtain rfl : req = i := by simpa using hi
    exact ⟨s.requests, accept_requests hgrab, h.gated hm⟩
  · rw [accept_replies hgrab]
    exact h.attached

end Accept

end Transforms

theorem Formed.mark {s : EvAIOPQBase} {m : Mode} (h : Formed (s, m)) {req : Nat}
    {f : EvAIOPQRequest → EvAIOPQRequest} (hreqId : ∀ r, (f r).reqId = r.reqId)
    (hinUse : ∀ r, (f r).inUse = r.inUse) : Formed (s.setRequest req f, m) where
  wf := h.wf.modifyData req f
  reqIds := fun l i hi => by
    rw [setRequest_view (·.reqId) f hreqId]
    exact h.reqIds l i hi
  freeUnused := fun i hi => by
    rw [setRequest_view (·.inUse) f hinUse]
    exact h.freeUnused i hi
  fresh := h.fresh
  gated := h.gated
  held := h.held
  attached := h.attached
  attachedOnce := h.attachedOnce

theorem Send.formed {p q : Point} (h : Send p q) (hp : Formed p) : Formed q := by
  cases h with
  | touch m h => exact hp.frame h.frame
  | probe m _ h => exact hp.frame h.frame
  | mark s m req f _ hreqId hinUse => exact hp.mark hreqId hinUse
  | accept r hm hgrab _ hreqId => exact hp.accept hm hgrab hreqId
  | arm s m id _ =>
      exact ⟨hp.wf, hp.reqIds, hp.freeUnused, hp.fresh, hp.gated, hp.held, hp.attached,
        hp.attachedOnce⟩
  | queue hm _ =>
      exact ⟨hp.wf, hp.reqIds, hp.freeUnused, by simp, fun _ _ => rfl, fun _ => rfl,
        hp.attached, hp.attachedOnce⟩
  | refuse hm =>
      exact ⟨hp.wf, hp.reqIds, hp.freeUnused, by simp, fun _ _ => rfl, fun _ => rfl,
        hp.attached, hp.attachedOnce⟩
  | @sendNow s m req cli hm hgate _ _ _ _ =>
      obtain ⟨l, hl, hnil⟩ := hp.fresh req hm
      have hempty : l = [] := by
        by_contra hne
        simpa [hgate] using hnil hne
      have hheld : m.held = none := by
        by_contra hne
        simpa [hgate] using hp.held hne
      have hmem : req ∈ s.requests := by
        change s.requests = l ++ [req] at hl
        simp [hl]
      refine hp.attach hmem hheld hheld rfl ?_
      change s.requests = l ++ [req] at hl
      simp [hl, hempty]

theorem Act.formed {p q : Point} (h : Act p q) (hp : Formed p) : Formed q := by
  cases h with
  | send h => exact h.formed hp
  | tickStart s =>
      exact ⟨hp.wf, hp.reqIds, hp.freeUnused, by simp, hp.gated, by simp, hp.attached,
        hp.attachedOnce⟩
  | tickEmpty h =>
      exact ⟨hp.wf, hp.reqIds, hp.freeUnused, by simp [Mode.idle],
        fun _ hne => absurd h hne, by simp [Mode.idle], hp.attached, hp.attachedOnce⟩
  | tickEnd _ =>
      exact ⟨hp.wf, hp.reqIds, hp.freeUnused, hp.fresh, hp.gated, by simp [Mode.idle],
        hp.attached, hp.attachedOnce⟩
  | @dispatch s req cli reqs h _ _ _ _ =>
      have hmem : req ∈ s.requests := by simp [h]
      exact hp.attach hmem rfl rfl rfl fun _ => hp.gated rfl (ne_nil_of_mem hmem)
  | @lend s cli req h _ =>
      have hother : ∀ c, c ≠ cli → ((s.setClient cli fun c => { c with aiopqReq := some req }).clients
          c).aiopqReq = (s.clients c).aiopqReq := by
        intro c hc
        simp [setClient, hc]
      refine ⟨hp.wf, hp.reqIds, hp.freeUnused, by simp, hp.gated,
        fun _ => hp.gated rfl (ne_nil_of_mem h), fun c i hc hatt => ?_,
        fun c c' i hc hc' hatt hatt' => ?_⟩
      · have hne : c ≠ cli := fun he => hc (by simp [he])
        exact hp.attached c i (by simp) ((hother c hne).symm.trans hatt)
      · have hne : c ≠ cli := fun he => hc (by simp [he])
        have hne' : c' ≠ cli := fun he => hc' (by simp [he])
        exact hp.attachedOnce c c' i (by simp) (by simp)
          ((hother c hne).symm.trans hatt) ((hother c' hne').symm.trans hatt')
  | giveBack s cli =>
      have hold : ∀ c i, ((s.setClient cli fun c => { c with aiopqReq := none }).clients
          c).aiopqReq = some i → c ≠ cli ∧ (s.clients c).aiopqReq = some i := by
        intro c i hatt
        by_cases hc : c = cli
        · simp [setClient, hc] at hatt
        · exact ⟨hc, by simpa [setClient, hc] using hatt⟩
      refine ⟨hp.wf, hp.reqIds, hp.freeUnused, by simp, hp.gated, by simp,
        fun c i _ hatt => ?_, fun c c' i _ _ hatt hatt' => ?_⟩
      · obtain ⟨hc, hatt⟩ := hold c i hatt
        exact hp.attached c i (by simpa [eq_comm] using hc) hatt
      · obtain ⟨hc, hatt⟩ := hold c i hatt
        obtain ⟨hc', hatt'⟩ := hold c' i hatt'
        exact hp.attachedOnce c c' i (by simpa [eq_comm] using hc)
          (by simpa [eq_comm] using hc') hatt hatt'
  | drop h => exact hp.drop h rfl
  | release _ hreq => exact hp.release hreq
  | decrease _ _ => exact hp.frame (frame_decrease _)

/-- **Every point of a path is formed.** -/
theorem path_formed {p q : Point} (h : Path p q) (hp : Formed p) : Formed q := by
  induction h with
  | refl => exact hp
  | tail _ hstep ih => exact hstep.formed ih

end EvAIOPQ
