import BrbFramework.Lib.Along
import BrbFramework.AioPQ.Order

/-!
# What the handlers do to the counters and the requests

`Act` does not look at the counters, at the flags of a request or at the calls
in the log. A `Move` does: each handler is executed once more, with the points
of its path already known to be `Formed`, and what is kept of it is the sequence
of its `Move`s.

A request that the dispatch timer finds cancelled is counted out before its
callback and destroyed after it. In between it is the one that is `owed`.
-/

namespace EvAIOPQ

open Relation Handler BrbData

def Obs.calledSerial : Obs → Option Nat
  | .called n => some n
  | _ => none

/-- The requests whose callbacks were invoked, in the order of the calls. -/
def calledSerials (log : List Obs) : List Nat := log.filterMap Obs.calledSerial

def EvAIOPQBase.Pending (s : EvAIOPQBase) (req : Nat) : Prop :=
  req ∈ s.requests ∨ req ∈ s.replies

instance (s : EvAIOPQBase) (req : Nat) : Decidable (s.Pending req) :=
  inferInstanceAs (Decidable (_ ∨ _))

def EvAIOPQBase.countOut (s : EvAIOPQBase) : EvAIOPQBase :=
  { s with countCancel := s.countCancel + 1, countCur := s.countCur - 1 }

/-- The client that is to send a request is noted in it. -/
def EvAIOPQBase.setParent (s : EvAIOPQBase) (req cli : Nat) : EvAIOPQBase :=
  s.setRequest req fun r => { r with parentCli := some cli }

def EvAIOPQBase.calledBack (s : EvAIOPQBase) (req : Nat) : EvAIOPQBase :=
  (s.setRequest req fun r => { r with cbCalled := true }).note
    (.called (s.request req).serial)

/-- The requests, the counters of them and the calls stay as they are. -/
structure Quiet (s t : EvAIOPQBase) : Prop where
  reqslot : t.reqslot = s.reqslot
  countCur : t.countCur = s.countCur
  countSuccess : t.countSuccess = s.countSuccess
  countCancel : t.countCancel = s.countCancel
  countCancelNotified : t.countCancelNotified = s.countCancelNotified
  countTotal : t.countTotal = s.countTotal
  canceledNotify : t.canceledNotify = s.canceledNotify
  called : calledSerials t.log = calledSerials s.log

instance : IsPreorder EvAIOPQBase Quiet where
  refl _ := ⟨rfl, rfl, rfl, rfl, rfl, rfl, rfl, rfl⟩
  trans _ _ _ h h' :=
    ⟨h'.reqslot.trans h.reqslot, h'.countCur.trans h.countCur,
      h'.countSuccess.trans h.countSuccess, h'.countCancel.trans h.countCancel,
      h'.countCancelNotified.trans h.countCancelNotified, h'.countTotal.trans h.countTotal,
      h'.canceledNotify.trans h.canceledNotify, h'.called.trans h.called⟩

inductive Ask : EvAIOPQBase → EvAIOPQBase → Prop
  | quiet {s t} (h : Quiet s t) : Ask s t
  | accept {s} {m : Mode} {reqslot req} (hf : Formed (s, m)) (r : EvAIOPQRequest)
      (hgrab : s.reqslot.slotGrab = some (req, reqslot)) (hserial : r.serial = s.countTotal) :
      Ask s (s.accept reqslot req r)
  | cancel (s req) : Ask s (s.setRequest req fun r => { r with cancelled := true })
  | attach {s} {m : Mode} (cli) {req} (hf : Formed (s, m)) (h : req ∈ s.requests) :
      Ask s (s.attach cli req)

abbrev Asks := ReflTransGen Ask

/-- What the pool may do to the requests, and the request that is owed. -/
inductive Move : EvAIOPQBase × Option Nat → EvAIOPQBase × Option Nat → Prop
  | ask {s t owed} (h : Ask s t) : Move (s, owed) (t, owed)
  | parent (s owed req cli) :
      Move (s, owed) (s.setParent req cli, owed)
  | call {s owed req} (h : s.Pending req)
      (hheard : s.canceledNotify = true ∨ (s.request req).cancelled = false) :
      Move (s, owed) (s.calledBack req, owed)
  | giveUp {s req} (h : req ∈ s.requests) (hcancelled : (s.request req).cancelled = true) :
      Move (s, none) (s.countOut, some req)
  | drop {s} {m : Mode} {req} (hf : Formed (s, m)) (h : req ∈ s.requests) :
      Move (s, some req) (s.requestDestroy req, none)
  | release {s cli req} (hf : Formed (s, .idle)) (h : req ∈ s.replies) :
      Move (s, none) ((s.detach cli req).requestDestroy req, none)

abbrev Moves := ReflTransGen Move

variable {env : Nat → Answer}

/-! ## The search for a client -/

section Search

theorem quiet_setClient (s : EvAIOPQBase) (cli : Nat) (f : EvAIOPQClient → EvAIOPQClient) :
    Quiet s (s.setClient cli f) :=
  ⟨rfl, rfl, rfl, rfl, rfl, rfl, rfl, rfl⟩

theorem quiet_note (s : EvAIOPQBase) {o : Obs} (ho : o.calledSerial = none) :
    Quiet s (s.note o) := by
  refine ⟨rfl, rfl, rfl, rfl, rfl, rfl, rfl, ?_⟩
  simp [EvAIOPQBase.note, calledSerials, ho]

theorem quiet_markOffline (s : EvAIOPQBase) (cli : Nat) : Quiet s (s.markOffline cli) := by
  unfold EvAIOPQBase.markOffline
  split
  · exact ⟨rfl, rfl, rfl, rfl, rfl, rfl, rfl, rfl⟩
  · exact refl_of Quiet s

theorem quiet_markOnline (s : EvAIOPQBase) (cli : Nat) : Quiet s (s.markOnline cli) := by
  unfold EvAIOPQBase.markOnline
  split
  · exact refl_of Quiet s
  · exact ⟨rfl, rfl, rfl, rfl, rfl, rfl, rfl, rfl⟩

theorem quiet_clock (s : EvAIOPQBase) : Quiet s { s with clock := s.clock + 1 } :=
  ⟨rfl, rfl, rfl, rfl, rfl, rfl, rfl, rfl⟩

theorem quiet_countFail (s : EvAIOPQBase) (n : Nat) : Quiet s { s with countFail := n } :=
  ⟨rfl, rfl, rfl, rfl, rfl, rfl, rfl, rfl⟩

theorem ask_quiet : Along Quiet (ask env) := along_modifyGet quiet_clock

theorem timerAdd_quiet : Along Quiet (timerAdd env) := by
  refine ask_quiet.bind fun a => ?_
  split
  · exact along_pure _
  · exact along_pure _

theorem clientEventClose_quiet (cli : Nat) (fd : Int) :
    Along Quiet (clientEventClose env cli fd) := by
  refine ask_quiet.bind fun a => (along_assertThat _ _).bind fun _ => along_modify fun s => ?_
  exact trans_of Quiet (quiet_markOffline s cli) (quiet_note _ rfl)

theorem clientCheckConnReady_quiet : Along Quiet (clientCheckConnReady env) := by
  refine ask_quiet.bind fun a => ?_
  split
  · exact along_pure _
  · exact along_pure _

theorem clientCheckPollingStatus_quiet (cli : Nat) :
    Along Quiet (clientCheckPollingStatus env cli) := by
  refine ask_quiet.bind fun a => clientCheckConnReady_quiet.bind fun ready => Along.ite ?_ ?_
  · refine (clientEventClose_quiet cli _).bind fun _ => Along.bind ?_ fun _ => along_pure _
    exact along_modify fun s => quiet_markOffline s cli
  · split
    · exact along_pure _
    · exact along_pure _

theorem clientConnect_quiet (cli : Nat) : Along Quiet (clientConnect env cli) := by
  refine Along.bind (along_modify fun s => quiet_setClient s cli _) fun _ => ?_
  refine (clientCheckPollingStatus_quiet cli).bind fun ready => Along.ite ?_ (along_pure _)
  exact along_modify fun s => quiet_markOnline s cli

theorem connectFrom_quiet (cli n : Nat) : Along Quiet (connectFrom env cli n) := by
  induction n generalizing cli with
  | zero => exact along_pure _
  | succ n ih => exact (clientConnect_quiet cli).bind fun _ => ih (cli + 1)

theorem growFrom_quiet (cli n : Nat) : Along Quiet (growFrom env cli n) := by
  induction n generalizing cli with
  | zero => exact along_pure _
  | succ n ih =>
      refine (clientConnect_quiet cli).bind fun _ => Along.bind ?_ fun _ => ih (cli + 1)
      exact along_modify fun _ => ⟨rfl, rfl, rfl, rfl, rfl, rfl, rfl, rfl⟩

theorem baseClientPoolInitN_quiet (n : Nat) : Along Quiet (baseClientPoolInitN env n) := by
  refine along_get_bind fun s => Along.ite ?_ (growFrom_quiet _ _)
  refine timerAdd_quiet.bind fun id => Along.bind ?_ fun _ => growFrom_quiet _ _
  exact along_modify fun _ => ⟨rfl, rfl, rfl, rfl, rfl, rfl, rfl, rfl⟩

theorem searchFree_quiet (cli n : Nat) : Along Quiet (searchFree env cli n) := by
  induction n generalizing cli with
  | zero => exact along_pure _
  | succ n ih =>
      refine along_get_bind fun s => Along.ite (ih _) ?_
      refine (clientCheckPollingStatus_quiet cli).bind fun ready => Along.ite (ih _) ?_
      refine ask_quiet.bind fun a => Along.ite (ih _) ?_
      refine Along.bind (along_modify fun s => ?_) fun _ => along_pure _
      refine trans_of Quiet ?_ (quiet_setClient _ _ _)
      exact trans_of Quiet (quiet_note s rfl) (quiet_note _ rfl)

theorem searchAgain_quiet (tries : Nat) : Along Quiet (searchAgain env tries) := by
  induction tries with
  | zero => exact along_pure _
  | succ tries ih =>
      refine along_get_bind fun s => (searchFree_quiet _ _).bind fun r => ?_
      cases r with
      | some cli => exact along_pure _
      | none =>
          refine along_get_bind fun s => Along.ite ?_ (along_pure _)
          exact (baseClientPoolInitN_quiet _).bind fun _ => ih

theorem clientGrabFree_quiet (outstandingFlag : Bool) :
    Along Quiet (clientGrabFree env outstandingFlag) :=
  along_get_bind fun _ => Along.ite (along_pure _) (searchAgain_quiet 2)

theorem armTimer_quiet : Along Quiet (armTimer env) := by
  refine along_get_bind fun s => Along.ite ?_ (along_pure _)
  refine timerAdd_quiet.bind fun id => Along.bind ?_ fun _ => Along.ite ?_ (along_pure _)
  · exact along_modify fun _ => ⟨rfl, rfl, rfl, rfl, rfl, rfl, rfl, rfl⟩
  · exact along_modify fun s => quiet_note s rfl

theorem assertSelected_same (cli : Nat) : Along Eq (assertSelected cli) := by
  refine along_get_bind fun s => (along_assertThat _ _).bind fun _ => ?_
  exact (along_assertThat _ _).bind fun _ => along_assertThat _ _

end Search

/-! ## User calls -/

section UserCalls

variable {s : EvAIOPQBase} {m : Mode}

theorem asks_quiet {t u : EvAIOPQBase} (h : Asks s t) (hq : Quiet t u) : Asks s u :=
  h.tail (.quiet hq)

theorem Along.asks {α : Type} {x : M α} (hx : Along Quiet x) {t : EvAIOPQBase} (h : Asks s t) :
    Ends x t (fun _ u => Asks s u) fun _ u => Asks s u :=
  (hx t).mono (fun _ _ hq => asks_quiet h hq) fun _ _ hq => asks_quiet h hq

theorem sendReq_asks (hf : Formed (s, m)) (hm : m.fresh = none) (sqlQuery : Option String)
    (hasCb : Bool) (ownerId : Int) :
    Ends (sendReq env sqlQuery hasCb ownerId) s (fun _ t => Asks s t) fun _ t => Asks s t := by
  cases sqlQuery with
  | none => exact .refl
  | some sqlQuery =>
      simp only [sendReq, ends_bind]
      refine (requestEnqueue_ends hf sqlQuery hasCb ownerId).total fun o t ht => ?_
      rcases ht with ⟨rfl, rfl⟩ | ⟨req, reqslot, r, rfl, hgrab, hserial, hreqId, rfl⟩
      · exact .refl
      simp only [ends_bind, ends_modify]
      have haccept : Asks s (s.accept reqslot req r) := .single (.accept hf r hgrab hserial)
      have hformed := hf.accept (r := r) hm hgrab hreqId
      refine ((clientGrabFree_quiet false _).and (clientGrabFree_probes .refl false)).mono
        (fun o t ht => ?_) fun _ _ he => asks_quiet haccept he.1
      obtain ⟨hq, hprobes, -⟩ := ht
      have hgrabbed := asks_quiet haccept hq
      cases o with
      | none =>
          simp only [ends_bind, ends_modify, ends_pure]
          refine (Along.asks armTimer_quiet hgrabbed).mono (fun _ u hu => ?_) fun _ _ hu => hu
          exact asks_quiet hu ⟨rfl, rfl, rfl, rfl, rfl, rfl, rfl, rfl⟩
      | some cli =>
          rw [ends_bind]
          refine (assertSelected_same cli t).mono (fun _ u hu => ?_) fun _ u hu => ?_
          · subst hu
            simp only [ends_bind, ends_ask]
            have hasked := asks_quiet hgrabbed (quiet_clock t)
            rw [ends_ite]
            refine ⟨fun _ => ?_, fun _ => ?_⟩
            · simp only [ends_bind, ends_modify, ends_pure]
              refine asks_quiet hasked ⟨rfl, rfl, rfl, rfl, rfl, rfl, rfl, ?_⟩
              exact (quiet_note _ rfl).called
            · have hmem : req ∈ t.requests := by
                rw [EvAIOPQBase.requests, hprobes.frame.reqslot]
                change req ∈ (s.accept reqslot req r).requests
                simp [accept_requests hgrab]
              have hask : Formed ({ t with clock := t.clock + 1 }, _) :=
                (hformed.frame hprobes.frame).frame (Touch.ask t).frame
              have hsent := hasked.tail (.attach cli hask hmem)
              simp only [attach, ends_bind, ends_modify]
              rw [ends_ite]
              exact ⟨fun _ => asks_quiet hsent (quiet_setClient _ cli _), fun _ => hsent⟩
          · subst hu
            exact hgrabbed

theorem cancelOwner_asks (ownerId : Int) (reqs : List Nat) :
    Along Asks (cancelOwner ownerId reqs) := by
  induction reqs with
  | nil => exact along_pure _
  | cons req reqs ih =>
      refine along_get_bind fun s => Along.ite ?_ ih
      refine Along.bind (along_modify fun s => ?_) fun _ => ih.bind fun _ => along_pure _
      exact .single (.cancel s req)

theorem queryCancelByOwnerID_asks (ownerId : Int) :
    Along Asks (queryCancelByOwnerID ownerId) := by
  refine along_get_bind fun s => (cancelOwner_asks ownerId _).bind fun _ => ?_
  exact (cancelOwner_asks ownerId _).bind fun _ => along_pure _

theorem queryCancelByReqID_asks (queryId : Int) : Along Asks (queryCancelByReqID queryId) := by
  refine Along.ite (along_pure _) (along_get_bind fun s => ?_)
  refine (along_assertThat _ _).bind fun _ => (along_assertThat _ _).bind fun _ => ?_
  refine Along.bind (along_modify fun s => ?_) fun _ => along_pure _
  exact .single (.cancel s _)

theorem userCall_asks (hf : Formed (s, m)) (hm : m.fresh = none) (u : UserCall) :
    Ends (userCall env u) s (fun _ t => Asks s t) fun _ t => Asks s t := by
  cases u with
  | sendReq sqlQuery hasCb ownerId =>
      rw [userCall, ends_bind]
      exact sendReq_asks hf hm sqlQuery hasCb ownerId
  | cancelByOwnerID ownerId =>
      rw [userCall, ends_bind]
      exact queryCancelByOwnerID_asks ownerId s
  | cancelByReqID queryId =>
      rw [userCall, ends_bind]
      exact queryCancelByReqID_asks queryId s

theorem userCalls_asks (hf : Formed (s, m)) (hm : m.fresh = none) (us : List UserCall) :
    Ends (userCalls env us) s (fun _ t => Asks s t) fun _ t => Asks s t := by
  induction us generalizing s with
  | nil => exact .refl
  | cons u us ih =>
      rw [userCalls, ends_bind]
      refine ((userCall_asks hf hm u).and (userCall_sends hf .refl hm u)).mono
        (fun _ t ht => ?_) fun _ _ he => he.1
      obtain ⟨hasks, hsends⟩ := ht
      refine (ih (sends_formed hsends hf)).mono (fun _ _ hu => ?_) fun _ _ hu => ?_
      · exact hasks.trans hu
      · exact hasks.trans hu

end UserCalls

/-! ## The event loop -/

section Loop

variable {s : EvAIOPQBase} {m : Mode} {owed : Option Nat}

theorem moves_asks {t : EvAIOPQBase} (h : Asks s t) : Moves (s, owed) (t, owed) := by
  induction h with
  | refl => exact .refl
  | tail _ hstep ih => exact ih.tail (.ask hstep)

theorem moves_quiet {t : EvAIOPQBase} (h : Quiet s t) : Moves (s, owed) (t, owed) :=
  moves_asks (.single (.quiet h))

/-- Where a handler aborts, a request may be owed. -/
def Broken (s t : EvAIOPQBase) : Prop := ∃ owed, Moves (s, none) (t, owed)

theorem Along.moves {α : Type} {x : M α} (hx : Along Quiet x) :
    Ends x s (fun _ t => Moves (s, none) (t, none)) fun _ t => Broken s t :=
  (hx s).mono (fun _ _ hq => moves_quiet hq) fun _ _ hq => ⟨none, moves_quiet hq⟩

theorem Formed.calledBack (hf : Formed (s, m)) (req : Nat) : Formed (s.calledBack req, m) := by
  have hmark : Formed (s.setRequest req fun r => { r with cbCalled := true }, m) :=
    hf.mark (fun _ => rfl) fun _ => rfl
  exact hmark.frame (frame_note _ _)

theorem Formed.setParent (hf : Formed (s, m)) (req cli : Nat) :
    Formed (s.setParent req cli, m) :=
  hf.mark (fun _ => rfl) fun _ => rfl

theorem invokeCb_asks (hf : Formed (s, m)) (hm : m.fresh = none) (req : Nat) :
    Ends (invokeCb env req) s (fun _ t => Asks (s.calledBack req) t)
      fun _ t => t = s ∨ Asks (s.calledBack req) t := by
  simp only [invokeCb, ends_bind, ends_get, ends_assertThat, ends_modify, ends_ask]
  refine ⟨fun _ => ?_, fun _ => by simp⟩
  have hasked : Asks (s.calledBack req) _ := .single (.quiet (quiet_clock (s.calledBack req)))
  have hformed := (hf.calledBack req).frame (Touch.ask _).frame
  exact (userCalls_asks hformed hm _).mono (fun _ _ ht => hasked.trans ht)
    fun _ _ ht => .inr (hasked.trans ht)

theorem invokeCb_moves (hf : Formed (s, m)) (hm : m.fresh = none) {req : Nat}
    (h : s.Pending req)
    (hheard : s.canceledNotify = true ∨ (s.request req).cancelled = false) :
    Ends (invokeCb env req) s (fun _ t => Moves (s, owed) (t, owed))
      fun _ t => Moves (s, owed) (t, owed) := by
  have hcall : Moves (s, owed) (s.calledBack req, owed) := .single (.call h hheard)
  refine (invokeCb_asks hf hm req).mono (fun _ t ht => hcall.trans (moves_asks ht))
    fun _ t ht => ?_
  rcases ht with rfl | ht
  · exact .refl
  · exact hcall.trans (moves_asks ht)

theorem bufferDispatch_moves (hf : Formed (s, { ticking := true })) :
    Ends (bufferDispatch env) s (fun _ t => Moves (s, none) (t, none)) fun _ t => Broken s t := by
  simp only [bufferDispatch, ends_bind, ends_get]
  cases hhead : s.reqslot.slotPointToHead queryListRequest with
  | none => exact .refl
  | some req =>
      simp only [ends_bind]
      refine ((clientGrabFree_quiet true s).and (clientGrabFree_probes .refl true)).mono
        (fun o t ht => ?_) fun _ _ he => ⟨none, moves_quiet he.1⟩
      obtain ⟨hq, hprobes, hpick⟩ := ht
      have hformed : Formed (t, { ticking := true }) := hf.frame hprobes.frame
      have hmem : req ∈ t.requests := by
        rw [EvAIOPQBase.requests, hq.reqslot]
        exact List.mem_of_mem_head? hhead
      have hgrabbed : Moves (s, none) (t, none) := moves_quiet hq
      cases o with
      | none => exact hgrabbed
      | some cli =>
          simp only [ends_bind, ends_get]
          rw [ends_ite]
          refine ⟨fun hcancelled => ?_, fun _ => ?_⟩
          · -- a cancelled request is counted out, and dropped after its callback was told
            simp only [ends_bind, ends_modify]
            have hgiven := hgrabbed.tail (.giveUp hmem hcancelled)
            have hcount : Formed (t.countOut, _) := hformed.frame (Touch.countCancel t).frame
            rw [ends_ite]
            refine ⟨fun hnotify => ?_, fun _ => hgiven.tail (.drop hcount hmem)⟩
            simp only [ends_bind, ends_modify]
            have hlend : Act (t.countOut, _) _ := .lend hmem (hpick cli rfl).2.1
            have hlent := hlend.formed hcount
            have htell := hgiven.trans (moves_quiet
              (quiet_setClient t.countOut cli fun c => { c with aiopqReq := some req }))
            refine ((invokeCb_moves hlent rfl (.inl hmem) (.inl hnotify)).and
              (invokeCb_sends hlent .refl rfl req)).mono (fun _ u hu => ?_)
              fun _ _ he => ⟨_, htell.trans he.1⟩
            obtain ⟨hmoves, hsends⟩ := hu
            have hkept := (sends_gated hsends (hlent.held (by simp))).2 req hmem
            have hback := (Act.giveBack u cli).formed (sends_formed hsends hlent)
            have htold := (htell.trans hmoves).trans
              (moves_quiet (quiet_setClient u cli fun c => { c with aiopqReq := none }))
            exact htold.tail (.drop hback hkept)
          · rw [ends_bind]
            refine (assertSelected_same cli t).mono (fun _ u hu => ?_) fun _ u hu => ?_
            · subst hu
              simp only [ends_bind, ends_modify, ends_ask]
              have hasked := (hgrabbed.tail (.parent t none req cli)).trans
                (moves_quiet (quiet_clock _))
              rw [ends_ite]
              refine ⟨fun _ => hasked, fun _ => ?_⟩
              have hsent := hasked.tail
                (.ask (.attach cli ((hformed.setParent req cli).frame (Touch.ask _).frame) hmem))
              simp only [attach, ends_bind, ends_modify]
              rw [ends_ite]
              exact ⟨fun _ => hsent.trans (moves_quiet (quiet_setClient _ cli _)),
                fun _ => hsent⟩
            · subst hu
              exact ⟨none, hgrabbed⟩

theorem broken_of_moves {t u : EvAIOPQBase} (h : Moves (s, none) (t, none)) (hb : Broken t u) :
    Broken s u := by
  obtain ⟨owed, hmoves⟩ := hb
  exact ⟨owed, h.trans hmoves⟩

theorem dispatchLoop_moves (hf : Formed (s, { ticking := true })) (fuel : Nat) :
    Ends (dispatchLoop env fuel) s (fun _ t => Moves (s, none) (t, none))
      fun _ t => Broken s t := by
  induction fuel generalizing s with
  | zero => exact ⟨none, .refl⟩
  | succ fuel ih =>
      rw [dispatchLoop, ends_bind]
      refine ((bufferDispatch_moves hf).and (bufferDispatch_path hf .refl)).mono
        (fun _ t ht => ?_) fun _ _ he => he.1
      obtain ⟨hmoves, hpath⟩ := ht
      rw [ends_ite]
      refine ⟨fun _ => hmoves, fun _ => ?_⟩
      rw [ends_bind]
      exact (ih (path_formed hpath hf)).mono (fun _ _ hu => hmoves.trans hu)
        fun _ _ hu => broken_of_moves hmoves hu

theorem bufferedRequestTimerTick_moves (hf : Formed (s, .idle)) (fuel : Nat) :
    Ends (bufferedRequestTimerTick env fuel) s (fun _ t => Moves (s, none) (t, none))
      fun _ t => Broken s t := by
  simp only [bufferedRequestTimerTick, ends_bind, ends_modify, ends_get]
  have hstart : Moves (s, none) ({ s with timerId := -1 }, none) :=
    moves_quiet ⟨rfl, rfl, rfl, rfl, rfl, rfl, rfl, rfl⟩
  rw [ends_ite]
  refine ⟨fun _ => hstart.trans (moves_quiet ⟨rfl, rfl, rfl, rfl, rfl, rfl, rfl, rfl⟩),
    fun _ => ?_⟩
  rw [ends_bind]
  refine (dispatchLoop_moves ((Act.tickStart s).formed hf) fuel).mono (fun count t ht => ?_)
    fun _ _ hb => broken_of_moves hstart hb
  simp only [ends_bind, ends_modify]
  have hdone := (hstart.trans ht).trans
    (moves_quiet (quiet_countFail t (if count == 0 then t.countFail + 1 else 0)))
  exact (Along.moves armTimer_quiet).mono (fun _ _ hu => hdone.trans hu)
    fun _ _ hb => broken_of_moves hdone hb

/-- The end of `EvAIOPQClientEventRead`, after the callback. -/
def leave (cli req : Nat) : M Unit := do
  let s ← get
  assertThat (s.clients cli).busy (.replyNotBusy cli)
  modify fun s => s.detach cli req
  requestDestroy req

theorem leave_moves (hf : Formed (s, .idle)) {cli req : Nat}
    (hreq : (s.clients cli).aiopqReq = some req) :
    Ends (leave cli req) s (fun _ t => Moves (s, none) (t, none)) fun _ t => Broken s t := by
  simp only [leave, requestDestroy, ends_bind, ends_get, ends_assertThat, ends_modify]
  refine ⟨fun _ => .single (.release hf ?_), fun _ => ⟨none, .refl⟩⟩
  exact hf.attached cli req (by simp [Mode.idle]) hreq

theorem invokeAndLeave_moves (hf : Formed (s, .idle)) {cli req : Nat}
    (hreq : (s.clients cli).aiopqReq = some req) :
    Ends (invokeAndLeave env cli req) s (fun _ t => Moves (s, none) (t, none))
      fun _ t => Broken s t := by
  simp only [invokeAndLeave, ends_bind, ends_get]
  rw [ends_ite]
  refine ⟨fun _ => ?_, fun _ => leave_moves hf hreq⟩
  rw [ends_ite]
  refine ⟨fun hheard => ?_, fun _ => leave_moves hf hreq⟩
  rw [ends_bind]
  have hmem : req ∈ s.replies := hf.attached cli req (by simp [Mode.idle]) hreq
  refine ((invokeCb_moves hf rfl (.inr hmem) (by simpa using hheard)).and
    (invokeCb_sends hf .refl rfl req)).mono (fun _ t ht => ?_) fun _ _ he => ⟨none, he.1⟩
  obtain ⟨hmoves, hsends⟩ := ht
  exact (leave_moves (sends_formed hsends hf) (sends_attached hsends hreq)).mono
    (fun _ _ hu => hmoves.trans hu) fun _ _ hb => broken_of_moves hmoves hb

theorem clientEventRead_moves (hf : Formed (s, .idle)) (cli : Nat) :
    Ends (clientEventRead env cli) s (fun _ t => Moves (s, none) (t, none))
      fun _ t => Broken s t := by
  simp only [clientEventRead, ends_bind, ends_get]
  cases hreq : (s.clients cli).aiopqReq with
  | none => exact .refl
  | some req =>
      simp only [ends_bind, ends_ask]
      have hasked : Moves (s, none) _ := moves_quiet (quiet_clock s)
      rw [ends_ite]
      refine ⟨fun _ => hasked, fun _ => ?_⟩
      exact (invokeAndLeave_moves (hf.frame (Touch.ask s).frame) hreq).mono
        (fun _ _ ht => hasked.trans ht) fun _ _ hb => broken_of_moves hasked hb

theorem clientEventWrite_quiet (cli : Nat) (fd canWriteSz : Int) :
    Along Quiet (clientEventWrite env cli fd canWriteSz) := by
  refine Along.ite (along_pure _) ((along_assertThat _ _).bind fun _ => ?_)
  refine Along.bind ?_ fun _ => along_pure _
  refine ask_quiet.bind fun a => Along.ite ?_ (Along.ite ?_ (Along.ite ?_ ?_))
  · exact Along.bind (along_modify fun s => quiet_setClient s cli _) fun _ => along_pure _
  · exact Along.bind (along_modify fun s => quiet_setClient s cli _) fun _ => along_pure _
  · exact along_pure _
  · exact along_throw _

theorem clientCheckConnHealthCheck_quiet (cli : Nat) :
    Along Quiet (clientCheckConnHealthCheck env cli) := by
  refine ask_quiet.bind fun a => Along.bind (ask_quiet.bind fun _ => along_pure _) fun _ => ?_
  refine Along.ite (clientEventClose_quiet cli _) ?_
  refine clientCheckConnReady_quiet.bind fun _ => Along.ite (clientEventClose_quiet cli _) ?_
  exact along_modify fun s => quiet_markOnline s cli

theorem healthFrom_quiet (cli n : Nat) : Along Quiet (healthFrom env cli n) := by
  induction n generalizing cli with
  | zero => exact along_pure _
  | succ n ih => exact (clientCheckConnHealthCheck_quiet cli).bind fun _ => ih (cli + 1)

theorem checkDecreasePQCliTimer_quiet : Along Quiet (checkDecreasePQCliTimer env) := by
  have hrearm : Along Quiet (do
      let s ← get
      if s.decreaseTimerId < 0 then
        let id ← timerAdd env
        modify fun s => { s with decreaseTimerId := id }) := by
    refine along_get_bind fun s => Along.ite (timerAdd_quiet.bind fun id => ?_) (along_pure _)
    exact along_modify fun _ => ⟨rfl, rfl, rfl, rfl, rfl, rfl, rfl, rfl⟩
  refine Along.bind (along_modify fun _ => ⟨rfl, rfl, rfl, rfl, rfl, rfl, rfl, rfl⟩) fun _ => ?_
  refine along_get_bind fun s₀ => Along.ite (along_pure _) (Along.ite ?_ hrearm)
  refine ask_quiet.bind fun a => Along.ite (Along.bind (along_modify fun s => ?_) fun _ => hrearm)
    hrearm
  have hoff := quiet_markOffline s (s₀.cliCountCur - 1)
  exact ⟨hoff.reqslot, hoff.countCur, hoff.countSuccess, hoff.countCancel,
    hoff.countCancelNotified, hoff.countTotal, hoff.canceledNotify, hoff.called⟩

/-- **One event is a sequence of moves.** -/
theorem handle_moves (hf : Formed (s, .idle)) (e : Event) :
    Ends (handle env e) s (fun _ t => Moves (s, none) (t, none)) fun _ t => Broken s t := by
  have onClient_moves : ∀ (cli : Nat) (x : M Unit),
      Ends x s (fun _ t => Moves (s, none) (t, none)) (fun _ t => Broken s t) →
      Ends (onClient cli x) s (fun _ t => Moves (s, none) (t, none)) fun _ t => Broken s t := by
    intro cli x hx
    simp only [onClient, ends_bind, ends_get]
    rw [ends_ite]
    exact ⟨fun _ => hx, fun _ => .refl⟩
  cases e with
  | user u =>
      exact (userCall_asks hf rfl u).mono (fun _ _ ht => moves_asks ht)
        fun _ _ ht => ⟨none, moves_asks ht⟩
  | dispatchTick fuel =>
      simp only [handle, ends_bind, ends_get]
      rw [ends_ite]
      exact ⟨fun _ => bufferedRequestTimerTick_moves hf fuel, fun _ => .refl⟩
  | healthTick => exact Along.moves (along_get_bind fun _ => healthFrom_quiet 0 _)
  | decreaseTick =>
      simp only [handle, ends_bind, ends_get]
      rw [ends_ite]
      exact ⟨fun _ => Along.moves checkDecreasePQCliTimer_quiet, fun _ => .refl⟩
  | readReady cli => exact onClient_moves cli _ (clientEventRead_moves hf cli)
  | writeReady cli fd canWriteSz =>
      exact onClient_moves cli _ (Along.moves (clientEventWrite_quiet cli fd canWriteSz))
  | eof cli fd => exact onClient_moves cli _ (Along.moves (clientEventClose_quiet cli fd))

theorem baseOpen_quiet : Along Quiet (baseOpen env) := by
  refine timerAdd_quiet.bind fun id => Along.bind (along_modify fun _ => ?_) fun _ => ?_
  · exact ⟨rfl, rfl, rfl, rfl, rfl, rfl, rfl, rfl⟩
  · refine along_get_bind fun s => (connectFrom_quiet _ _).bind fun _ => along_modify fun _ => ?_
    exact ⟨rfl, rfl, rfl, rfl, rfl, rfl, rfl, rfl⟩

/-- What holds of a live state and of a broken one. -/
def Reached (s₀ : EvAIOPQBase) : Config → Prop :=
  Runs.Holds (fun s => Formed (s, .idle) ∧ Moves (s₀, none) (s, none)) fun _ t => Broken s₀ t

theorem Reached.run {s₀ : EvAIOPQBase} {c : Config} (h : Reached s₀ c) (evs : List Event) :
    Reached s₀ (Runs.run (handle env) c evs) := by
  refine Runs.invariant_run (fun e s hs => ?_) h evs
  obtain ⟨hf, hmoves⟩ := hs
  refine ((handle_moves hf e).and (handle_path hf e .refl)).mono (fun _ t ht => ?_)
    fun _ _ he => broken_of_moves hmoves he.1
  exact ⟨path_formed ht.2 hf, hmoves.trans ht.1⟩

/-- **Every run is a sequence of moves** from the new pool. -/
theorem runFrom_reached (env : Nat → Answer) (conf : EvAIOPQBaseConf) (evs : List Event) :
    Reached (baseNew conf) (runFrom env conf evs) := by
  refine Reached.run ?_ evs
  have hnew := formed_baseNew conf
  have hopen := (Along.moves (@baseOpen_quiet env) (s := baseNew conf)).and
    (baseOpen_path env conf)
  unfold Reached
  rcases exec_of_ends hopen with ⟨hnone, _, h⟩ | ⟨f, hsome, h⟩
  · have hlive := And.intro (path_formed h.2 hnew) h.1
    simpa [Runs.Holds, opened, hnone] using hlive
  · have hstopped := h.1
    simpa [Runs.Holds, opened, hsome] using hstopped

end Loop

end EvAIOPQ
