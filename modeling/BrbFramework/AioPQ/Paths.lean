import BrbFramework.AioPQ.Acts

/-!
# Every handler is a path

Each handler is executed symbolically once, and what is kept of it is the path
of acts it takes: when it returns, and when it aborts, together with what the
fault tells about the point where it was raised. The statements carry the
start of the path along, so that a caller passes the path it has come so far.
-/

namespace EvAIOPQ

open Relation Handler BrbData

/-- A fault that no search for a free client is to blame for. -/
def Fault.harmless : Fault → Prop
  | .socketMismatch _ => True
  | _ => False

/-- What a fault tells about the point where it was raised. -/
def Blame (f : Fault) (p : Point) : Prop :=
  match f with
  | .clientOffline cli => Obs.ready cli false ∈ p.1.log
  | .clientBusy _ => False
  | .requestAttached cli => p.2.held = none ∧ (p.1.clients cli).busy = false ∧
      (p.1.clients cli).aiopqReq ≠ none
  | .slotInUse _ => False
  | _ => True

/-- Where a handler may abort after the path that began at `p`. -/
def Stopped (p : Point) (f : Fault) (t : EvAIOPQBase) : Prop :=
  ∃ m, Path p (t, m) ∧ Blame f (t, m)

variable {env : Nat → Answer}

@[simp] theorem ends_ask {s : EvAIOPQBase} {Q : Answer → EvAIOPQBase → Prop}
    {E : Fault → EvAIOPQBase → Prop} :
    Ends (ask env) s Q E ↔ Q (env s.clock) { s with clock := s.clock + 1 } := Iff.rfl

theorem ends_timerAdd {s : EvAIOPQBase} {Q : Int → EvAIOPQBase → Prop}
    {E : Fault → EvAIOPQBase → Prop} (h : ∀ id, Q id { s with clock := s.clock + 1 }) :
    Ends (timerAdd env) s Q E := by
  simp only [timerAdd, ends_bind, ends_ask]
  split <;> exact h _

/-! ## Searching for a client -/

section Search

variable {s₀ s : EvAIOPQBase} {cli : Nat}

def Lost (s₀ : EvAIOPQBase) (f : Fault) (t : EvAIOPQBase) : Prop :=
  Probes s₀ t ∧ f.harmless

theorem probes_touch {t : EvAIOPQBase} (h : Probes s₀ s) (ht : Touch s t) : Probes s₀ t :=
  h.tail (.touch ht)

theorem probes_ask (h : Probes s₀ s) : Probes s₀ { s with clock := s.clock + 1 } :=
  probes_touch h (.ask s)

theorem clientEventClose_probes (h : Probes s₀ s) (fd : Int) :
    Ends (clientEventClose env cli fd) s
      (fun _ t => Probes s₀ t ∧ t.cliCountCur = s.cliCountCur ∧
        (t.clients cli).online = false)
      (Lost s₀) := by
  simp only [clientEventClose, ends_bind, ends_ask, ends_assertThat, ends_modify]
  refine ⟨fun _ => ⟨probes_touch (probes_ask h) (.close _ cli), ?_, ?_⟩,
    fun _ => ⟨probes_ask h, trivial⟩⟩
  · exact markOffline_countCur _ cli
  · exact markOffline_online { s with clock := s.clock + 1 } cli

theorem clientCheckPollingStatus_probes (h : Probes s₀ s) :
    Ends (clientCheckPollingStatus env cli) s
      (fun ready t => Probes s₀ t ∧ t.cliCountCur = s.cliCountCur ∧
        (ready = true → t.clients = s.clients))
      (Lost s₀) := by
  simp only [clientCheckPollingStatus, clientCheckConnReady, ends_bind, ends_ask]
  have h' := probes_ask (probes_ask h)
  cases hstatus : (env (s.clock + 1)).connStatus with
  | ok =>
      cases hpoll : (env s.clock).polling <;>
        simp [h']
  | _ =>
      simp only [ends_pure, ends_bind, ends_modify, Bool.not_false, if_true]
      refine (clientEventClose_probes h' _).mono (fun _ t ht => ?_) (fun _ _ he => he)
      obtain ⟨hprobes, hcount, hoff⟩ := ht
      rw [markOffline_of_offline t cli hoff]
      exact ⟨hprobes, hcount, by simp⟩

theorem clientConnect_probes (h : Probes s₀ s) :
    Ends (clientConnect env cli) s
      (fun _ t => Probes s₀ t ∧ t.cliCountCur = s.cliCountCur) (Lost s₀) := by
  simp only [clientConnect, ends_bind, ends_modify]
  have h' := probes_touch h (.client s cli
    (fun c => { c with pqState := .connecting, cliId := cli }) (fun _ => rfl) (fun _ => rfl)
    (fun _ => rfl))
  refine (clientCheckPollingStatus_probes h').mono (fun ready t ht => ?_) (fun _ _ he => he)
  obtain ⟨hprobes, hcount, -⟩ := ht
  cases ready with
  | false => exact ⟨hprobes, hcount⟩
  | true => exact ⟨probes_touch hprobes (.online t cli), (markOnline_countCur t cli).trans hcount⟩

theorem connectFrom_probes (h : Probes s₀ s) (n : Nat) :
    Ends (connectFrom env cli n) s
      (fun _ t => Probes s₀ t ∧ t.cliCountCur = s.cliCountCur) (Lost s₀) := by
  induction n generalizing s cli with
  | zero => exact ⟨h, rfl⟩
  | succ n ih =>
      simp only [connectFrom, ends_bind]
      refine (clientConnect_probes h).mono (fun _ t ht => ?_) (fun _ _ he => he)
      refine (ih ht.1).mono (fun _ u hu => ?_) (fun _ _ he => he)
      exact ⟨hu.1, hu.2.trans ht.2⟩

theorem growFrom_probes (h : Probes s₀ s) (n : Nat) :
    Ends (growFrom env cli n) s (fun _ t => Probes s₀ t) (Lost s₀) := by
  induction n generalizing s cli with
  | zero => exact h
  | succ n ih =>
      simp only [growFrom, ends_bind, ends_modify]
      refine (clientConnect_probes h).mono (fun _ t ht => ?_) (fun _ _ he => he)
      exact ih (ht.1.tail (.grow t _ (Nat.le_succ _)))

theorem baseClientPoolInitN_probes (h : Probes s₀ s) (n : Nat) :
    Ends (baseClientPoolInitN env n) s (fun _ t => Probes s₀ t) (Lost s₀) := by
  simp only [baseClientPoolInitN, ends_bind, ends_get]
  rw [ends_ite]
  refine ⟨fun _ => ?_, fun _ => ?_⟩
  · rw [ends_bind]
    refine ends_timerAdd fun id => ?_
    simp only [ends_bind, ends_modify]
    exact growFrom_probes (probes_touch (probes_ask h) (.decreaseTimer _ id)) _
  · exact growFrom_probes h _

/-- What the search says about the client it picked. -/
def Picked (t : EvAIOPQBase) (cli : Nat) : Prop :=
  cli < t.cliCountCur ∧ (t.clients cli).busy = false ∧
    Obs.ready cli (t.clients cli).online ∈ t.log

theorem picked_select {ts : Int} (hcli : cli < s.cliCountCur)
    (hbusy : (s.clients cli).busy = false) : Picked (s.select cli ts) cli := by
  refine ⟨hcli, ?_, ?_⟩
  · have hview := setClient_view s cli (·.busy) (fun c => { c with lastGrabTs := ts }) rfl cli
    exact hview.trans hbusy
  · simp [EvAIOPQBase.select, EvAIOPQBase.setClient, EvAIOPQBase.note]

theorem searchFree_probes (h : Probes s₀ s) (n : Nat) (hn : cli + n ≤ s.cliCountCur) :
    Ends (searchFree env cli n) s
      (fun r t => Probes s₀ t ∧ ∀ c, r = some c → Picked t c) (Lost s₀) := by
  induction n generalizing s cli with
  | zero => exact ⟨h, by simp⟩
  | succ n ih =>
      simp only [searchFree, ends_bind, ends_get]
      rw [ends_ite]
      refine ⟨fun _ => ih h (by omega), fun hbusy => ?_⟩
      rw [ends_bind]
      refine (clientCheckPollingStatus_probes h).mono (fun ready t ht => ?_)
        (fun _ _ he => he)
      obtain ⟨hprobes, hcount, hclients⟩ := ht
      rw [ends_ite]
      refine ⟨fun _ => ih hprobes (by omega), fun hready => ?_⟩
      simp only [ends_bind, ends_ask]
      rw [ends_ite]
      refine ⟨fun _ => ih (probes_ask hprobes) (by simp only; omega), fun _ => ?_⟩
      have hfree : (t.clients cli).busy = false := by
        rw [hclients (by simpa using hready)]
        simpa using hbusy
      have hcli : cli < t.cliCountCur := by omega
      simp only [ends_bind, ends_modify, ends_pure]
      refine ⟨(probes_ask hprobes).tail (.select _ cli _ hcli hfree), fun c hc => ?_⟩
      obtain rfl : cli = c := by simpa using hc
      exact picked_select (s := { t with clock := t.clock + 1 }) hcli hfree

theorem searchAgain_probes (h : Probes s₀ s) (tries : Nat) :
    Ends (searchAgain env tries) s
      (fun r t => Probes s₀ t ∧ ∀ c, r = some c → Picked t c) (Lost s₀) := by
  induction tries generalizing s with
  | zero => exact ⟨h, by simp⟩
  | succ tries ih =>
      simp only [searchAgain, ends_bind, ends_get]
      refine (searchFree_probes h _ (by omega)).mono (fun r t ht => ?_) (fun _ _ he => he)
      cases r with
      | some c => exact ht
      | none =>
          simp only [ends_bind, ends_get]
          rw [ends_ite]
          refine ⟨fun _ => ?_, fun _ => ⟨ht.1, by simp⟩⟩
          rw [ends_bind]
          exact (baseClientPoolInitN_probes ht.1 _).mono (fun _ _ hu => ih hu) (fun _ _ he => he)

theorem clientGrabFree_refused (hgate : s.pqbufferPending = true) :
    Ends (clientGrabFree env false) s (fun r t => r = none ∧ t = s) (fun _ _ => False) := by
  simp [clientGrabFree, hgate]

theorem clientGrabFree_probes (h : Probes s₀ s) (outstandingFlag : Bool) :
    Ends (clientGrabFree env outstandingFlag) s
      (fun r t => Probes s₀ t ∧ ∀ c, r = some c → Picked t c) (Lost s₀) := by
  simp only [clientGrabFree, ends_bind, ends_get]
  rw [ends_ite]
  exact ⟨fun _ => ⟨h, by simp⟩, fun _ => searchAgain_probes h 2⟩

end Search

/-! ## User calls -/

abbrev Sends := ReflTransGen Send

/-- Where a user call may abort after the path that began at `p`. -/
def Halted (p : Point) (f : Fault) (t : EvAIOPQBase) : Prop :=
  ∃ m, Sends p (t, m) ∧ Blame f (t, m)

theorem sends_formed {p q : Point} (h : Sends p q) (hp : Formed p) : Formed q := by
  induction h with
  | refl => exact hp
  | tail _ hstep ih => exact hstep.formed ih

theorem sends_attached {p q : Point} (h : Sends p q) {cli req : Nat}
    (hreq : (p.1.clients cli).aiopqReq = some req) :
    (q.1.clients cli).aiopqReq = some req := by
  induction h with
  | refl => exact hreq
  | tail _ hstep ih =>
      cases hstep with
      | touch m h => exact (h.frame.attached cli).trans ih
      | probe m _ h => exact (h.frame.attached cli).trans ih
      | @sendNow s m req' cli' _ _ _ _ _ hnone =>
          have hne : cli ≠ cli' := by
            rintro rfl
            exact absurd (hnone.symm.trans ih) (by simp)
          simpa [attach_clients, hne] using ih
      | _ => exact ih

theorem sends_gated {p q : Point} (h : Sends p q) (hgate : p.1.pqbufferPending = true) :
    q.1.pqbufferPending = true ∧ ∀ req ∈ p.1.requests, req ∈ q.1.requests := by
  induction h with
  | refl => exact ⟨hgate, fun _ h => h⟩
  | tail _ hstep ih =>
      obtain ⟨hg, hreqs⟩ := ih
      cases hstep with
      | touch m h =>
          have hf := h.frame
          exact ⟨hf.gate.trans hg, by simpa [EvAIOPQBase.requests, hf.reqslot] using hreqs⟩
      | probe m _ h =>
          have hf := h.frame
          exact ⟨hf.gate.trans hg, by simpa [EvAIOPQBase.requests, hf.reqslot] using hreqs⟩
      | accept r _ hgrab _ _ =>
          refine ⟨hg, fun req hmem => ?_⟩
          rw [accept_requests hgrab]
          exact List.mem_append_left _ (hreqs req hmem)
      | mark s m req f _ _ _ => exact ⟨hg, hreqs⟩
      | arm s m id _ => exact ⟨hg, hreqs⟩
      | queue _ _ => exact ⟨rfl, hreqs⟩
      | refuse _ => exact ⟨rfl, hreqs⟩
      | sendNow _ hopen _ _ _ _ => exact absurd (hopen.symm.trans hg) (by simp)

section UserCalls

variable {p : Point} {s : EvAIOPQBase} {m : Mode}

theorem sends_touch {t : EvAIOPQBase} (h : Sends p (s, m)) (ht : Touch s t) :
    Sends p (t, m) := h.tail (.touch m ht)

theorem sends_probes {t : EvAIOPQBase} (h : Sends p (s, m)) (hm : m.held = none)
    (ht : Probes s t) : Sends p (t, m) := by
  induction ht with
  | refl => exact h
  | tail _ hstep ih => exact ih.tail (.probe m hm hstep)

theorem mode_restore (hm : m.fresh = none) : ({ m with fresh := none } : Mode) = m := by
  cases m
  simp_all

theorem armTimer_sends (h : Sends p (s, m)) :
    Ends (armTimer env) s (fun _ t => Sends p (t, m) ∧ Armed t) (fun _ _ => False) := by
  simp only [armTimer, ends_bind, ends_get]
  rw [ends_ite]
  refine ⟨fun hneg => ?_, fun hpos => ⟨h, Or.inl (by simpa using hpos)⟩⟩
  rw [ends_bind]
  refine ends_timerAdd fun id => ?_
  simp only [ends_bind, ends_modify]
  have harm := (sends_touch h (.ask s)).tail (.arm _ m id hneg)
  rw [ends_ite]
  refine ⟨fun _ => ?_, fun hid => ⟨harm, Or.inl (by simpa using hid)⟩⟩
  exact ⟨sends_touch harm (.note _ .timerFailed rfl), Or.inr (by simp [EvAIOPQBase.note])⟩

theorem requestEnqueue_ends (hs : Formed (s, m)) (sqlQuery : String) (hasCb : Bool)
    (ownerId : Int) :
    Ends (requestEnqueue sqlQuery hasCb ownerId) s
      (fun o t => (o = none ∧ t = s) ∨ ∃ req reqslot r, o = some req ∧
        s.reqslot.slotGrab = some (req, reqslot) ∧ r.serial = s.countTotal ∧
        r.reqId = req ∧ t = { s with reqslot := reqslot.modifyData req fun _ => r })
      (fun _ _ => False) := by
  simp only [requestEnqueue, ends_bind, ends_get]
  rw [ends_ite]
  refine ⟨fun _ => Or.inl ⟨rfl, rfl⟩, fun _ => ?_⟩
  simp only [requestNew, ends_bind, ends_get]
  cases hgrab : s.reqslot.slotGrab with
  | none => exact Or.inl ⟨rfl, rfl⟩
  | some g =>
      obtain ⟨req, reqslot⟩ := g
      have hmem : req ∈ s.reqslot.slots := by
        simp [(MemSlotBase.slotGrab_eq_some hgrab).1]
      have hunused : (s.request req).inUse = false := hs.freeUnused req hmem
      simp only [ends_bind, ends_set, ends_assertThat, ends_modify, ends_pure, hunused]
      refine ⟨fun _ => Or.inr ⟨req, reqslot, _, rfl, rfl, rfl, ?_, rfl⟩, by simp⟩
      exact MemSlotBase.slotGrab_id hgrab

theorem assertSelected_ends {cli : Nat} {Q : PUnit → EvAIOPQBase → Prop}
    {E : Fault → EvAIOPQBase → Prop} (hpick : Picked s cli)
    (hQ : (s.clients cli).online = true → (s.clients cli).aiopqReq = none → Q PUnit.unit s)
    (hoff : (s.clients cli).online = false → E (.clientOffline cli) s)
    (hatt : (s.clients cli).aiopqReq ≠ none → E (.requestAttached cli) s) :
    Ends (assertSelected cli) s Q E := by
  simp only [assertSelected, ends_bind, ends_get, ends_assertThat, hpick.2.1]
  refine ⟨fun hon => ⟨fun _ => ⟨fun hnone => hQ hon (by simpa using hnone), fun hsome => ?_⟩,
    by simp⟩, hoff⟩
  refine hatt fun hnone => ?_
  simp [hnone] at hsome

theorem picked_blame {cli : Nat} (hpick : Picked s cli) (hm : m.held = none) :
    ((s.clients cli).online = false → Blame (.clientOffline cli) (s, m)) ∧
      ((s.clients cli).aiopqReq ≠ none → Blame (.requestAttached cli) (s, m)) := by
  obtain ⟨-, hbusy, hready⟩ := hpick
  refine ⟨fun hoff => ?_, fun hatt => ⟨hm, hbusy, hatt⟩⟩
  rw [hoff] at hready
  exact hready

theorem clientFlushBegin_touch (cli : Nat) :
    Touch s (s.setClient cli fun c => { c with flushNeed := true }) :=
  .client s cli _ (fun _ => rfl) (fun _ => rfl) (fun _ => rfl)

theorem sendReq_sends (hp : Formed p) (h : Sends p (s, m)) (hm : m.fresh = none)
    (sqlQuery : Option String) (hasCb : Bool) (ownerId : Int) :
    Ends (sendReq env sqlQuery hasCb ownerId) s (fun _ t => Sends p (t, m)) (Halted p) := by
  have hs : Formed (s, m) := sends_formed h hp
  cases sqlQuery with
  | none => exact h
  | some sqlQuery =>
      simp only [sendReq, ends_bind]
      refine (requestEnqueue_ends hs sqlQuery hasCb ownerId).mono (fun o t ht => ?_)
        (fun _ _ he => he.elim)
      rcases ht with ⟨rfl, rfl⟩ | ⟨req, reqslot, r, rfl, hgrab, hserial, hreqId, rfl⟩
      · exact h
      simp only [ends_bind, ends_modify]
      have haccept := h.tail (.accept r hm hgrab hserial hreqId)
      -- what is left to do once no client was found
      have hqueue : ∀ t, Sends p (t, { m with fresh := some req }) →
          Ends (armTimer env) t (fun _ t =>
            Sends p ({ t with pqbufferPending := true }, m)) (Halted p) := by
        intro t ht
        refine (armTimer_sends ht).mono (fun _ u hu => ?_) (fun _ _ he => he.elim)
        have hdone := hu.1.tail (.queue (by simp) hu.2)
        rwa [show ({ m with fresh := none } : Mode) = m from mode_restore hm] at hdone
      by_cases hgate : s.pqbufferPending = true
      · refine (clientGrabFree_refused (s := s.accept reqslot req r) hgate).mono
          (fun o t ht => ?_) (fun _ _ he => he.elim)
        obtain ⟨rfl, rfl⟩ := ht
        simp only [ends_bind, ends_modify, ends_pure]
        exact hqueue _ haccept
      · have hopen : s.pqbufferPending = false := by simpa using hgate
        have hheld : m.held = none := by
          by_contra hne
          exact hgate (hs.held hne)
        refine (clientGrabFree_probes (s := s.accept reqslot req r) .refl false).mono
          (fun o t ht => ?_) (fun f t he => ?_)
        · obtain ⟨hprobes, hpick⟩ := ht
          have hpath := sends_probes (m := { m with fresh := some req }) haccept hheld hprobes
          cases o with
          | none =>
              simp only [ends_bind, ends_modify, ends_pure]
              exact hqueue t hpath
          | some cli =>
              have hcli := hpick cli rfl
              obtain ⟨hoff, hatt⟩ := picked_blame (m := { m with fresh := some req }) hcli hheld
              rw [ends_bind]
              refine assertSelected_ends hcli (fun honline hnone => ?_)
                (fun h => ⟨_, hpath, hoff h⟩) (fun h => ⟨_, hpath, hatt h⟩)
              simp only [ends_bind, ends_ask]
              have hask := sends_touch hpath (.ask t)
              rw [ends_ite]
              refine ⟨fun _ => ?_, fun _ => ?_⟩
              · simp only [ends_bind, ends_modify, ends_pure]
                have hdone := hask.tail (.refuse rfl)
                rwa [show ({ m with fresh := none } : Mode) = m from mode_restore hm] at hdone
              · have hgate' : t.pqbufferPending = false := hprobes.frame.gate.trans hopen
                have hsent := hask.tail
                  (.sendNow rfl hgate' hcli.1 honline hcli.2.1 hnone)
                rw [show ({ m with fresh := none } : Mode) = m from mode_restore hm] at hsent
                simp only [attach, ends_bind, ends_modify]
                rw [ends_ite]
                exact ⟨fun _ => sends_touch hsent (clientFlushBegin_touch cli),
                  fun _ => hsent⟩
        · refine ⟨{ m with fresh := some req }, sends_probes haccept hheld he.1, ?_⟩
          cases f <;> first | trivial | exact he.2.elim

theorem cancelOwner_sends (h : Sends p (s, m)) (ownerId : Int) (reqs : List Nat) :
    Ends (cancelOwner ownerId reqs) s (fun _ t => Sends p (t, m)) (fun _ _ => False) := by
  induction reqs generalizing s with
  | nil => exact h
  | cons req reqs ih =>
      simp only [cancelOwner, ends_bind, ends_get]
      rw [ends_ite]
      refine ⟨fun _ => ?_, fun _ => ih h⟩
      simp only [ends_bind, ends_modify, ends_pure]
      exact ih (h.tail (.mark s m req _ (fun _ => rfl) (fun _ => rfl) (fun _ => rfl)))

theorem queryCancelByOwnerID_sends (h : Sends p (s, m)) (ownerId : Int) :
    Ends (queryCancelByOwnerID ownerId) s (fun _ t => Sends p (t, m)) (fun _ _ => False) := by
  simp only [queryCancelByOwnerID, ends_bind, ends_get, ends_pure]
  refine (cancelOwner_sends h ownerId _).mono (fun _ t ht => ?_) (fun _ _ he => he)
  exact cancelOwner_sends ht ownerId _

theorem queryCancelByReqID_sends (h : Sends p (s, m)) (queryId : Int) :
    Ends (queryCancelByReqID queryId) s (fun _ t => Sends p (t, m)) (Halted p) := by
  simp only [queryCancelByReqID]
  rw [ends_ite]
  refine ⟨fun _ => h, fun _ => ?_⟩
  simp only [ends_bind, ends_get, ends_assertThat, ends_modify, ends_pure]
  refine ⟨fun _ => ⟨fun _ => ?_, fun _ => ⟨m, h, trivial⟩⟩, fun _ => ⟨m, h, trivial⟩⟩
  exact h.tail (.mark s m _ _ (fun _ => rfl) (fun _ => rfl) (fun _ => rfl))

theorem userCall_sends (hp : Formed p) (h : Sends p (s, m)) (hm : m.fresh = none)
    (u : UserCall) :
    Ends (userCall env u) s (fun _ t => Sends p (t, m)) (Halted p) := by
  cases u with
  | sendReq sqlQuery hasCb ownerId =>
      simp only [userCall, ends_bind, ends_pure]
      exact sendReq_sends hp h hm sqlQuery hasCb ownerId
  | cancelByOwnerID ownerId =>
      simp only [userCall, ends_bind, ends_pure]
      exact (queryCancelByOwnerID_sends h ownerId).mono (fun _ _ ht => ht)
        (fun _ _ he => he.elim)
  | cancelByReqID queryId =>
      simp only [userCall, ends_bind, ends_pure]
      exact queryCancelByReqID_sends h queryId

theorem userCalls_sends (hp : Formed p) (h : Sends p (s, m)) (hm : m.fresh = none)
    (us : List UserCall) :
    Ends (userCalls env us) s (fun _ t => Sends p (t, m)) (Halted p) := by
  induction us generalizing s with
  | nil => exact h
  | cons u us ih =>
      simp only [userCalls, ends_bind]
      exact (userCall_sends hp h hm u).mono (fun _ _ ht => ih ht) (fun _ _ he => he)

theorem invokeCb_sends (hp : Formed p) (h : Sends p (s, m)) (hm : m.fresh = none)
    (req : Nat) :
    Ends (invokeCb env req) s (fun _ t => Sends p (t, m)) (Halted p) := by
  simp only [invokeCb, ends_bind, ends_get, ends_assertThat, ends_modify, ends_ask]
  refine ⟨fun _ => ?_, fun _ => ⟨m, h, trivial⟩⟩
  have hmark := h.tail (.mark s m req (fun r => { r with cbCalled := true }) (fun _ => rfl)
    (fun _ => rfl) (fun _ => rfl))
  have hnote := sends_touch hmark (.note _ (.called (s.request req).serial) rfl)
  exact userCalls_sends hp (sends_touch hnote (.ask _)) hm _

end UserCalls

/-! ## The event loop -/

section Loop

variable {p : Point} {s : EvAIOPQBase} {m : Mode}

theorem path_sends {q : Point} (h : Path p (s, m)) (hs : Sends (s, m) q) : Path p q := by
  induction hs with
  | refl => exact h
  | tail _ hstep ih => exact ih.tail (.send hstep)

theorem path_touch {t : EvAIOPQBase} (h : Path p (s, m)) (ht : Touch s t) : Path p (t, m) :=
  path_sends h (.single (.touch m ht))

theorem path_probes {t : EvAIOPQBase} (h : Path p (s, m)) (hm : m.held = none)
    (ht : Probes s t) : Path p (t, m) :=
  path_sends h (sends_probes .refl hm ht)

theorem stopped_of_halted {f : Fault} {t : EvAIOPQBase} (h : Path p (s, m))
    (hf : Halted (s, m) f t) : Stopped p f t := by
  obtain ⟨m', hsends, hblame⟩ := hf
  exact ⟨m', path_sends h hsends, hblame⟩

theorem stopped_of_lost {f : Fault} {t : EvAIOPQBase} (h : Path p (s, m))
    (hm : m.held = none) (hf : Lost s f t) : Stopped p f t := by
  refine ⟨m, path_probes h hm hf.1, ?_⟩
  cases f <;> first | trivial | exact hf.2.elim

theorem bufferDispatch_path (hp : Formed p) (h : Path p (s, { ticking := true })) :
    Ends (bufferDispatch env) s (fun _ t => Path p (t, { ticking := true })) (Stopped p) := by
  simp only [bufferDispatch, ends_bind, ends_get]
  cases hhead : s.reqslot.slotPointToHead queryListRequest with
  | none => exact h
  | some req =>
      simp only [ends_bind]
      refine (clientGrabFree_probes .refl true).mono (fun o t ht => ?_)
        (fun _ _ he => stopped_of_lost h rfl he)
      obtain ⟨hprobes, hpick⟩ := ht
      have hpath := path_probes h rfl hprobes
      obtain ⟨reqs, hreqs⟩ : ∃ reqs, t.requests = req :: reqs := by
        rw [EvAIOPQBase.requests, hprobes.frame.reqslot]
        exact List.head?_eq_some_iff.1 hhead
      have hmem : req ∈ t.requests := by simp [hreqs]
      cases o with
      | none => exact hpath
      | some cli =>
          have hcli := hpick cli rfl
          simp only [ends_bind, ends_get]
          rw [ends_ite]
          refine ⟨fun _ => ?_, fun _ => ?_⟩
          · -- a cancelled request is dropped, after its callback was told
            simp only [ends_bind, ends_modify]
            have hcount := path_touch hpath (.countCancel t)
            rw [ends_ite]
            refine ⟨fun _ => ?_, fun _ => ?_⟩
            · simp only [ends_bind, ends_modify]
              have hfree : (t.clients cli).busy = false := hcli.2.1
              have hlend := hcount.tail (.lend hmem hfree)
              have hformed := path_formed hlend hp
              refine (invokeCb_sends hformed .refl rfl req).mono (fun _ u hu => ?_)
                (fun _ _ he => stopped_of_halted hlend he)
              have hkept := (sends_gated hu (hformed.held (by simp))).2 req hmem
              have hback := (path_sends hlend hu).tail (.giveBack u cli)
              exact hback.tail (.drop hkept)
            · exact hcount.tail (.drop hmem)
          · rw [ends_bind]
            obtain ⟨hoff, hatt⟩ := picked_blame (m := { ticking := true }) hcli rfl
            refine assertSelected_ends hcli (fun honline hnone => ?_)
              (fun h => ⟨_, hpath, hoff h⟩) (fun h => ⟨_, hpath, hatt h⟩)
            simp only [ends_bind, ends_modify, ends_ask]
            have hmark := path_sends hpath (.single (.mark t _ req
              (fun r => { r with parentCli := some cli }) (fun _ => rfl) (fun _ => rfl)
              (fun _ => rfl)))
            have hask := path_touch hmark (.ask _)
            rw [ends_ite]
            refine ⟨fun _ => hask, fun _ => ?_⟩
            have hsent := hask.tail (.dispatch hreqs hcli.1 honline hcli.2.1 hnone)
            simp only [attach, ends_bind, ends_modify]
            rw [ends_ite]
            exact ⟨fun _ => path_touch hsent (clientFlushBegin_touch cli), fun _ => hsent⟩

theorem dispatchLoop_path (hp : Formed p) (h : Path p (s, { ticking := true })) (fuel : Nat) :
    Ends (dispatchLoop env fuel) s (fun _ t => Path p (t, { ticking := true }))
      (Stopped p) := by
  induction fuel generalizing s with
  | zero => exact ⟨_, h, trivial⟩
  | succ fuel ih =>
      simp only [dispatchLoop, ends_bind]
      refine (bufferDispatch_path hp h).mono (fun _ t ht => ?_) (fun _ _ he => he)
      rw [ends_ite]
      refine ⟨fun _ => ht, fun _ => ?_⟩
      simp only [ends_bind, ends_pure]
      exact ih ht

theorem bufferedRequestTimerTick_path (hp : Formed p) (h : Path p (s, .idle)) (fuel : Nat) :
    Ends (bufferedRequestTimerTick env fuel) s (fun _ t => Path p (t, .idle)) (Stopped p) := by
  simp only [bufferedRequestTimerTick, ends_bind, ends_modify, ends_get]
  have hstart := h.tail (.tickStart s)
  rw [ends_ite]
  refine ⟨fun hempty => ?_, fun _ => ?_⟩
  · simp only [ends_bind, ends_modify]
    exact hstart.tail (.tickEmpty (List.isEmpty_iff.1 hempty))
  · rw [ends_bind]
    refine (dispatchLoop_path hp hstart fuel).mono (fun _ t ht => ?_) (fun _ _ he => he)
    simp only [ends_bind, ends_modify]
    refine (armTimer_sends (m := { ticking := true }) .refl).mono (fun _ u hu => ?_)
      (fun _ _ he => he.elim)
    exact (path_sends (path_touch ht (.countFail t _)) hu.1).tail (.tickEnd hu.2)

theorem clientEventRead_path (hp : Formed p) (h : Path p (s, .idle)) (cli : Nat) :
    Ends (clientEventRead env cli) s (fun _ t => Path p (t, .idle)) (Stopped p) := by
  simp only [clientEventRead, ends_bind, ends_get]
  cases hreq : (s.clients cli).aiopqReq with
  | none => exact h
  | some req =>
      simp only [ends_bind, ends_ask]
      have hask := path_touch h (.ask s)
      have hdone : ∀ t, Path p (t, .idle) → (t.clients cli).aiopqReq = some req →
          Ends (do
            let s ← get
            assertThat (s.clients cli).busy (.replyNotBusy cli)
            modify fun s => s.detach cli req
            requestDestroy req) t (fun _ t => Path p (t, .idle)) (Stopped p) := by
        intro t ht hatt
        simp only [requestDestroy, ends_bind, ends_get, ends_assertThat, ends_modify]
        exact ⟨fun hbusy => ht.tail (.release hbusy hatt), fun _ => ⟨_, ht, trivial⟩⟩
      rw [ends_ite]
      refine ⟨fun _ => hask, fun _ => ?_⟩
      simp only [invokeAndLeave, ends_bind, ends_get]
      have hcall : Ends (invokeCb env req) { s with clock := s.clock + 1 }
          (fun _ t => Path p (t, .idle) ∧ (t.clients cli).aiopqReq = some req)
          (Stopped p) := by
        refine (invokeCb_sends (path_formed hask hp) .refl rfl req).mono (fun _ t ht => ?_)
          (fun _ _ he => stopped_of_halted hask he)
        exact ⟨path_sends hask ht, sends_attached ht hreq⟩
      rw [ends_ite]
      refine ⟨fun _ => ?_, fun _ => hdone _ hask hreq⟩
      rw [ends_ite]
      refine ⟨fun _ => ?_, fun _ => hdone _ hask hreq⟩
      rw [ends_bind]
      exact hcall.mono (fun _ t ht => hdone t ht.1 ht.2) (fun _ _ he => he)

theorem clientFlushDispatch_path (h : Path p (s, .idle)) (cli : Nat) :
    Ends (clientFlushDispatch env cli) s (fun _ t => Path p (t, .idle)) (Stopped p) := by
  simp only [clientFlushDispatch, ends_bind, ends_ask]
  have hask := path_touch h (.ask s)
  rw [ends_ite]
  refine ⟨fun _ => ?_, fun _ => ?_⟩
  · exact path_touch hask (.client _ cli (fun c => { c with flushFailed := true })
      (fun _ => rfl) (fun _ => rfl) (fun _ => rfl))
  rw [ends_ite]
  refine ⟨fun _ => ?_, fun _ => ?_⟩
  · exact path_touch hask (.client _ cli (fun c => { c with flushNeed := false })
      (fun _ => rfl) (fun _ => rfl) (fun _ => rfl))
  rw [ends_ite]
  exact ⟨fun _ => hask, fun _ => ⟨_, hask, trivial⟩⟩

theorem clientEventWrite_path (h : Path p (s, .idle)) (cli : Nat) (fd canWriteSz : Int) :
    Ends (clientEventWrite env cli fd canWriteSz) s (fun _ t => Path p (t, .idle))
      (Stopped p) := by
  simp only [clientEventWrite]
  rw [ends_ite]
  refine ⟨fun _ => h, fun _ => ?_⟩
  simp only [ends_bind, ends_assertThat, ends_pure]
  exact ⟨fun _ => clientFlushDispatch_path h cli, fun _ => ⟨_, h, trivial⟩⟩

theorem clientEventClose_path (h : Path p (s, .idle)) (cli : Nat) (fd : Int) :
    Ends (clientEventClose env cli fd) s (fun _ t => Path p (t, .idle)) (Stopped p) :=
  (clientEventClose_probes .refl fd).mono (fun _ _ ht => path_probes h rfl ht.1)
    (fun _ _ he => stopped_of_lost h rfl he)

theorem clientCheckConnHealthCheck_path (h : Path p (s, .idle)) (cli : Nat) :
    Ends (clientCheckConnHealthCheck env cli) s (fun _ t => Path p (t, .idle))
      (Stopped p) := by
  simp only [clientCheckConnHealthCheck, clientCheckSocketConnState, clientCheckConnReady,
    ends_bind, ends_ask, ends_pure]
  have hask := path_touch (path_touch h (.ask s)) (.ask _)
  rw [ends_ite]
  refine ⟨fun _ => clientEventClose_path hask cli _, fun _ => ?_⟩
  simp only [ends_bind, ends_ask]
  have hask' := path_touch hask (.ask _)
  cases (env (s.clock + 1 + 1)).connStatus with
  | ok => exact path_touch hask' (.online _ cli)
  | _ => exact clientEventClose_path hask' cli _

theorem healthFrom_path (h : Path p (s, .idle)) (cli n : Nat) :
    Ends (healthFrom env cli n) s (fun _ t => Path p (t, .idle)) (Stopped p) := by
  induction n generalizing s cli with
  | zero => exact h
  | succ n ih =>
      simp only [healthFrom, ends_bind]
      exact (clientCheckConnHealthCheck_path h cli).mono (fun _ _ ht => ih ht (cli + 1))
        (fun _ _ he => he)

theorem checkDecreasePQCliTimer_path (h : Path p (s, .idle)) :
    Ends (checkDecreasePQCliTimer env) s (fun _ t => Path p (t, .idle)) (Stopped p) := by
  simp only [checkDecreasePQCliTimer, ends_bind, ends_modify, ends_get]
  have hreset := path_touch h (.decreaseTimer s (-1))
  have hrearm : ∀ t, Path p (t, .idle) → Ends (do
      let s ← get
      if s.decreaseTimerId < 0 then
        let id ← timerAdd env
        modify fun s => { s with decreaseTimerId := id }) t (fun _ t => Path p (t, .idle))
        (Stopped p) := by
    intro t ht
    simp only [ends_bind, ends_get]
    rw [ends_ite]
    refine ⟨fun _ => ?_, fun _ => ht⟩
    rw [ends_bind]
    exact ends_timerAdd fun id =>
      path_touch (path_touch ht (.ask t)) (.decreaseTimer _ id)
  rw [ends_ite]
  refine ⟨fun _ => hreset, fun hcount => ?_⟩
  rw [ends_ite]
  refine ⟨fun hbusy => ?_, fun _ => hrearm _ hreset⟩
  simp only [ends_bind, ends_ask]
  have hask := path_touch hreset (.ask _)
  rw [ends_ite]
  refine ⟨fun _ => ?_, fun _ => hrearm _ hask⟩
  rw [ends_bind, ends_modify]
  refine hrearm _ (hask.tail (.decrease ?_ ?_))
  · simp only at hcount ⊢
    omega
  · simpa using hbusy

/-- **One event is a path of acts** from one state between events to the next. -/
theorem handle_path (hp : Formed p) (e : Event) (h : Path p (s, .idle)) :
    Ends (handle env e) s (fun _ t => Path p (t, .idle)) (Stopped p) := by
  have onClient_path : ∀ (cli : Nat) (x : M Unit),
      Ends x s (fun _ t => Path p (t, .idle)) (Stopped p) →
      Ends (onClient cli x) s (fun _ t => Path p (t, .idle)) (Stopped p) := by
    intro cli x hx
    simp only [onClient, ends_bind, ends_get]
    rw [ends_ite]
    exact ⟨fun _ => hx, fun _ => h⟩
  cases e with
  | user u =>
      exact (userCall_sends (path_formed h hp) .refl rfl u).mono
        (fun _ _ ht => path_sends h ht) (fun _ _ he => stopped_of_halted h he)
  | dispatchTick fuel =>
      simp only [handle, ends_bind, ends_get]
      rw [ends_ite]
      exact ⟨fun _ => bufferedRequestTimerTick_path hp h fuel, fun _ => h⟩
  | healthTick =>
      simp only [handle, clientCheckConnHealthTimer, ends_bind, ends_get]
      exact healthFrom_path h 0 _
  | decreaseTick =>
      simp only [handle, ends_bind, ends_get]
      rw [ends_ite]
      exact ⟨fun _ => checkDecreasePQCliTimer_path h, fun _ => h⟩
  | readReady cli => exact onClient_path cli _ (clientEventRead_path hp h cli)
  | writeReady cli fd canWriteSz =>
      exact onClient_path cli _ (clientEventWrite_path h cli fd canWriteSz)
  | eof cli fd => exact onClient_path cli _ (clientEventClose_path h cli fd)

theorem baseOpen_path (env : Nat → Answer) (conf : EvAIOPQBaseConf) :
    Ends (baseOpen env) (baseNew conf) (fun _ t => Path (baseNew conf, .idle) (t, .idle))
      (Stopped (baseNew conf, .idle)) := by
  simp only [baseOpen, ends_bind]
  refine ends_timerAdd fun id => ?_
  simp only [baseClientPoolInitBegin, ends_bind, ends_modify, ends_get]
  have htimer := path_touch (path_touch (p := (baseNew conf, .idle)) .refl (.ask _))
    (.healthTimer _ id)
  refine (connectFrom_probes .refl _).mono (fun _ t ht => ?_)
    (fun _ _ he => stopped_of_lost htimer rfl he)
  have hconn := path_probes htimer rfl ht.1
  refine path_probes hconn rfl (.single (.grow t _ ?_))
  rw [ht.2]
  exact Nat.zero_le _

/-- **Every run is a path of acts** from the new pool. -/
theorem runFrom_path (env : Nat → Answer) (conf : EvAIOPQBaseConf) (evs : List Event) :
    Runs.Holds (fun s => Path (baseNew conf, .idle) (s, .idle))
      (Stopped (baseNew conf, .idle)) (runFrom env conf evs) := by
  refine Runs.invariant_run (fun e s h => handle_path (formed_baseNew conf) e h) ?_ evs
  rcases exec_of_ends (baseOpen_path env conf) with ⟨hnone, _, h⟩ | ⟨f, hsome, h⟩
  · simpa [Runs.Holds, opened, hnone] using h
  · simpa [Runs.Holds, opened, hsome] using h

end Loop

end EvAIOPQ
