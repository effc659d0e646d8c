import BrbFramework.AioPQ.Paths

/-!
# Order of the queries and the dispatch timer

Both send paths take requests from the front of what was accepted. The
invariant is one list: the requests that were sent, followed by those that still
wait, is a subsequence of the requests in the order of their acceptance. A
dispatch moves the boundary inside that list, an immediate send finds nothing
waiting in front of its request, and a dropped request leaves a gap.

The dispatch timer is what moves the waiting requests. It is armed wherever a
request is left waiting, except where `PQsendQuery` refuses a query on the
immediate path.
-/

namespace EvAIOPQ

open BrbData List EvAIOPQBase

/-! ## Serials in the log -/

def Obs.acceptedSerial : Obs → Option Nat
  | .accepted n => some n
  | _ => none

def Obs.sentSerial : Obs → Option Nat
  | .sent n => some n
  | _ => none

/-- The accepted requests, in the order of their acceptance. -/
def acceptedSerials (log : List Obs) : List Nat := log.filterMap Obs.acceptedSerial

/-- The requests that `PQsendQuery` took, in the order it took them. -/
def sentSerials (log : List Obs) : List Nat := log.filterMap Obs.sentSerial

/-- The waiting requests, head of the REQUEST list first. -/
def EvAIOPQBase.queuedSerials (s : EvAIOPQBase) : List Nat :=
  s.requests.map fun req => (s.request req).serial

@[simp] theorem acceptedSerials_append (l l' : List Obs) :
    acceptedSerials (l ++ l') = acceptedSerials l ++ acceptedSerials l' :=
  filterMap_append

@[simp] theorem sentSerials_append (l l' : List Obs) :
    sentSerials (l ++ l') = sentSerials l ++ sentSerials l' :=
  filterMap_append

@[simp] theorem serials_accepted (n : Nat) :
    acceptedSerials [.accepted n] = [n] ∧ sentSerials [.accepted n] = [] := ⟨rfl, rfl⟩

@[simp] theorem serials_sent (n : Nat) :
    acceptedSerials [.sent n] = [] ∧ sentSerials [.sent n] = [n] := ⟨rfl, rfl⟩

theorem neutral_serials {l : List Obs} (h : ∀ o ∈ l, o.neutral = true) :
    acceptedSerials l = [] ∧ sentSerials l = [] := by
  refine ⟨filterMap_eq_nil_iff.2 fun o ho => ?_, filterMap_eq_nil_iff.2 fun o ho => ?_⟩
  · have hn := h o ho
    cases o <;> simp_all [Obs.neutral, Obs.acceptedSerial]
  · have hn := h o ho
    cases o <;> simp_all [Obs.neutral, Obs.sentSerial]

/-! ## The log only grows -/

theorem Touch.log {s t : EvAIOPQBase} (h : Touch s t) :
    ∃ l, t.log = s.log ++ l ∧ ∀ o ∈ l, o.neutral = true := by
  cases h with
  | close cli =>
      refine ⟨[.closed cli (s.clients cli).aiopqReq.isSome], ?_, by simp [Obs.neutral]⟩
      simp [EvAIOPQBase.note]
  | online cli => exact ⟨[], by simp, by simp⟩
  | note o ho => exact ⟨[o], rfl, by simpa using ho⟩
  | _ => exact ⟨[], by simp [EvAIOPQBase.setClient], by simp⟩

theorem Probe.log {s t : EvAIOPQBase} (h : Probe s t) :
    ∃ l, t.log = s.log ++ l ∧ acceptedSerials l = [] ∧ sentSerials l = [] := by
  cases h with
  | touch h =>
      obtain ⟨l, hl, hneutral⟩ := h.log
      exact ⟨l, hl, neutral_serials hneutral⟩
  | grow n _ => exact ⟨[], by simp, rfl, rfl⟩
  | select cli ts _ _ =>
      refine ⟨[.ready cli (s.clients cli).online, .selected cli (s.clients cli).online
        (s.clients cli).busy (s.clients cli).aiopqReq.isSome], ?_, rfl, rfl⟩
      simp [EvAIOPQBase.select, EvAIOPQBase.note, EvAIOPQBase.setClient]

theorem attach_log (s : EvAIOPQBase) (cli req : Nat) :
    (s.attach cli req).log = s.log ++ [.sent (s.request req).serial] := by
  have h : ((s.attach cli req).request req).serial = (s.request req).serial :=
    attach_view (·.serial) (fun _ => rfl) req
  simp only [EvAIOPQBase.attach, EvAIOPQBase.note] at h ⊢
  rw [← h]
  rfl

theorem detach_log (s : EvAIOPQBase) (cli req : Nat) : (s.detach cli req).log = s.log := by
  unfold detach
  simp only
  split <;> rfl

theorem decrease_log (s : EvAIOPQBase) : s.decrease.log = s.log :=
  markOffline_log s (s.cliCountCur - 1)

theorem Act.log_prefix {p q : Point} (h : Act p q) : p.1.log <+: q.1.log := by
  cases h with
  | send h =>
      cases h with
      | touch m h =>
          obtain ⟨l, hl, -⟩ := h.log
          exact ⟨l, hl.symm⟩
      | probe m _ h =>
          obtain ⟨l, hl, -⟩ := h.log
          exact ⟨l, hl.symm⟩
      | accept => exact ⟨_, rfl⟩
      | refuse => exact ⟨_, rfl⟩
      | sendNow => exact ⟨_, (attach_log _ _ _).symm⟩
      | _ => exact prefix_refl _
  | dispatch => exact ⟨_, (attach_log _ _ _).symm⟩
  | @release s cli req _ _ =>
      change s.log <+: (s.detach cli req).log
      exact ⟨[], by simp [detach_log]⟩
  | decrease _ _ => exact ⟨[], by simp [decrease_log]⟩
  | _ => exact prefix_refl _

/-! ## Order -/

/-- What was sent and what still waits, in the order of acceptance. -/
structure Ordered (s : EvAIOPQBase) : Prop where
  numbered : acceptedSerials s.log = List.range s.countTotal
  order : (sentSerials s.log ++ s.queuedSerials).Sublist (acceptedSerials s.log)

theorem Ordered.of_same {s t : EvAIOPQBase} (h : Ordered s) {l : List Obs}
    (hlog : t.log = s.log ++ l) (hl : acceptedSerials l = [] ∧ sentSerials l = [])
    (htotal : t.countTotal = s.countTotal) (hqueued : t.queuedSerials = s.queuedSerials) :
    Ordered t := by
  refine ⟨?_, ?_⟩
  · rw [hlog, acceptedSerials_append, hl.1, append_nil, htotal]
    exact h.numbered
  · rw [hlog, sentSerials_append, acceptedSerials_append, hl.1, hl.2, hqueued,
      append_nil, append_nil]
    exact h.order

theorem queuedSerials_frame {s t : EvAIOPQBase} (h : Frame s t) :
    t.queuedSerials = s.queuedSerials := by
  simp [queuedSerials, requests, request, h.reqslot]

theorem Ordered.mark {s : EvAIOPQBase} (h : Ordered s) {req : Nat}
    {f : EvAIOPQRequest → EvAIOPQRequest} (hf : ∀ r, (f r).serial = r.serial) :
    Ordered (s.setRequest req f) := by
  refine h.of_same (l := []) (by simp [setRequest]) ⟨rfl, rfl⟩ rfl ?_
  unfold queuedSerials
  exact map_congr_left fun i _ => setRequest_view (·.serial) f hf i

theorem Ordered.accept {s : EvAIOPQBase} {m : Mode} (h : Ordered s) (hs : Formed (s, m))
    {req : Nat} {reqslot : MemSlotBase EvAIOPQRequest} {r : EvAIOPQRequest}
    (hgrab : s.reqslot.slotGrab = some (req, reqslot)) (hserial : r.serial = s.countTotal) :
    Ordered (s.accept reqslot req r) := by
  have hlog : (s.accept reqslot req r).log = s.log ++ [.accepted s.countTotal] := by
    have hraw : (s.accept reqslot req r).log =
        s.log ++ [.accepted ((s.accept reqslot req r).request req).serial] := rfl
    rw [hraw, accept_request_self, hserial]
  have hqueued : (s.accept reqslot req r).queuedSerials =
      s.queuedSerials ++ [s.countTotal] := by
    unfold queuedSerials
    rw [accept_requests hgrab, map_append, map_singleton, accept_request_self,
      hserial]
    congr 1
    refine map_congr_left fun i hi => ?_
    have hne : i ≠ req := fun he => hs.wf.slotGrab_fresh hgrab queryListRequest (he ▸ hi)
    rw [accept_request_of_ne hgrab hne]
  refine ⟨?_, ?_⟩
  · rw [hlog, acceptedSerials_append, h.numbered]
    exact range_succ.symm
  · rw [hlog, hqueued, sentSerials_append, acceptedSerials_append]
    simpa using h.order.append (List.Sublist.refl [s.countTotal])

theorem Ordered.attach {s : EvAIOPQBase} {m : Mode} (h : Ordered s) (hs : Formed (s, m))
    {req cli : Nat} {reqs : List Nat} (hreqs : s.requests = req :: reqs) :
    Ordered (s.attach cli req) := by
  have hmem : req ∈ s.requests := by simp [hreqs]
  have hlog := attach_log s cli req
  have hqueued : (s.attach cli req).queuedSerials = reqs.map fun i => (s.request i).serial := by
    unfold queuedSerials
    rw [hs.attach_requests hmem, hreqs, erase_cons_head]
    exact map_congr_left fun i _ => attach_view (·.serial) (fun _ => rfl) i
  have htotal : (s.attach cli req).countTotal = s.countTotal := rfl
  refine ⟨?_, ?_⟩
  · rw [hlog, htotal]
    simpa using h.numbered
  · have hsub := h.order
    rw [hlog, hqueued, sentSerials_append, acceptedSerials_append]
    simpa [queuedSerials, hreqs] using hsub

theorem Ordered.drop {s : EvAIOPQBase} {m : Mode} (h : Ordered s) (hs : Formed (s, m))
    {req : Nat} (hmem : req ∈ s.requests) : Ordered (s.requestDestroy req) := by
  have hqueued : (s.requestDestroy req).queuedSerials.Sublist s.queuedSerials := by
    have hview : (s.requestDestroy req).queuedSerials =
        (s.requests.erase req).map fun i => (s.request i).serial := by
      unfold queuedSerials
      rw [hs.drop_requests hmem]
      exact map_congr_left fun i _ => requestDestroy_view (·.serial) (fun _ => rfl) i
    rw [hview]
    exact erase_sublist.map _
  exact ⟨h.numbered, ((List.Sublist.refl _).append hqueued).trans h.order⟩

theorem Ordered.release {s : EvAIOPQBase} (h : Ordered s) (hs : Formed (s, .idle))
    {req cli : Nat} (hreq : (s.clients cli).aiopqReq = some req) :
    Ordered ((s.detach cli req).requestDestroy req) := by
  obtain ⟨hd, hmem⟩ := hs.detach_attached hreq
  refine h.of_same (l := []) ?_ ⟨rfl, rfl⟩ ?_ ?_
  · rw [append_nil]
    exact detach_log s cli req
  · change (s.detach cli req).countTotal = s.countTotal
    unfold detach
    simp only
    split <;> rfl
  · unfold queuedSerials
    rw [hd.release_requests hmem]
    simp only [requests, detach_reqslot]
    refine map_congr_left fun i _ => ?_
    rw [requestDestroy_view (·.serial) (fun _ => rfl)]
    simp [request, detach_reqslot]

/-- **Every act keeps the order.** -/
theorem Act.ordered {p q : Point} (h : Act p q) (hp : Formed p) (ho : Ordered p.1) :
    Ordered q.1 := by
  cases h with
  | send h =>
      cases h with
      | touch m h =>
          obtain ⟨l, hl, hneutral⟩ := h.log
          exact ho.of_same hl (neutral_serials hneutral) h.frame.total
            (queuedSerials_frame h.frame)
      | probe m _ h =>
          obtain ⟨l, hl, hserials⟩ := h.log
          exact ho.of_same hl hserials h.frame.total (queuedSerials_frame h.frame)
      | mark s m req f hserial _ _ => exact ho.mark hserial
      | accept r _ hgrab hserial _ => exact ho.accept hp hgrab hserial
      | arm s m id _ => exact ⟨ho.numbered, ho.order⟩
      | queue _ _ => exact ⟨ho.numbered, ho.order⟩
      | @refuse s m req hm =>
          exact ho.of_same (l := [.immediateFailed (s.request req).serial]) rfl ⟨rfl, rfl⟩
            rfl rfl
      | @sendNow s m req cli hm hgate _ _ _ _ =>
          obtain ⟨l, hl, hnil⟩ := hp.fresh req hm
          have hempty : l = [] := by
            by_contra hne
            simpa [hgate] using hnil hne
          have hone : s.requests = [req] := by simpa [hempty] using hl
          exact ho.attach hp hone
  | dispatch h _ _ _ _ => exact ho.attach hp h
  | drop h => exact ho.drop hp h
  | release _ hreq => exact ho.release hp hreq
  | @decrease s _ _ =>
      exact ho.of_same (l := []) (by simp [decrease_log]) ⟨rfl, rfl⟩ (frame_decrease s).total
        (queuedSerials_frame (frame_decrease s))
  | _ => exact ⟨ho.numbered, ho.order⟩

theorem path_ordered {p q : Point} (h : Path p q) (hp : Formed p) (ho : Ordered p.1) :
    Ordered q.1 := by
  induction h with
  | refl => exact ho
  | tail hpath hstep ih => exact hstep.ordered (path_formed hpath hp) ih

theorem runFrom_ordered (env : Nat → Answer) (conf : EvAIOPQBaseConf) (evs : List Event) :
    Ordered (runFrom env conf evs).state := by
  have hnew : Ordered (baseNew conf) := by
    refine ⟨rfl, ?_⟩
    simp [baseNew, sentSerials, queuedSerials, requests,
      MemSlotBase.init]
  have h := runFrom_path env conf evs
  cases hf : (runFrom env conf evs).fault with
  | none => exact path_ordered (h.of_live hf) (formed_baseNew conf) hnew
  | some f =>
      obtain ⟨m, hpath, -⟩ := h.of_stopped hf
      exact path_ordered hpath (formed_baseNew conf) hnew

/-- **Queries leave in the order they were accepted.**  Over any run, the
queries that `PQsendQuery` took form a subsequence of the accepted ones without
repetition, and none of them was accepted after a request that still waits. -/
theorem queries_sent_in_order (env : Nat → Answer) (conf : EvAIOPQBaseConf)
    (evs : List Event) :
    let s := (runFrom env conf evs).state
    (sentSerials s.log).Sublist (acceptedSerials s.log) ∧ (sentSerials s.log).Nodup ∧
      acceptedSerials s.log = List.range s.countTotal ∧
      ∀ n ∈ sentSerials s.log, ∀ req ∈ s.requests, n < (s.request req).serial := by
  intro s
  have h : Ordered s := runFrom_ordered env conf evs
  have hsent : (sentSerials s.log).Sublist (acceptedSerials s.log) :=
    (sublist_append_left _ _).trans h.order
  have hnodup : (acceptedSerials s.log).Nodup := by
    rw [h.numbered]
    exact nodup_range
  have hlt : (acceptedSerials s.log).Pairwise (· < ·) := by
    rw [h.numbered]
    exact pairwise_lt_range
  refine ⟨hsent, hnodup.sublist hsent, h.numbered, fun n hn req hreq => ?_⟩
  have hpair := hlt.sublist h.order
  rw [pairwise_append] at hpair
  exact hpair.2.2 n hn _ (mem_map_of_mem hreq)

/-! ## The dispatch timer -/

/-- No query was refused on the immediate path, and every timer could be added. -/
def Calm (log : List Obs) : Prop :=
  Obs.timerFailed ∉ log ∧ ∀ n, Obs.immediateFailed n ∉ log

theorem Calm.of_prefix {l l' : List Obs} (h : Calm l') (hl : l <+: l') : Calm l :=
  ⟨fun hmem => h.1 (hl.subset hmem), fun n hmem => h.2 n (hl.subset hmem)⟩

/-- Outside a tick and an unfinished `sendReq`, what waits has a timer. -/
def Waited (p : Point) : Prop :=
  p.2.fresh = none → p.2.ticking = false → p.1.requests ≠ [] → 0 ≤ p.1.timerId

theorem Armed.timer {s : EvAIOPQBase} (h : Armed s) (hcalm : Calm s.log) : 0 ≤ s.timerId :=
  h.resolve_right hcalm.1

theorem Send.waited {p q : Point} (h : Send p q) (hp : Formed p) (hcalm : Calm q.1.log)
    (hw : Waited p) : Waited q := by
  cases h with
  | @touch s t m h =>
      intro hfresh hidle hne
      rw [requests, h.frame.reqslot] at hne
      exact h.frame.timer.symm ▸ hw hfresh hidle hne
  | @probe s t m _ h =>
      intro hfresh hidle hne
      rw [requests, h.frame.reqslot] at hne
      exact h.frame.timer.symm ▸ hw hfresh hidle hne
  | mark => exact hw
  | accept => exact fun hfresh => absurd hfresh (by simp)
  | arm s m id hneg =>
      intro hfresh hidle hne
      have hold := hw hfresh hidle hne
      simp only at hold
      omega
  | queue _ harmed => exact fun _ _ _ => harmed.timer hcalm
  | @refuse s m req _ =>
      exact absurd (by simp [EvAIOPQBase.note]) (hcalm.2 (s.request req).serial)
  | @sendNow s m req cli hm hgate _ _ _ _ =>
      intro _ _ hne
      obtain ⟨l, hl, hnil⟩ := hp.fresh req hm
      change s.requests = l ++ [req] at hl
      have hempty : l = [] := by
        by_contra hne
        simpa [hgate] using hnil hne
      refine absurd ?_ hne
      rw [hp.attach_requests (by simp [hl]), hl, hempty]
      simp

theorem Act.waited {p q : Point} (h : Act p q) (hp : Formed p) (hcalm : Calm q.1.log)
    (hw : Waited p) : Waited q := by
  cases h with
  | send h => exact h.waited hp hcalm hw
  | tickEmpty hempty => exact fun _ _ hne => absurd hempty hne
  | tickEnd harmed => exact fun _ _ _ => harmed.timer hcalm
  | @release s cli req _ hreq =>
      intro hfresh hidle hne
      obtain ⟨hd, hmem⟩ := hp.detach_attached hreq
      rw [hd.release_requests hmem, requests, detach_reqslot] at hne
      have htimer : ((s.detach cli req).requestDestroy req).timerId = s.timerId := by
        change (s.detach cli req).timerId = s.timerId
        unfold detach
        simp only
        split <;> rfl
      exact htimer.symm ▸ hw hfresh hidle hne
  | @decrease s _ _ =>
      intro hfresh hidle hne
      rw [requests, (frame_decrease s).reqslot] at hne
      exact (frame_decrease s).timer.symm ▸ hw hfresh hidle hne
  | _ => exact fun _ hidle => absurd hidle (by simp)

theorem path_waited {p q : Point} (h : Path p q) (hp : Formed p) (hcalm : Calm q.1.log)
    (hw : Waited p) : Waited q := by
  induction h with
  | refl => exact hw
  | tail hpath hstep ih =>
      exact hstep.waited (path_formed hpath hp) hcalm (ih (hcalm.of_prefix hstep.log_prefix))

/-- A live configuration in which a request waits has its dispatch timer armed. -/
def NoStall (c : Config) : Prop :=
  c.fault = none → c.state.requests ≠ [] → 0 ≤ c.state.timerId

/-- **No stalled queue**, in a run in which `PQsendQuery` refuses no query on the
immediate path and every timer can be added. -/
theorem queue_never_stalls (env : Nat → Answer) (conf : EvAIOPQBaseConf)
    (evs : List Event) (hcalm : Calm (runFrom env conf evs).state.log) :
    NoStall (runFrom env conf evs) := by
  intro hlive hne
  have h := (runFrom_path env conf evs).of_live hlive
  have hnew : Waited (baseNew conf, .idle) := by
    intro _ _ hne
    exact absurd (by simp [requests, baseNew, MemSlotBase.init]) hne
  exact path_waited h (formed_baseNew conf) hcalm hnew rfl rfl hne

/-- A query is queued behind a gate that is shut while the only client works,
and the timer that was armed for the first of them serves both. -/
theorem queue_never_stalls_busy_client :
    Calm (runFrom (fun _ => {}) {} [.user (.sendReq (some "SELECT 1") true 0),
      .user (.sendReq (some "SELECT 2") true 0)]).state.log ∧
    NoStall (runFrom (fun _ => {}) {} [.user (.sendReq (some "SELECT 1") true 0),
      .user (.sendReq (some "SELECT 2") true 0)]) := by
  have hcalm : Calm (runFrom (fun _ => {}) {} [.user (.sendReq (some "SELECT 1") true 0),
      .user (.sendReq (some "SELECT 2") true 0)]).state.log := by
    have hlog : (runFrom (fun _ => {}) {} [.user (.sendReq (some "SELECT 1") true 0),
        .user (.sendReq (some "SELECT 2") true 0)]).state.log =
        [.accepted 0, .ready 0 true, .selected 0 true false false, .sent 0, .accepted 1] := by
      decide
    simp [Calm, hlog]
  exact ⟨hcalm, queue_never_stalls _ _ _ hcalm⟩

/-- An immediate `PQsendQuery` that fails leaves its request waiting without a
timer. -/
theorem refused_query_stalls :
    ¬NoStall (runFrom (fun _ => { sendQuery := false }) {}
      [.user (.sendReq (some "SELECT 1") true 0)]) := by
  intro h
  have htimer := h (by decide) (by decide)
  revert htimer
  decide

end EvAIOPQ
