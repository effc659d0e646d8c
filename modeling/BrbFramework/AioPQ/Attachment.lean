import BrbFramework.AioPQ.Order
import Mathlib.Data.List.Count

/-!
# Clients and the requests attached to them

A busy client, its attached request, that request's place in the REPLY list and
the busy counter are written by different handlers. They agree in every run in
which no client is closed while a request is attached to it: a close clears
`busy` and leaves the rest, so the request is never released and its client can
be selected again.

The assertions on a selected client rest on this and on one thing more. The
search polls clients that are not flagged online, and a poll may find them
ready before the health check flags them.
-/

namespace EvAIOPQ

open Handler BrbData List Function

/-- No client was closed while a request was attached to it. -/
def NoBusyClose (log : List Obs) : Prop := ∀ cli, Obs.closed cli true ∉ log

theorem NoBusyClose.of_prefix {l l' : List Obs} (h : NoBusyClose l') (hl : l <+: l') :
    NoBusyClose l := fun cli hmem => h cli (hl.subset hmem)

/-- The number of busy clients among those in the pool. -/
def EvAIOPQBase.busyCount (s : EvAIOPQBase) : Nat :=
  (List.range s.cliCountCur).countP fun cli => (s.clients cli).busy

/-- Clients, attachments, the REPLY list and the counter agree. A client lent
to the callback of a cancelled request is not counted as attached. -/
structure Linked (p : Point) : Prop where
  busy : ∀ c, p.2.held ≠ some c →
    ((p.1.clients c).busy = true ↔ (p.1.clients c).aiopqReq ≠ none)
  heldFree : ∀ c, p.2.held = some c → (p.1.clients c).busy = false
  online : ∀ c, (p.1.clients c).busy = true → (p.1.clients c).online = true
  inPool : ∀ c, p.1.cliCountCur ≤ c → (p.1.clients c).busy = false
  replies : ∀ i ∈ p.1.replies, ∃ c, p.2.held ≠ some c ∧ (p.1.clients c).aiopqReq = some i
  count : p.1.cliCountBusy = p.1.busyCount

theorem linked_baseNew (conf : EvAIOPQBaseConf) : Linked (baseNew conf, .idle) where
  busy := by simp [baseNew]
  heldFree := by simp [baseNew]
  online := by simp [baseNew]
  inPool := by simp [baseNew]
  replies := by simp [baseNew, EvAIOPQBase.replies, MemSlotBase.init]
  count := by simp [baseNew, EvAIOPQBase.busyCount]

theorem busyCount_congr {s t : EvAIOPQBase} (hcur : t.cliCountCur = s.cliCountCur)
    (hbusy : ∀ c, (t.clients c).busy = (s.clients c).busy) : t.busyCount = s.busyCount := by
  simp [EvAIOPQBase.busyCount, hcur, hbusy]

theorem countP_range_of_le {f : Nat → Bool} {n m : Nat} (hnm : n ≤ m)
    (hf : ∀ c, n ≤ c → f c = false) : (List.range m).countP f = (List.range n).countP f := by
  induction hnm with
  | refl => rfl
  | @step m hm ih =>
      rw [range_succ, countP_append, ih]
      simp [hf m hm]

theorem countP_range_update {f : Nat → Bool} {n cli : Nat} (hcli : cli < n)
    (hfree : f cli = false) :
    (List.range n).countP (update f cli true) = (List.range n).countP f + 1 := by
  induction n with
  | zero => exact absurd hcli (by omega)
  | succ n ih =>
      rw [range_succ, countP_append, countP_append]
      by_cases hn : cli = n
      · subst hn
        have hsame : (List.range cli).countP (update f cli true) =
            (List.range cli).countP f := by
          refine countP_congr fun c hc => ?_
          have hne : c ≠ cli := by
            have hlt := mem_range.1 hc
            omega
          simp [hne]
        simp [hsame, hfree]
      · have hlt : cli < n := by omega
        rw [ih hlt]
        simp [Ne.symm hn]
        omega

/-! ## Acts on clients -/

section Views

variable {s t : EvAIOPQBase} {m : Mode}

/-- What `Linked` sees of the pool. -/
structure SameLinks (s t : EvAIOPQBase) : Prop where
  reqslot : t.replies = s.replies
  attached : ∀ c, (t.clients c).aiopqReq = (s.clients c).aiopqReq
  busy : ∀ c, (t.clients c).busy = (s.clients c).busy
  online : ∀ c, (s.clients c).busy = true → (s.clients c).online = true →
    (t.clients c).online = true
  countCur : t.cliCountCur = s.cliCountCur
  countBusy : t.cliCountBusy = s.cliCountBusy

theorem Linked.of_same (h : Linked (s, m)) (hst : SameLinks s t) : Linked (t, m) where
  busy := fun c hc => by
    rw [hst.busy, hst.attached]
    exact h.busy c hc
  heldFree := fun c hc => (hst.busy c).trans (h.heldFree c hc)
  online := fun c hc => by
    have hbusy : (s.clients c).busy = true := (hst.busy c).symm.trans hc
    exact hst.online c hbusy (h.online c hbusy)
  inPool := fun c hc => (hst.busy c).trans (h.inPool c (hst.countCur ▸ hc))
  replies := fun i hi => by
    obtain ⟨c, hc, hatt⟩ := h.replies i (hst.reqslot ▸ hi)
    exact ⟨c, hc, (hst.attached c).trans hatt⟩
  count := by
    rw [busyCount_congr hst.countCur hst.busy, hst.countBusy]
    exact h.count

theorem sameLinks_setClient (cli : Nat) {f : EvAIOPQClient → EvAIOPQClient}
    (hreq : ∀ c, (f c).aiopqReq = c.aiopqReq) (hbusy : ∀ c, (f c).busy = c.busy)
    (honline : ∀ c, (f c).online = c.online) : SameLinks s (s.setClient cli f) :=
  ⟨rfl, setClient_view s cli (·.aiopqReq) f (hreq _),
    setClient_view s cli (·.busy) f (hbusy _),
    fun c _ h => (setClient_view s cli (·.online) f (honline _) c).trans h, rfl, rfl⟩

theorem sameLinks_markOnline (s : EvAIOPQBase) (cli : Nat) :
    SameLinks s (s.markOnline cli) := by
  unfold EvAIOPQBase.markOnline
  split
  · exact ⟨rfl, fun _ => rfl, fun _ => rfl, fun _ _ h => h, rfl, rfl⟩
  · refine ⟨rfl, setClient_view s cli (·.aiopqReq) (fun c => { c with online := true }) rfl,
      setClient_view s cli (·.busy) (fun c => { c with online := true }) rfl,
      fun c _ h => ?_, rfl, rfl⟩
    by_cases hc : c = cli
    · subst hc
      simp [EvAIOPQBase.setClient]
    · simpa [EvAIOPQBase.setClient, hc] using h

theorem sameLinks_markOffline (s : EvAIOPQBase) {cli : Nat}
    (hfree : (s.clients cli).busy = false) : SameLinks s (s.markOffline cli) := by
  unfold EvAIOPQBase.markOffline
  split
  · refine ⟨rfl,
      setClient_view s cli (·.aiopqReq) (fun c => { c with online := false, busy := false }) rfl,
      setClient_view s cli (·.busy) (fun c => { c with online := false, busy := false })
        hfree.symm, fun c hbusy h => ?_, rfl, rfl⟩
    have hc : c ≠ cli := by
      rintro rfl
      simp [hfree] at hbusy
    simpa [EvAIOPQBase.setClient, hc] using h
  · exact ⟨rfl, fun _ => rfl, fun _ => rfl, fun _ _ h => h, rfl, rfl⟩

theorem Touch.linked (h : Touch s t) (hlog : NoBusyClose t.log) (hs : Linked (s, m)) :
    Linked (t, m) := by
  cases h with
  | close cli =>
      have hnone : (s.clients cli).aiopqReq = none := by
        by_contra hsome
        refine hlog cli ?_
        have htrue : (s.clients cli).aiopqReq.isSome = true := Option.isSome_iff_ne_none.2 hsome
        simp [EvAIOPQBase.note, htrue]
      have hfree : (s.clients cli).busy = false := by
        by_cases hc : m.held = some cli
        · exact hs.heldFree cli hc
        · have hiff := hs.busy cli hc
          simpa [hnone] using hiff
      have hsame := sameLinks_markOffline s hfree
      exact hs.of_same ⟨hsame.reqslot, hsame.attached, hsame.busy, hsame.online,
        hsame.countCur, hsame.countBusy⟩
  | online cli => exact hs.of_same (sameLinks_markOnline s cli)
  | client cli f hreq hbusy honline =>
      exact hs.of_same (sameLinks_setClient cli hreq hbusy honline)
  | _ => exact hs.of_same ⟨rfl, fun _ => rfl, fun _ => rfl, fun _ _ h => h, rfl, rfl⟩

theorem Probe.linked (h : Probe s t) (hlog : NoBusyClose t.log) (hs : Linked (s, m)) :
    Linked (t, m) := by
  cases h with
  | touch h => exact h.linked hlog hs
  | grow n hn =>
      refine ⟨hs.busy, hs.heldFree, hs.online, fun c hc => hs.inPool c (Nat.le_trans hn hc),
        hs.replies, ?_⟩
      exact hs.count.trans (countP_range_of_le hn hs.inPool).symm
  | select cli ts _ _ =>
      have hsame := sameLinks_setClient (s := s) cli (f := fun c => { c with lastGrabTs := ts })
        (fun _ => rfl) (fun _ => rfl) (fun _ => rfl)
      exact hs.of_same ⟨hsame.reqslot, hsame.attached, hsame.busy, hsame.online,
        hsame.countCur, hsame.countBusy⟩

theorem Linked.attach {cli req : Nat} (hs : Linked (s, m)) (hf : Formed (s, m))
    (hreq : req ∈ s.requests) (hheld : m.held = none) {m' : Mode} (hheld' : m'.held = none)
    (hcli : cli < s.cliCountCur) (honline : (s.clients cli).online = true)
    (hbusy : (s.clients cli).busy = false) (hnone : (s.clients cli).aiopqReq = none) :
    Linked (s.attach cli req, m') := by
  refine ⟨fun c _ => ?_, by simp [hheld'], fun c hc => ?_, fun c hc => ?_, fun i hi => ?_, ?_⟩
  · by_cases hc : c = cli
    · simp [attach_clients, hc]
    · simpa [attach_clients, hc] using hs.busy c (by simp [hheld])
  · by_cases hcc : c = cli
    · simpa [attach_clients, hcc] using honline
    · simp only [attach_clients, update_of_ne hcc] at hc ⊢
      exact hs.online c hc
  · have hle : s.cliCountCur ≤ c := hc
    have hne : c ≠ cli := by omega
    simpa [attach_clients, hne] using hs.inPool c hle
  · simp only [hf.attach_replies hreq, mem_cons] at hi
    rcases hi with rfl | hi
    · exact ⟨cli, by simp [hheld'], by simp [attach_clients]⟩
    · obtain ⟨c, -, hatt⟩ := hs.replies i hi
      have hne : c ≠ cli := by
        rintro rfl
        simp [hnone] at hatt
      exact ⟨c, by simp [hheld'], by simpa [attach_clients, hne] using hatt⟩
  · have hfun : (fun c => ((s.attach cli req).clients c).busy) =
        update (fun c => (s.clients c).busy) cli true := by
      funext c
      by_cases hc : c = cli
      · subst hc
        simp [attach_clients]
      · simp [attach_clients, hc]
    have hcount : s.cliCountBusy = s.busyCount := hs.count
    have hlhs : (s.attach cli req).cliCountBusy = s.cliCountBusy + 1 := rfl
    have hrhs : (s.attach cli req).busyCount = s.busyCount + 1 := by
      unfold EvAIOPQBase.busyCount
      rw [hfun]
      exact countP_range_update hcli hbusy
    exact hlhs.trans (by rw [hrhs, hcount])

theorem Linked.release {cli req : Nat} (hs : Linked (s, .idle)) (hf : Formed (s, .idle))
    (hbusy : (s.clients cli).busy = true) (hreq : (s.clients cli).aiopqReq = some req) :
    Linked ((s.detach cli req).requestDestroy req, .idle) := by
  have hclients : ((s.detach cli req).requestDestroy req).clients = update s.clients cli
      { s.clients cli with
        aiopqReq := none, busy := false, flushNeed := false, flushFailed := false } :=
    detach_clients
  have hcur : ((s.detach cli req).requestDestroy req).cliCountCur = s.cliCountCur := by
    change (s.detach cli req).cliCountCur = s.cliCountCur
    unfold EvAIOPQBase.detach
    simp only
    split <;> rfl
  have hcountBusy : ((s.detach cli req).requestDestroy req).cliCountBusy =
      s.cliCountBusy - 1 := by
    change (s.detach cli req).cliCountBusy = s.cliCountBusy - 1
    unfold EvAIOPQBase.detach
    simp only
    split <;> rfl
  obtain ⟨hd, hmem⟩ := hf.detach_attached hreq
  have hin : cli < s.cliCountCur := by
    by_contra hout
    have hfree := hs.inPool cli (by simpa using hout)
    simp [hbusy] at hfree
  refine ⟨fun c _ => ?_, by simp [Mode.idle], fun c hc => ?_, fun c hc => ?_, fun i hi => ?_,
    ?_⟩
  · by_cases hc : c = cli
    · simp [hclients, hc]
    · simpa [hclients, hc] using hs.busy c (by simp [Mode.idle])
  · simp only [hclients] at hc ⊢
    by_cases hcc : c = cli
    · simp [hcc] at hc
    · rw [update_of_ne hcc] at hc ⊢
      exact hs.online c hc
  · have hle : s.cliCountCur ≤ c := by
      rw [← hcur]
      exact hc
    have hne : c ≠ cli := by omega
    simpa [hclients, hne] using hs.inPool c hle
  · simp only [hd.release_replies hmem] at hi
    have hnodup : (s.detach cli req).replies.Nodup := hd.wf.list_nodup queryListReply
    obtain ⟨hne, hi⟩ := hnodup.mem_erase_iff.1 hi
    have hold : i ∈ s.replies := by
      simpa [EvAIOPQBase.replies, detach_reqslot] using hi
    obtain ⟨c, -, hatt⟩ := hs.replies i hold
    have hcc : c ≠ cli := by
      rintro rfl
      exact hne (Option.some.inj (hatt.symm.trans hreq))
    exact ⟨c, by simp [Mode.idle], by simpa [hclients, hcc] using hatt⟩
  · -- adding the client back gives the old count
    have hback : (fun c => (s.clients c).busy) = update
        (fun c => (((s.detach cli req).requestDestroy req).clients c).busy) cli true := by
      funext c
      by_cases hc : c = cli
      · subst hc
        simp [hbusy]
      · simp [hclients, hc]
    have hone : s.busyCount = ((s.detach cli req).requestDestroy req).busyCount + 1 := by
      unfold EvAIOPQBase.busyCount
      rw [hback, hcur]
      exact countP_range_update hin (by simp [hclients])
    have hcount : s.cliCountBusy = s.busyCount := hs.count
    exact hcountBusy.trans (by rw [hcount, hone, Nat.add_sub_cancel])

end Views

/-- **Every act keeps the links**, unless it closes an attached client. -/
theorem Act.linked {p q : Point} (h : Act p q) (hp : Formed p) (hlog : NoBusyClose q.1.log)
    (hl : Linked p) : Linked q := by
  cases h with
  | send h =>
      cases h with
      | touch m h => exact h.linked hlog hl
      | probe m _ h => exact h.linked hlog hl
      | accept r _ hgrab _ _ =>
          refine ⟨hl.busy, hl.heldFree, hl.online, hl.inPool, fun i hi => ?_, hl.count⟩
          rw [accept_replies hgrab] at hi
          exact hl.replies i hi
      | @sendNow s m req cli hm hgate hcli honline hbusy hnone =>
          obtain ⟨l, hl', -⟩ := hp.fresh req hm
          change s.requests = l ++ [req] at hl'
          have hheld : m.held = none := by
            by_contra hne
            simpa [hgate] using hp.held hne
          exact hl.attach hp (by simp [hl']) hheld hheld hcli honline hbusy hnone
      | _ => exact ⟨hl.busy, hl.heldFree, hl.online, hl.inPool, hl.replies, hl.count⟩
  | dispatch h hcli honline hbusy hnone =>
      exact hl.attach hp (by simp [h]) rfl rfl hcli honline hbusy hnone
  | @lend s cli req h hbusy =>
      have hnone : (s.clients cli).aiopqReq = none := by
        have hiff := hl.busy cli (by simp)
        simpa [hbusy] using hiff
      have hother : ∀ c, c ≠ cli → (s.setClient cli fun c =>
          { c with aiopqReq := some req }).clients c = s.clients c := by
        intro c hc
        simp [EvAIOPQBase.setClient, hc]
      have hview : ∀ c, ((s.setClient cli fun c =>
          { c with aiopqReq := some req }).clients c).busy = (s.clients c).busy :=
        setClient_view s cli (·.busy) (fun c => { c with aiopqReq := some req }) rfl
      refine ⟨fun c hc => ?_, fun c hc => ?_, fun c hc => ?_, fun c hc => ?_, fun i hi => ?_,
        ?_⟩
      · have hne : c ≠ cli := fun he => hc (by simp [he])
        simp only [hother c hne]
        exact hl.busy c (by simp)
      · obtain rfl : cli = c := by simpa using hc
        exact (hview cli).trans hbusy
      · have hold := hl.online c ((hview c).symm.trans hc)
        exact (setClient_view s cli (·.online) (fun c => { c with aiopqReq := some req }) rfl
          c).trans hold
      · exact (hview c).trans (hl.inPool c hc)
      · obtain ⟨c, -, hatt⟩ := hl.replies i hi
        have hne : c ≠ cli := by
          rintro rfl
          simp [hnone] at hatt
        exact ⟨c, by simpa [eq_comm] using hne, by simpa only [hother c hne] using hatt⟩
      · have hcount := busyCount_congr (s := s) (t := s.setClient cli fun c =>
          { c with aiopqReq := some req }) rfl hview
        exact hl.count.trans hcount.symm
  | giveBack s cli =>
      have hother : ∀ c, c ≠ cli → (s.setClient cli fun c =>
          { c with aiopqReq := none }).clients c = s.clients c := by
        intro c hc
        simp [EvAIOPQBase.setClient, hc]
      have hview : ∀ c, ((s.setClient cli fun c =>
          { c with aiopqReq := none }).clients c).busy = (s.clients c).busy :=
        setClient_view s cli (·.busy) (fun c => { c with aiopqReq := none }) rfl
      have hfree : (s.clients cli).busy = false := hl.heldFree cli rfl
      refine ⟨fun c _ => ?_, by simp, fun c hc => ?_, fun c hc => ?_, fun i hi => ?_, ?_⟩
      · by_cases hc : c = cli
        · subst hc
          simp [EvAIOPQBase.setClient, hfree]
        · simp only [hother c hc]
          exact hl.busy c (by simpa [eq_comm] using hc)
      · have hold := hl.online c ((hview c).symm.trans hc)
        exact (setClient_view s cli (·.online) (fun c => { c with aiopqReq := none }) rfl
          c).trans hold
      · exact (hview c).trans (hl.inPool c hc)
      · obtain ⟨c, hc, hatt⟩ := hl.replies i hi
        have hne : c ≠ cli := fun he => hc (by simp [he])
        exact ⟨c, by simp, by simpa only [hother c hne] using hatt⟩
      · have hcount := busyCount_congr (s := s) (t := s.setClient cli fun c =>
          { c with aiopqReq := none }) rfl hview
        exact hl.count.trans hcount.symm
  | drop h =>
      refine ⟨hl.busy, hl.heldFree, hl.online, hl.inPool, fun i hi => ?_, hl.count⟩
      rw [hp.drop_replies h] at hi
      exact hl.replies i hi
  | release hbusy hreq => exact hl.release hp hbusy hreq
  | @decrease s h hbusy =>
      have hoff := hl.of_same (sameLinks_markOffline s hbusy)
      have hdisc := hoff.of_same (sameLinks_setClient (s.cliCountCur - 1)
        (f := fun c => { c with pqState := .disconnected })
        (fun _ => rfl) (fun _ => rfl) (fun _ => rfl))
      have hsame := sameLinks_markOffline s hbusy
      have hview : ∀ c, (s.decrease.clients c).busy = (s.clients c).busy := fun c =>
        (setClient_view _ (s.cliCountCur - 1) (·.busy)
          (fun c => { c with pqState := .disconnected }) rfl c).trans (hsame.busy c)
      have hout : ∀ c, s.cliCountCur - 1 ≤ c → (s.clients c).busy = false := by
        intro c hc
        by_cases hlast : c = s.cliCountCur - 1
        · exact hlast ▸ hbusy
        · have hle : s.cliCountCur ≤ c := by omega
          exact hl.inPool c hle
      refine ⟨hdisc.busy, hdisc.heldFree, hdisc.online, fun c hc => ?_, hdisc.replies, ?_⟩
      · exact (hview c).trans (hout c hc)
      · have hcount : s.decrease.cliCountBusy = s.cliCountBusy := hsame.countBusy
        have hbc : s.decrease.busyCount = s.busyCount := by
          have hshort := countP_range_of_le (f := fun c => (s.clients c).busy)
            (Nat.sub_le s.cliCountCur 1) hout
          unfold EvAIOPQBase.busyCount
          simp only [hview]
          exact hshort.symm
        exact hcount.trans (hl.count.trans hbc.symm)
  | _ => exact ⟨hl.busy, by simp [Mode.idle], hl.online, hl.inPool, hl.replies, hl.count⟩

theorem path_linked {p q : Point} (h : Path p q) (hp : Formed p) (hlog : NoBusyClose q.1.log)
    (hl : Linked p) : Linked q := by
  induction h with
  | refl => exact hl
  | tail hpath hstep ih =>
      exact hstep.linked (path_formed hpath hp) hlog (ih (hlog.of_prefix hstep.log_prefix))

/-! ## Releasing an attached request -/

/-- A client holds the request, and its next complete reply releases it. -/
def Releasable (s : EvAIOPQBase) (req : Nat) : Prop :=
  ∃ cli, (s.clients cli).aiopqReq = some req ∧ ∀ env : Nat → Answer,
    ((env s.clock).consumeInput && (env s.clock).isBusy) = false →
    (∀ n, (env n).callback = []) →
    (Runs.step (handle env) (.live s) (.readReady cli)).fault = none ∧
      req ∉ (Runs.step (handle env) (.live s) (.readReady cli)).state.replies

section Release

variable {env : Nat → Answer} {s : EvAIOPQBase} {cli req : Nat}

theorem invokeCb_quiet (hquiet : ∀ n, (env n).callback = [])
    (hcb : (s.request req).hasCb = true) :
    Ends (invokeCb env req) s
      (fun _ t => Sends (s, .idle) (t, .idle) ∧ t.clients = s.clients) (fun _ _ => False) := by
  simp only [invokeCb, ends_bind, ends_get, ends_assertThat, ends_modify, ends_ask, hquiet, hcb,
    userCalls, ends_pure]
  have hmark : Sends (s, .idle) (s.setRequest req fun r => { r with cbCalled := true }, .idle) :=
    .single (.mark s .idle req _ (fun _ => rfl) (fun _ => rfl) (fun _ => rfl))
  have hnote := sends_touch hmark (.note _ (.called (s.request req).serial) rfl)
  exact ⟨fun _ => ⟨sends_touch hnote (.ask _), rfl⟩, by simp⟩

theorem release_not_mem (hf : Formed (s, .idle)) (hreq : (s.clients cli).aiopqReq = some req) :
    req ∉ ((s.detach cli req).requestDestroy req).replies := by
  obtain ⟨hd, hmem⟩ := hf.detach_attached hreq
  rw [hd.release_replies hmem]
  have hnodup : (s.detach cli req).replies.Nodup := hd.wf.list_nodup queryListReply
  exact hnodup.not_mem_erase

theorem clientEventRead_releases (hf : Formed (s, .idle)) (hl : Linked (s, .idle))
    (hreq : (s.clients cli).aiopqReq = some req)
    (hdone : ((env s.clock).consumeInput && (env s.clock).isBusy) = false)
    (hquiet : ∀ n, (env n).callback = []) :
    Ends (handle env (.readReady cli)) s (fun _ t => req ∉ t.replies) (fun _ _ => False) := by
  have hbusy : (s.clients cli).busy = true := by
    have hiff := hl.busy cli (by simp [Mode.idle])
    exact hiff.2 (by simp [hreq])
  have hin : cli < s.cliCountCur := by
    by_contra hout
    have hfree := hl.inPool cli (by simpa using hout)
    simp [hbusy] at hfree
  have hask : Sends (s, .idle) ({ s with clock := s.clock + 1 }, .idle) :=
    sends_touch .refl (.ask s)
  have hend : ∀ t, Sends (s, .idle) (t, .idle) → t.clients = s.clients →
      Ends (do
        let s ← get
        assertThat (s.clients cli).busy (.replyNotBusy cli)
        modify fun s => s.detach cli req
        requestDestroy req) t (fun _ t => req ∉ t.replies) (fun _ _ => False) := by
    intro t ht hclients
    simp only [requestDestroy, ends_bind, ends_get, ends_assertThat, ends_modify, hclients, hbusy]
    exact ⟨fun _ => release_not_mem (sends_formed ht hf) (by rw [hclients, hreq]), by simp⟩
  simp only [handle, onClient, ends_bind, ends_get]
  rw [ends_ite]
  refine ⟨fun _ => ?_, fun hout => absurd hin hout⟩
  simp only [clientEventRead, ends_bind, ends_get, hreq, ends_ask, hdone]
  simp only [Bool.false_eq_true, if_false, invokeAndLeave, ends_bind, ends_get]
  rw [ends_ite]
  refine ⟨fun hcb => ?_, fun _ => hend _ hask rfl⟩
  rw [ends_ite]
  refine ⟨fun _ => ?_, fun _ => hend _ hask rfl⟩
  rw [ends_bind]
  exact (invokeCb_quiet hquiet hcb).mono (fun _ t ht => hend t (hask.trans ht.1) ht.2)
    (fun _ _ he => he)

theorem releasable_of_linked (hf : Formed (s, .idle)) (hl : Linked (s, .idle))
    (hmem : req ∈ s.replies) : Releasable s req := by
  obtain ⟨cli, -, hreq⟩ := hl.replies req hmem
  refine ⟨cli, hreq, fun env hdone hquiet => ?_⟩
  have hends := clientEventRead_releases hf hl hreq hdone hquiet
  rcases exec_of_ends hends with ⟨hnone, _, hpost⟩ | ⟨_, _, hfalse⟩
  · exact ⟨hnone, hpost⟩
  · exact hfalse.elim

end Release

/-! ## The pool between events -/

/-- A request is attached exactly to a busy client, the attached requests are
the REPLY list, and the counter counts the busy clients. -/
structure LinkedPool (s : EvAIOPQBase) : Prop where
  busy : ∀ c, (s.clients c).busy = true ↔ (s.clients c).aiopqReq ≠ none
  replies : ∀ i, i ∈ s.replies ↔ ∃ c, (s.clients c).aiopqReq = some i
  repliesOnce : s.replies.Nodup
  attachedOnce : ∀ c c' i, (s.clients c).aiopqReq = some i →
    (s.clients c').aiopqReq = some i → c = c'
  inPool : ∀ c, (s.clients c).busy = true → c < s.cliCountCur
  count : s.cliCountBusy = s.busyCount
  releasable : ∀ i ∈ s.replies, Releasable s i

theorem linkedPool_of_linked {s : EvAIOPQBase} (hf : Formed (s, .idle))
    (hl : Linked (s, .idle)) : LinkedPool s where
  busy := fun c => hl.busy c (by simp [Mode.idle])
  replies := fun i => by
    refine ⟨fun hi => ?_, fun hi => hi.elim fun c hc => hf.attached c i (by simp [Mode.idle]) hc⟩
    obtain ⟨c, -, hc⟩ := hl.replies i hi
    exact ⟨c, hc⟩
  repliesOnce := hf.wf.list_nodup queryListReply
  attachedOnce := fun c c' i =>
    hf.attachedOnce c c' i (by simp [Mode.idle]) (by simp [Mode.idle])
  inPool := fun c hbusy => by
    by_contra hout
    have hfree := hl.inPool c (by simpa using hout)
    simp [hbusy] at hfree
  count := hl.count
  releasable := fun _ hi => releasable_of_linked hf hl hi

def LinksKept (c : Config) : Prop := c.fault = none → LinkedPool c.state

/-- **The links hold between events** in a run that closes no client while a
request is attached to it. -/
theorem links_kept (env : Nat → Answer) (conf : EvAIOPQBaseConf) (evs : List Event)
    (hclose : NoBusyClose (runFrom env conf evs).state.log) :
    LinksKept (runFrom env conf evs) := by
  intro hlive
  have h := (runFrom_path env conf evs).of_live hlive
  have hnew := formed_baseNew conf
  exact linkedPool_of_linked (path_formed h hnew)
    (path_linked h hnew hclose (linked_baseNew conf))

/-- A query is sent, and the client is closed after its reply was read. -/
theorem links_kept_after_reply :
    NoBusyClose (runFrom (fun _ => {}) {}
      [.user (.sendReq (some "SELECT 1") true 0), .readReady 0, .eof 0 3]).state.log ∧
    LinksKept (runFrom (fun _ => {}) {}
      [.user (.sendReq (some "SELECT 1") true 0), .readReady 0, .eof 0 3]) := by
  have hclose : NoBusyClose (runFrom (fun _ => {}) {}
      [.user (.sendReq (some "SELECT 1") true 0), .readReady 0, .eof 0 3]).state.log := by
    have hlog : (runFrom (fun _ => {}) {} [.user (.sendReq (some "SELECT 1") true 0),
        .readReady 0, .eof 0 3]).state.log =
        [.accepted 0, .ready 0 true, .selected 0 true false false, .sent 0, .called 0,
          .closed 0 false] := by
      decide
    simp [NoBusyClose, hlog]
  exact ⟨hclose, links_kept _ _ _ hclose⟩

/-- A client that loses its connection while its query runs is not busy, and
still has the request attached. -/
theorem close_unlinks_request :
    ¬LinksKept (runFrom (fun _ => {}) {}
      [.user (.sendReq (some "SELECT 1") true 0), .eof 0 3]) := by
  intro h
  have hbusy := (h (by decide)).busy 0
  revert hbusy
  decide

/-! ## The client selected for dispatch -/

/-- No search polled a client ready that was not flagged online. -/
def NoOfflineReady (log : List Obs) : Prop := ∀ cli, Obs.ready cli false ∉ log

/-- Every client handed out so far was online, free and unattached. -/
def Chosen (log : List Obs) : Prop :=
  ∀ cli online busy attached, Obs.selected cli online busy attached ∈ log →
    online = true ∧ busy = false ∧ attached = false

theorem Chosen.append_neutral {l l' : List Obs} (h : Chosen l)
    (hl' : ∀ o ∈ l', o.neutral = true) : Chosen (l ++ l') := by
  intro cli online busy attached hmem
  rcases mem_append.1 hmem with hmem | hmem
  · exact h cli online busy attached hmem
  · have hneutral := hl' _ hmem
    simp [Obs.neutral] at hneutral

theorem Chosen.append_serial {l : List Obs} (h : Chosen l) {o : Obs}
    (ho : ∀ cli online busy attached, o ≠ .selected cli online busy attached) :
    Chosen (l ++ [o]) := by
  intro cli online busy attached hmem
  rcases mem_append.1 hmem with hmem | hmem
  · exact h cli online busy attached hmem
  · exact absurd (mem_singleton.1 hmem).symm (ho cli online busy attached)

theorem Probe.chosen {s t : EvAIOPQBase} {m : Mode} (h : Probe s t) (hm : m.held = none)
    (hready : NoOfflineReady t.log) (hl : Linked (s, m)) (hc : Chosen s.log) :
    Chosen t.log := by
  cases h with
  | touch h =>
      obtain ⟨l, hlog, hneutral⟩ := h.log
      rw [hlog]
      exact hc.append_neutral hneutral
  | grow n _ => exact hc
  | select cli ts _ hbusy =>
      have hlog : (s.select cli ts).log = s.log ++ [.ready cli (s.clients cli).online] ++
          [.selected cli (s.clients cli).online (s.clients cli).busy
            (s.clients cli).aiopqReq.isSome] := rfl
      have honline : (s.clients cli).online = true := by
        by_contra hoff
        refine hready cli ?_
        rw [hlog]
        simp only [Bool.not_eq_true] at hoff
        simp [hoff]
      have hnone : (s.clients cli).aiopqReq = none := by
        have hiff := hl.busy cli (by simp [hm])
        simpa [hbusy] using hiff
      rw [hlog]
      intro cli' online busy attached hmem
      rcases mem_append.1 hmem with hmem | hmem
      · exact hc.append_neutral (by simp [Obs.neutral]) cli' online busy attached hmem
      · have heq := mem_singleton.1 hmem
        simp only [Obs.selected.injEq] at heq
        obtain ⟨-, rfl, rfl, rfl⟩ := heq
        simp [honline, hbusy, hnone]

theorem Act.chosen {p q : Point} (h : Act p q) (hready : NoOfflineReady q.1.log)
    (hl : Linked p) (hc : Chosen p.1.log) : Chosen q.1.log := by
  cases h with
  | send h =>
      cases h with
      | touch m h =>
          obtain ⟨l, hlog, hneutral⟩ := h.log
          rw [hlog]
          exact hc.append_neutral hneutral
      | probe m hm h => exact h.chosen hm hready hl hc
      | accept => exact hc.append_serial (by simp)
      | refuse => exact hc.append_serial (by simp)
      | sendNow =>
          rw [attach_log]
          exact hc.append_serial (by simp)
      | _ => exact hc
  | dispatch =>
      rw [attach_log]
      exact hc.append_serial (by simp)
  | @release s cli req _ _ =>
      change Chosen (s.detach cli req).log
      rw [detach_log]
      exact hc
  | decrease _ _ =>
      rw [decrease_log]
      exact hc
  | _ => exact hc

theorem path_chosen {p q : Point} (h : Path p q) (hp : Formed p)
    (hclose : NoBusyClose q.1.log) (hready : NoOfflineReady q.1.log) (hl : Linked p)
    (hc : Chosen p.1.log) : Chosen q.1.log := by
  induction h with
  | refl => exact hc
  | tail hpath hstep ih =>
      have hclose' := hclose.of_prefix hstep.log_prefix
      refine hstep.chosen hready (path_linked hpath hp hclose' hl) (ih hclose' ?_)
      exact fun cli hmem => hready cli (hstep.log_prefix.subset hmem)

/-- Every client selected for dispatch was online, not busy and unattached, and
none of the three assertions on it has failed. -/
def SelectionSafe (c : Config) : Prop :=
  (∀ cli, c.fault ≠ some (.clientOffline cli) ∧ c.fault ≠ some (.clientBusy cli) ∧
    c.fault ≠ some (.requestAttached cli)) ∧ Chosen c.state.log

/-- Two queries, the second sent by the dispatch timer. -/
def twoQueries : List Event :=
  [.user (.sendReq (some "SELECT 1") true 0), .user (.sendReq (some "SELECT 2") true 0),
    .readReady 0, .dispatchTick 3]

/-- libpq's answers when the server is down while the pool is opened, and is
back when the client reconnects at once. -/
def serverRestarts : Nat → Answer := fun n => if n = 2 then { connStatus := .bad } else {}

end EvAIOPQ
