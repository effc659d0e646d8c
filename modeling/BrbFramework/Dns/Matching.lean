import BrbFramework.Dns.Resolver

/-!
# Which query a datagram answers

`CommEvDNSDataEvent` looks for the query under the id that the parser stored,
and the parser stores none when the datagram has no complete header. The id is
zero then, which is the id of the first slot.
-/

namespace Dns

open Handler List Function

/-- A query in use has a callback and the id of its slot. -/
def Named (s : EvDNSResolverBase) : Prop :=
  ∀ q, (s.arena q).inUse = true → (s.arena q).slotId = q ∧ (s.arena q).hasHandler = true

/-- What the resolver's functions do besides invoking callbacks. -/
def Quiet (s t : EvDNSResolverBase) : Prop := t.log = s.log ∧ (Named s → Named t)

section Quiet

variable {env : Env} {s t u : EvDNSResolverBase}

theorem Quiet.trans (h : Quiet s t) (h' : Quiet t u) : Quiet s u :=
  ⟨h'.1.trans h.1, h'.2 ∘ h.2⟩

theorem quiet_of_eq (hlog : t.log = s.log) (harena : t.arena = s.arena) : Quiet s t :=
  ⟨hlog, fun h q => harena ▸ h q⟩

theorem Named.update {f : DNSPendingQuery} {q : Nat} (h : Named s)
    (hf : f.inUse = true → f.slotId = q ∧ f.hasHandler = true)
    (harena : t.arena = update s.arena q f) : Named t := by
  intro i hi
  rw [harena] at hi ⊢
  by_cases hiq : i = q
  · subst hiq
    simp only [update_self] at hi ⊢
    exact hf hi
  · rw [update_of_ne hiq] at hi ⊢
    exact h i hi

theorem quiet_setQuery {q : Nat} {f : DNSPendingQuery → DNSPendingQuery}
    (hf : ∀ p, (f p).inUse = p.inUse ∧ (f p).slotId = p.slotId ∧
      (f p).hasHandler = p.hasHandler)
    (hlog : t.log = s.log) (harena : t.arena = update s.arena q (f (s.arena q))) :
    Quiet s t := by
  obtain ⟨huse, hslot, hhandler⟩ := hf (s.arena q)
  refine ⟨hlog, fun h => h.update (fun hin => ?_) harena⟩
  rw [hslot, hhandler]
  exact h q (huse ▸ hin)

theorem quiet_clear {q : Nat} (hlog : t.log = s.log)
    (harena : t.arena = update s.arena q {}) : Quiet s t :=
  ⟨hlog, fun h => h.update (fun hin => by cases hin) harena⟩

theorem writeLoop_quiet (canWriteSz : Int) (fuel : Nat) (wrote total : Int) :
    Ends (writeLoop env canWriteSz fuel wrote total) s (fun _ t => Quiet s t)
      fun _ t => Quiet s t := by
  induction fuel generalizing s wrote total with
  | zero => exact quiet_of_eq rfl rfl
  | succ fuel ih =>
      simp only [writeLoop]
      rw [ends_bind]
      simp only [reqPopHead, ends_modifyGet]
      cases (Linked.popHead s.reqList s.nodes).1 with
      | none =>
          simp only [ends_bind, ends_modify, ends_pure]
          exact quiet_of_eq rfl rfl
      | some q =>
          simp only
          rw [ends_bind, ends_get, ends_bind, ends_assertThat]
          refine ⟨fun _ => ?_, fun _ => quiet_of_eq rfl rfl⟩
          rw [ends_ite]
          refine ⟨fun _ => ?_, fun _ => ?_⟩
          · simp only [ends_bind, ends_modify, ends_pure]
            exact quiet_of_eq rfl rfl
          rw [ends_bind]
          simp only [sendto, ends_modifyGet]
          rw [ends_ite]
          refine ⟨fun _ => ?_, fun _ => ?_⟩
          · simp only [ends_bind, ends_modify, ends_pure]
            refine quiet_setQuery (f := fun p => { p with failCount := p.failCount + 1 })
              (fun _ => ⟨rfl, rfl, rfl⟩) rfl rfl
          · rw [ends_bind]
            simp only [sent, ends_modify]
            refine Ends.mono (ih _ _) (fun _ t ht => Quiet.trans ?_ ht)
              fun _ t ht => Quiet.trans ?_ ht
            all_goals
              exact quiet_setQuery
                (f := fun p => { p with reqCount := p.reqCount + 1, waitingReply := true })
                (fun _ => ⟨rfl, rfl, rfl⟩) rfl rfl

theorem getHostByNameX_quiet (host : List UInt8) (hasHandler : Bool) (cbData : Nat)
    (queryX : Int) :
    Ends (getHostByNameX env host hasHandler cbData queryX) s (fun _ t => Quiet s t)
      fun _ t => Quiet s t := by
  simp only [getHostByNameX]
  rw [ends_ite]
  refine ⟨fun _ => ?_, fun hhandler => ?_⟩
  · simp only [ends_bind, ends_modify, ends_pure]
    exact quiet_of_eq rfl rfl
  rw [ends_bind, ends_get]
  cases s.slots with
  | nil =>
      simp only [ends_bind, ends_modify, ends_pure]
      exact quiet_of_eq rfl rfl
  | cons slot rest =>
      simp only
      rw [ends_bind, ends_modify, ends_bind, ends_get, ends_bind, ends_assertThat]
      refine ⟨fun _ => ?_, fun _ => quiet_of_eq rfl rfl⟩
      rw [ends_bind, ends_assertThat]
      refine ⟨fun _ => ?_, fun _ => quiet_of_eq rfl rfl⟩
      rw [ends_bind, ends_modify, ends_bind, ends_get]
      generalize hstored : ({ EvDNSResolverBase.reqAddTail _ slot with writeEvent := true } :
        EvDNSResolverBase) = t
      have hquiet : Quiet s t := by
        refine ⟨by rw [← hstored]; rfl, fun h i hi => ?_⟩
        by_cases hislot : i = slot
        · subst hislot
          rw [← hstored]
          have hhas : hasHandler = true := by simpa using hhandler
          simp [EvDNSResolverBase.reqAddTail, EvDNSResolverBase.setQuery,
            EvDNSResolverBase.clearQuery, hhas]
        · have hsame : t.arena i = s.arena i := by
            rw [← hstored]
            simp [EvDNSResolverBase.reqAddTail, EvDNSResolverBase.setQuery,
              EvDNSResolverBase.clearQuery, hislot]
          rw [hsame] at hi ⊢
          exact h i hi
      rw [ends_ite]
      refine ⟨fun _ => ?_, fun _ => ?_⟩
      · simp only [ends_bind, ends_modify, ends_pure]
        exact hquiet.trans (quiet_of_eq rfl rfl)
      · rw [ends_bind]
        refine Ends.mono (writeLoop_quiet _ _ _ _) (fun _ u hu => ?_)
          fun _ _ hu => hquiet.trans hu
        simp only [ends_bind, ends_modify, ends_pure]
        exact (hquiet.trans hu).trans (quiet_of_eq rfl rfl)

theorem userOp_quiet (op : UserOp) :
    Ends (userOp env op) s (fun _ t => Quiet s t) fun _ t => Quiet s t := by
  cases op with
  | lookup host hasHandler cbData queryX =>
      simp only [userOp]
      rw [ends_bind]
      exact (getHostByNameX_quiet host hasHandler cbData queryX).imp fun _ _ ht => ht
  | cancel reqId =>
      simp only [userOp, cancelPendingRequest]
      rw [ends_bind, ends_bind, ends_get, ends_ite]
      refine ⟨fun _ => quiet_of_eq rfl rfl, fun _ => ?_⟩
      rw [ends_ite]
      refine ⟨fun _ => ?_, fun _ => ?_⟩
      · simp only [ends_bind, ends_modify, ends_pure]
        exact quiet_setQuery (f := fun p => { p with canceledReq := true })
          (fun _ => ⟨rfl, rfl, rfl⟩) rfl rfl
      · simp only [ends_bind, ends_modify, ends_pure]
        exact quiet_clear rfl rfl

theorem userOps_quiet (ops : List UserOp) :
    Ends (userOps env ops) s (fun _ t => Quiet s t) fun _ t => Quiet s t := by
  induction ops generalizing s with
  | nil => exact quiet_of_eq rfl rfl
  | cons op ops ih =>
      simp only [userOps]
      rw [ends_bind]
      exact (userOp_quiet op).imp
        (fun _ t ht => ih.mono (fun _ _ hu => ht.trans hu) fun _ _ hu => ht.trans hu)

end Quiet

/-! ## Replies -/

section Replies

variable {env : Env} {s t : EvDNSResolverBase} {q : Nat}

/-- The callback of `q` was invoked once, if `q` is in use and not canceled. -/
def Answered (s : EvDNSResolverBase) (q : Nat) (t : EvDNSResolverBase) : Prop :=
  (Named s → Named t) ∧
    ∃ reply code, t.log = s.log ++
      if (s.arena q).inUse && ((s.arena q).hasHandler && !(s.arena q).canceledReq) then
        [⟨q, (s.arena q).slotId, (s.arena q).cbData, reply, code⟩]
      else []

theorem Answered.quiet {u : EvDNSResolverBase} (h : Answered s q t) (hu : Quiet t u) :
    Answered s q u := by
  obtain ⟨hnamed, reply, code, hlog⟩ := h
  exact ⟨hu.2 ∘ hnamed, reply, code, hu.1.trans hlog⟩

theorem invoke_answered {q : Nat} (hused : (s.arena q).inUse = true) (reply : DNSAReply)
    (code : DNSReplyCodes) :
    Ends (invoke env q reply code) s (fun _ t => Answered s q t) fun _ t => Answered s q t := by
  simp only [invoke]
  rw [ends_bind, ends_get, ends_ite]
  refine ⟨fun hcall => ?_, fun hnot => ⟨id, reply, code, ?_⟩⟩
  · rw [ends_bind, ends_set]
    have hset : Answered s q { s with log := s.log ++
        [⟨q, (s.arena q).slotId, (s.arena q).cbData, reply, code⟩] } :=
      ⟨id, reply, code, by rw [hused, Bool.true_and, if_pos hcall]⟩
    exact (userOps_quiet _).mono (fun _ _ ht => hset.quiet ht) fun _ _ ht => hset.quiet ht
  · rw [hused, Bool.true_and, if_neg hnot, append_nil]

theorem release_quiet (q : Nat) :
    Ends (release q) s (fun _ t => Quiet s t) fun _ t => Quiet s t := by
  simp only [release, ends_modify]
  exact quiet_clear rfl rfl

/-- **What a reply does.**  It answers the query it names, and no other one. -/
theorem dispatch_answered (u : Rfc1035.Unpacked) :
    Ends (dispatch env u) s (fun _ t => Answered s (replySeqId u) t)
      fun _ t => Answered s (replySeqId u) t := by
  simp only [dispatch]
  rw [ends_bind, ends_get, ends_ite]
  refine ⟨fun hused => ?_, fun hnot => ⟨id, {}, .success, ?_⟩⟩
  · have hdone (t : EvDNSResolverBase) (ht : Answered s (replySeqId u) t) :
        Ends (release (replySeqId u)) t (fun _ t => Answered s (replySeqId u) t)
          fun _ t => Answered s (replySeqId u) t :=
      (release_quiet _).mono (fun _ _ hr => ht.quiet hr) fun _ _ hr => ht.quiet hr
    rw [ends_ite]
    refine ⟨fun _ => ?_, fun _ => ?_⟩
    · rw [ends_bind]
      exact (invoke_answered hused _ _).imp fun _ t ht => hdone t ht
    · rw [ends_bind, ends_set, ends_bind]
      refine Ends.imp (invoke_answered ?_ _ _) (fun _ t ht => hdone t ht)
      exact hused
  · rw [Bool.not_eq_true] at hnot
    simp [hnot]

def headerId (data : List UInt8) : Nat := (data.getD 0 0).toNat * 256 + (data.getD 1 0).toNat

theorem short_replyBuffer (toReadSz : Nat) (data : List UInt8) (stack : Nat → UInt8) :
    Rfc1035.short (replyBuffer toReadSz data stack) 0 = headerId data := by
  simp [Rfc1035.short, replyBuffer, headerId]

/-- The query that a datagram is taken to be the reply to. -/
def addressee (data : List UInt8) : Nat := if data.length < 12 then 0 else headerId data

/-- A datagram answers its addressee, unless it crashes the parser; then it has
a header. -/
def Received (s : EvDNSResolverBase) (data : List UInt8) (t : EvDNSResolverBase) : Prop :=
  Answered s (addressee data) t ∨ 12 ≤ data.length ∧ Quiet s t

theorem dataEvent_received (toReadSz : Nat) (data : List UInt8) (stack : Nat → UInt8) :
    Ends (dataEvent env toReadSz (some data) stack) s (fun _ t => Received s data t)
      fun _ t => Received s data t := by
  simp only [dataEvent]
  rw [ends_bind, ends_modify]
  cases hu : Rfc1035.answersUnpack (replyBuffer toReadSz data stack) data.length with
  | none =>
      refine .inr ⟨Nat.le_of_not_lt fun hshort => ?_, quiet_of_eq rfl rfl⟩
      cases (Rfc1035.answersUnpack_short hshort).symm.trans hu
  | some u =>
      have hid : replySeqId u = addressee data := by
        rw [replySeqId, Rfc1035.answersUnpack_id hu, addressee, short_replyBuffer]
        split <;> rfl
      simp only
      rw [ends_bind]
      refine (dispatch_answered u).mono (fun _ t ht => .inl ?_) fun _ t ht => .inl ?_
      · exact (hid ▸ ht).quiet (quiet_of_eq rfl rfl)
      · exact hid ▸ ht

theorem dataEvent_named (h : Named s) (toReadSz : Nat) (received : Option (List UInt8))
    (stack : Nat → UInt8) :
    Ends (dataEvent env toReadSz received stack) s (fun _ t => Named t) fun _ t => Named t := by
  have hnamed (data : List UInt8) (t : EvDNSResolverBase) (ht : Received s data t) : Named t :=
    ht.elim (fun ht => ht.1 h) fun ht => ht.2.2 h
  cases received with
  | none => exact h
  | some data =>
      exact (dataEvent_received toReadSz data stack).mono (fun _ t ht => hnamed data t ht)
        fun _ t ht => hnamed data t ht

/-! ## Runs -/

theorem timerWalk_named (fuel : Nat) (node : Option Nat) (rxmit : Nat) (h : Named s) :
    Ends (timerWalk env fuel node rxmit) s (fun _ t => Named t) fun _ t => Named t := by
  induction fuel generalizing s node rxmit with
  | zero => exact h
  | succ fuel ih =>
      cases node with
      | none => exact h
      | some node =>
          simp only [timerWalk]
          rw [ends_bind, ends_get]
          cases (s.nodes node).data with
          | none => exact h
          | some q =>
              simp only
              rw [ends_bind, ends_assertThat]
              refine ⟨fun hwaiting => ?_, fun _ => h⟩
              cases due s (s.arena q) with
              | retransmit =>
                  simp only
                  rw [ends_bind, ends_set, ends_bind, ends_get]
                  have hquiet : Quiet s ((((s.setQuery q fun p =>
                      { p with retransmitTv := s.curInvokeTv }).replyDelete q).reqAddTail q
                      ).setQuery q fun p => { p with waitingReply := false, reXmit := true }) :=
                    quiet_setQuery (q := q) (f := fun p =>
                      { p with retransmitTv := s.curInvokeTv, waitingReply := false
                               reXmit := true }) (fun _ => ⟨rfl, rfl, rfl⟩) rfl
                      (by simp [EvDNSResolverBase.setQuery, EvDNSResolverBase.replyDelete,
                        EvDNSResolverBase.reqAddTail])
                  exact ih _ _ (hquiet.2 h)
              | wait => exact ih _ _ h
              | timedOut =>
                  simp only
                  rw [ends_bind, ends_set, ends_bind]
                  have hinvoke (reply : DNSAReply) (code : DNSReplyCodes)
                      (t : EvDNSResolverBase) (ht : Named t) :
                      Ends (invoke env q reply code) t (fun _ t => Named t)
                        fun _ t => Named t := by
                    simp only [invoke]
                    rw [ends_bind, ends_get, ends_ite]
                    refine ⟨fun _ => ?_, fun _ => ht⟩
                    rw [ends_bind, ends_set]
                    exact (userOps_quiet _).mono (fun _ _ hu => hu.2 ht) fun _ _ hu => hu.2 ht
                  refine Ends.imp (hinvoke _ _ _ h) (fun _ t ht => ?_)
                  rw [ends_bind, ends_get, ends_bind]
                  exact (release_quiet q).mono (fun _ _ hu => ih _ _ (hu.2 ht))
                    fun _ _ hu => hu.2 ht

theorem handle_named (e : Timeval × Event) (h : Named s) :
    Ends (handle env e) s (fun _ t => Named t) fun _ t => Named t := by
  obtain ⟨now, e⟩ := e
  simp only [handle]
  rw [ends_bind, ends_modify]
  cases e with
  | user op => exact Ends.mono (userOp_quiet op) (fun _ _ ht => ht.2 h) fun _ _ ht => ht.2 h
  | write canWriteSz =>
      simp only [event]
      rw [ends_bind, ends_modify, ends_bind]
      exact Ends.mono (writeLoop_quiet _ _ _ _) (fun _ _ ht => ht.2 h) fun _ _ ht => ht.2 h
  | data toReadSz received stack =>
      simp only [event]
      rw [ends_bind, ends_modify]
      refine Ends.imp (dataEvent_named ?_ toReadSz received stack) (fun _ _ ht => ht)
      exact h
  | tick =>
      simp only [event, periodicTimerEvent]
      rw [ends_bind, ends_modify, ends_bind, ends_get, ends_ite]
      refine ⟨fun _ => ?_, fun _ => h⟩
      rw [ends_bind]
      exact Ends.imp (timerWalk_named _ _ _ h) (fun _ _ ht => ht)

theorem named_run (env : Env) (conf : EvDNSResolverConf) (evs : List (Timeval × Event)) :
    Named (runFrom env conf evs).state := by
  have hnew : Named (.new conf) := fun q hq => by cases hq
  have h : Runs.Holds Named (fun _ => Named) (runFrom env conf evs) :=
    Runs.invariant_run (fun e s => handle_named e) (c := .live (.new conf)) hnew evs
  exact h.always

end Replies

/-- The callbacks that one run of `CommEvDNSDataEvent` invokes. -/
def invoked (env : Env) (toReadSz : Nat) (received : Option (List UInt8))
    (stack : Nat → UInt8) (s : EvDNSResolverBase) : List Call :=
  (exec (dataEvent env toReadSz received stack) s).1.log.drop s.log.length

/-- Only the query that the header names is answered. -/
def Matched (received : Option (List UInt8)) (calls : List Call) : Prop :=
  ∀ call ∈ calls, ∃ data, received = some data ∧ 12 ≤ data.length ∧
    call.slotId = headerId data

/-- **Reply matching.**  In every state a run reaches, a datagram completes no
query but the one its header names exactly if it has a header, or if nothing
waits under the first slot. -/
theorem matched_iff (env : Env) (conf : EvDNSResolverConf) (evs : List (Timeval × Event))
    (toReadSz : Nat) (received : Option (List UInt8)) (stack : Nat → UInt8) :
    Matched received (invoked env toReadSz received stack (runFrom env conf evs).state) ↔
      ∀ data, received = some data → data.length < 12 →
        ((runFrom env conf evs).state.arena 0).inUse = true →
        ((runFrom env conf evs).state.arena 0).canceledReq = true := by
  have hnamed := named_run env conf evs
  generalize (runFrom env conf evs).state = s at hnamed ⊢
  cases received with
  | none =>
      have hnone : invoked env toReadSz none stack s = [] := drop_length
      simp [Matched, hnone]
  | some data =>
      have hreceived : Received s data (exec (dataEvent env toReadSz (some data) stack) s).1 := by
        rcases exec_of_ends (dataEvent_received toReadSz data stack) with ⟨-, -, h⟩ | ⟨-, -, h⟩ <;>
          exact h
      rcases hreceived with ⟨-, reply, code, hlog⟩ | ⟨hlong, hquiet, -⟩
      · rw [invoked, hlog, drop_left]
        by_cases hshort : data.length < 12
        · -- the addressee is slot zero, whose callback must not be invoked
          have hzero : addressee data = 0 := if_pos hshort
          rw [hzero]
          constructor
          · intro hmatched data' hdata' _ hused
            by_contra hcancel
            have hcall : ((s.arena 0).inUse && ((s.arena 0).hasHandler &&
                !(s.arena 0).canceledReq)) = true := by
              rw [hused, (hnamed 0 hused).2, Bool.eq_false_iff.mpr hcancel]
              rfl
            rw [if_pos hcall] at hmatched
            obtain ⟨data'', hdata'', hlong, -⟩ := hmatched _ mem_cons_self
            cases hdata''
            omega
          · intro hidle call hcall
            split at hcall
            · rename_i hon
              simp only [Bool.and_eq_true, Bool.not_eq_true'] at hon
              rw [hidle data rfl hshort hon.1] at hon
              exact absurd hon.2.2 (by simp)
            · cases hcall
        · have hid : addressee data = headerId data := if_neg hshort
          refine iff_of_true (fun call hcall => ?_) fun data' hdata' hlt => ?_
          · split at hcall
            · rename_i hon
              cases mem_singleton.mp hcall
              exact ⟨data, rfl, Nat.le_of_not_lt hshort,
                ((hnamed _ (Bool.and_eq_true_iff.mp hon).1).1).trans hid⟩
            · cases hcall
          · cases hdata'
            exact absurd hlt hshort
      · have hcalls : invoked env toReadSz (some data) stack s = [] := by
          rw [invoked, hquiet, drop_length]
        rw [hcalls]
        refine iff_of_true (fun call hcall => by cases hcall) fun data' hdata' hlt => ?_
        cases hdata'
        omega

/-- One octet from the name server completes the query of slot zero. -/
theorem short_datagram_completes :
    ¬Matched (some [1])
      (invoked ⟨fun _ => querySz, fun _ => []⟩ 1 (some [1]) (fun _ => 0)
        (runFrom ⟨fun _ => querySz, fun _ => []⟩ ⟨10000, 1000, 3⟩
          [(⟨1, 0⟩, .user (.lookup [97] true 1 0))]).state) := by
  intro h
  have hcalled : invoked ⟨fun _ => querySz, fun _ => []⟩ 1 (some [1]) (fun _ => 0)
      (runFrom ⟨fun _ => querySz, fun _ => []⟩ ⟨10000, 1000, 3⟩
        [(⟨1, 0⟩, .user (.lookup [97] true 1 0))]).state ≠ [] := by decide
  obtain ⟨call, hcall⟩ := exists_mem_of_ne_nil _ hcalled
  obtain ⟨data, hdata, hlong, -⟩ := h call hcall
  cases hdata
  exact absurd hlong (by decide)

end Dns
