import BrbFramework.Dns.Bookkeeping
import BrbFramework.Dns.Matching

/-!
# A pass of the resolver's timer

`CommEvDNSPeriodicTimerEvent` walks the reply list. A query that is due for
retransmission is moved to the tail of the request list, and the walk then
follows the `next` pointer of its node, which is null there. So the queries
behind it wait for the next tick.

`timerWalkList` is the walk with a list of what it looked at.
-/

namespace Dns

open Handler Linked List Function

/-- A query that the walk looked at, as it found it, and what it made of it. -/
structure Examined where
  query : Nat
  found : DNSPendingQuery
  made : Due

def Due.isRetransmit : Due → Bool
  | .retransmit => true
  | _ => false

/-- A query is moved to the request list, to be written again. -/
def EvDNSResolverBase.moveToReq (s : EvDNSResolverBase) (q : Nat) : EvDNSResolverBase :=
  (((s.setQuery q fun p => { p with retransmitTv := s.curInvokeTv }).replyDelete q).reqAddTail q
    ).setQuery q fun p => { p with waitingReply := false, reXmit := true }

section Functions

variable (env : Env)

/-- `timerWalk`, with what it looks at. -/
def timerWalkList : Nat → Option Nat → M (List Examined)
  | 0, _ => throw .stuck
  | _ + 1, none => return []
  | fuel + 1, some node => do
      let s ← get
      match (s.nodes node).data with
      | none => return []
      | some q =>
          assertThat (s.arena q).waitingReply .notWaiting
          match due s (s.arena q) with
          | .retransmit =>
              set (s.moveToReq q)
              let rest ← timerWalkList fuel ((← get).nodes node).next
              return ⟨q, s.arena q, .retransmit⟩ :: rest
          | .wait =>
              let rest ← timerWalkList fuel (s.nodes node).next
              return ⟨q, s.arena q, .wait⟩ :: rest
          | .timedOut =>
              set { s with stats :=
                { s.stats with requestTimeout := s.stats.requestTimeout + 1 } }
              invoke env q {} .timedOut
              let next := ((← get).nodes node).next
              release q
              let rest ← timerWalkList fuel next
              return ⟨q, s.arena q, .timedOut⟩ :: rest

/-- `periodicTimerEvent`, with what it looks at. -/
def timerPass : M (List Examined) := do
  modify fun s => { s with timer := false }
  let s ← get
  if s.replyList.head.isSome then
    let l ← timerWalkList env (maxSeqId + 1) s.replyList.head
    modify fun s =>
      { s with writeEvent := s.writeEvent || decide (l.countP (·.made.isRetransmit) > 0)
               timer := true }
    return l
  else
    return []

theorem timerWalk_eq (fuel : Nat) (node : Option Nat) (rxmit : Nat) :
    timerWalk env fuel node rxmit =
      (fun l => rxmit + l.countP (·.made.isRetransmit)) <$> timerWalkList env fuel node := by
  induction fuel generalizing node rxmit with
  | zero => rfl
  | succ fuel ih =>
      cases node with
      | none => rfl
      | some node =>
          simp only [timerWalk, timerWalkList, map_bind]
          congr 1
          funext s
          cases (s.nodes node).data with
          | none => rfl
          | some q =>
              simp only [map_bind]
              congr 1
              funext _
              cases due s (s.arena q) with
              | retransmit =>
                  have hone : Due.isRetransmit .retransmit = true := rfl
                  simp [ih, EvDNSResolverBase.moveToReq, hone, Nat.add_assoc, Nat.add_comm 1]
              | wait =>
                  have hnone : Due.isRetransmit .wait = false := rfl
                  simp [ih, hnone]
              | timedOut =>
                  have hnone : Due.isRetransmit .timedOut = false := rfl
                  simp [ih, hnone]

theorem periodicTimerEvent_eq :
    periodicTimerEvent env = (fun _ => ()) <$> timerPass env := by
  simp only [periodicTimerEvent, timerPass, timerWalk_eq, map_bind]
  congr 1
  funext _
  congr 1
  funext s
  split
  · simp
  · simp

end Functions

/-! ## What callbacks leave alone -/

/-- The queries in `replies` are those of `s`, unless they were canceled since, and the clock has
not moved. -/
structure Spared (replies : List Nat) (s t : EvDNSResolverBase) : Prop where
  conf : t.conf = s.conf
  clock : t.curInvokeTv = s.curInvokeTv
  same : ∀ q ∈ replies, ∃ canceled, t.arena q = { s.arena q with canceledReq := canceled }

section Spared

variable {env : Env} {s t u : EvDNSResolverBase} {reqs replies : List Nat} {q : Nat}

theorem spared_of_eq (hconf : t.conf = s.conf) (hclock : t.curInvokeTv = s.curInvokeTv)
    (harena : t.arena = s.arena) : Spared replies s t :=
  ⟨hconf, hclock, fun q _ => ⟨(s.arena q).canceledReq, by rw [harena]⟩⟩

theorem Spared.trans (h : Spared replies s t) (h' : Spared replies t u) : Spared replies s u where
  conf := h'.conf.trans h.conf
  clock := h'.clock.trans h.clock
  same := by
    intro q hq
    obtain ⟨_, ht⟩ := h.same q hq
    obtain ⟨canceled, hu⟩ := h'.same q hq
    exact ⟨canceled, by rw [hu, ht]⟩

theorem Spared.subset {replies' : List Nat} (h : Spared replies s t) (hsub : replies' ⊆ replies) :
    Spared replies' s t :=
  ⟨h.conf, h.clock, fun q hq => h.same q (hsub hq)⟩

theorem spared_of_ne (hq : q ∉ replies) (hconf : t.conf = s.conf)
    (hclock : t.curInvokeTv = s.curInvokeTv) (harena : ∀ i, i ≠ q → t.arena i = s.arena i) :
    Spared replies s t := by
  refine ⟨hconf, hclock, fun i hi => ⟨(s.arena i).canceledReq, ?_⟩⟩
  rw [harena i (ne_of_mem_of_not_mem hi hq)]

theorem getHostByNameX_spares {host : List UInt8} {hasHandler : Bool} {cbData : Nat}
    {queryX : Int} (h : Filed none s reqs replies) (hne : replies ≠ []) :
    Ends (getHostByNameX env host hasHandler cbData queryX) s (fun _ t => Spared replies s t)
      fun _ _ => True := by
  simp only [getHostByNameX]
  rw [ends_ite]
  refine ⟨fun _ => ?_, fun _ => ?_⟩
  · simp only [ends_bind, ends_modify, ends_pure]
    exact spared_of_eq rfl rfl rfl
  rw [ends_bind, ends_get]
  cases hslots : s.slots with
  | nil =>
      simp only [ends_bind, ends_modify, ends_pure]
      exact spared_of_eq rfl rfl rfl
  | cons slot rest =>
      have hfree := ((h.free slot).mp (hslots ▸ mem_cons_self)).2
      have hslot : slot ∉ replies := by
        intro hmem
        rw [(h.inUse slot).mpr (.inr (.inl hmem))] at hfree
        cases hfree
      have hhead : s.replyList.head.isSome = true := by
        rw [Option.isSome_iff_ne_none]
        intro hnone
        exact hne (h.reply.head_none.mp hnone)
      simp only
      rw [ends_bind, ends_modify, ends_bind, ends_get, ends_bind, ends_assertThat]
      refine ⟨fun _ => ?_, fun _ => trivial⟩
      rw [ends_bind, ends_assertThat]
      refine ⟨fun _ => ?_, fun _ => trivial⟩
      rw [ends_bind, ends_modify, ends_bind, ends_get, ends_ite]
      refine ⟨fun _ => ?_, fun hempty => absurd hhead hempty⟩
      simp only [ends_bind, ends_modify, ends_pure]
      apply spared_of_ne hslot
      · rfl
      · rfl
      · intro i hi
        simp [EvDNSResolverBase.reqAddTail, EvDNSResolverBase.setQuery,
          EvDNSResolverBase.clearQuery, hi]

theorem cancelPendingRequest_spares (reqId : Nat) (h : Filed none s reqs replies) :
    Ends (cancelPendingRequest reqId) s (fun _ t => Spared replies s t) fun _ _ => True := by
  simp only [cancelPendingRequest]
  rw [ends_bind, ends_get, ends_ite]
  refine ⟨fun _ => spared_of_eq rfl rfl rfl, fun _ => ?_⟩
  rw [ends_ite]
  refine ⟨fun _ => ?_, fun hidle => ?_⟩
  · simp only [ends_bind, ends_modify, ends_pure]
    refine ⟨rfl, rfl, fun i _ => ?_⟩
    by_cases hi : i = reqId
    · subst hi
      exact ⟨true, update_self i _ s.arena⟩
    · exact ⟨(s.arena i).canceledReq, update_of_ne hi _ s.arena⟩
  · have hreq : reqId ∉ replies := fun hmem => hidle ((h.waiting reqId).mpr hmem)
    simp only [ends_bind, ends_modify, ends_pure]
    exact spared_of_ne hreq rfl rfl fun i hi => update_of_ne hi _ s.arena

theorem userOps_spares {ops : List UserOp} (hfits : ∀ op ∈ ops, op.Fits)
    (h : Filed none s reqs replies) (hne : replies ≠ []) :
    Ends (userOps env ops) s
      (fun _ t => (∃ reqs', Filed none t reqs' replies) ∧ Spared replies s t)
      fun _ _ => False := by
  induction ops generalizing s reqs with
  | nil => exact ⟨⟨reqs, h⟩, spared_of_eq rfl rfl rfl⟩
  | cons op ops ih =>
      obtain ⟨hop, hops⟩ := forall_mem_cons.mp hfits
      have hspares : Ends (userOp env op) s (fun _ t => Spared replies s t) fun _ _ => True := by
        cases op with
        | lookup host hasHandler cbData queryX =>
            simp only [userOp]
            rw [ends_bind]
            exact (getHostByNameX_spares h hne).imp fun _ _ ht => ht
        | cancel reqId =>
            simp only [userOp]
            rw [ends_bind]
            exact (cancelPendingRequest_spares reqId h).imp fun _ _ ht => ht
      simp only [userOps]
      rw [ends_bind]
      apply ((userOp_ends hop h).and hspares).mono _ fun _ _ hfalse => hfalse.1
      rintro _ t ⟨⟨reqs', replies', ht, hsame⟩, hst⟩
      rw [hsame hne] at ht
      apply (ih hops ht).imp
      intro _ u hu
      exact ⟨hu.1, hst.trans hu.2⟩

theorem invoke_spares (henv : ∀ n, ∀ op ∈ env.callback n, op.Fits) {reply : DNSAReply}
    {code : DNSReplyCodes} (h : Filed none s reqs replies) (hne : replies ≠ []) :
    Ends (invoke env q reply code) s
      (fun _ t => (∃ reqs', Filed none t reqs' replies) ∧ Spared replies s t)
      fun _ _ => False := by
  simp only [invoke]
  rw [ends_bind, ends_get, ends_ite]
  refine ⟨fun _ => ?_, fun _ => ⟨⟨reqs, h⟩, spared_of_eq rfl rfl rfl⟩⟩
  rw [ends_bind, ends_set]
  obtain ⟨t, ht⟩ : ∃ t : EvDNSResolverBase, t = { s with log := s.log ++
    [⟨q, (s.arena q).slotId, (s.arena q).cbData, reply, code⟩] } := ⟨_, rfl⟩
  have hfiled : Filed none t reqs replies := by
    rw [ht]
    exact h.congr rfl rfl rfl rfl rfl
  have hspared : Spared replies s t := by
    rw [ht]
    exact spared_of_eq rfl rfl rfl
  rw [← ht]
  apply (userOps_spares (henv _) hfiled hne).imp
  intro _ u hu
  exact ⟨hu.1, hspared.trans hu.2⟩

end Spared

/-! ## What the walk makes of the queries -/

def PastLookup (s : EvDNSResolverBase) (q : Nat) : Prop :=
  tvSubMsec (s.arena q).transmitTv s.curInvokeTv > s.conf.lookupTimeoutMs

def PastRetry (s : EvDNSResolverBase) (q : Nat) : Prop :=
  tvSubMsec (s.arena q).retransmitTv s.curInvokeTv > s.conf.retryTimeoutMs

/-- The query should be written again, and was written too often for that. -/
def OutOfRetries (s : EvDNSResolverBase) (q : Nat) : Prop :=
  PastRetry s q ∧ (s.arena q).reqCount > s.conf.retryCount

def DueAgain (s : EvDNSResolverBase) (q : Nat) : Prop :=
  ¬PastLookup s q ∧ PastRetry s q ∧ (s.arena q).reqCount ≤ s.conf.retryCount

instance (s : EvDNSResolverBase) (q : Nat) : Decidable (PastLookup s q) :=
  inferInstanceAs (Decidable (_ > _))

instance (s : EvDNSResolverBase) (q : Nat) : Decidable (PastRetry s q) :=
  inferInstanceAs (Decidable (_ > _))

instance (s : EvDNSResolverBase) (q : Nat) : Decidable (DueAgain s q) :=
  inferInstanceAs (Decidable (_ ∧ _ ∧ _))

/-- A query was treated as its times say. One that was canceled is not given up before its lookup
timeout. -/
structure Judged (s : EvDNSResolverBase) (e : Examined) : Prop where
  found : ∃ canceled, e.found = { s.arena e.query with canceledReq := canceled }
  timedOut : e.made = .timedOut ↔
    PastLookup s e.query ∨ OutOfRetries s e.query ∧ e.found.canceledReq = false
  moved : e.made = .retransmit ↔ DueAgain s e.query

def told (l : List Examined) : List Call :=
  l.filterMap fun e =>
    match e.made with
    | .timedOut =>
        if e.found.hasHandler && !e.found.canceledReq then
          some ⟨e.query, e.found.slotId, e.found.cbData, {}, .timedOut⟩
        else none
    | _ => none

def waiting (l : List Examined) : List Nat :=
  l.filterMap fun e =>
    match e.made with
    | .wait => some e.query
    | _ => none

/-- A pass over the reply list `replies` looks at each of its queries once and does with it what
its times say: it is completed and released, moved to the request list, or left. -/
structure Examines (s : EvDNSResolverBase) (replies : List Nat) (l : List Examined)
    (t : EvDNSResolverBase) : Prop where
  once : (l.map Examined.query).Perm replies
  judged : ∀ e ∈ l, Judged s e
  told : t.log = s.log ++ told l
  lists : ∃ reqs, Filed none t reqs (waiting l) ∧ ∀ e ∈ l, e.made = .retransmit → e.query ∈ reqs

def reached (s : EvDNSResolverBase) : List Nat → List Nat
  | [] => []
  | q :: todo => q :: if DueAgain s q then [] else reached s todo

section Walk

variable {env : Env} {s t : EvDNSResolverBase} {reqs replies : List Nat} {q : Nat}

theorem due_timedOut_iff (s : EvDNSResolverBase) (q : Nat) :
    due s (s.arena q) = .timedOut ↔
      PastLookup s q ∨ OutOfRetries s q ∧ (s.arena q).canceledReq = false := by
  unfold due
  split
  · rename_i hlookup
    exact iff_of_true rfl (.inl hlookup)
  rename_i hlookup
  split
  · rename_i hretry
    split
    · rename_i hcount
      refine iff_of_false (by nofun) fun hor => ?_
      rcases hor with hpast | ⟨hout, -⟩
      · exact hlookup hpast
      · exact Int.not_lt.mpr hcount hout.2
    · rename_i hcount
      cases hcanceled : (s.arena q).canceledReq with
      | false => exact iff_of_true rfl (.inr ⟨⟨hretry, Int.not_le.mp hcount⟩, rfl⟩)
      | true =>
          refine iff_of_false (by nofun) fun hor => ?_
          rcases hor with hpast | ⟨-, hnot⟩
          · exact hlookup hpast
          · cases hnot
  · rename_i hretry
    refine iff_of_false (by nofun) fun hor => ?_
    rcases hor with hpast | ⟨hout, -⟩
    · exact hlookup hpast
    · exact hretry hout.1

theorem due_retransmit_iff (s : EvDNSResolverBase) (q : Nat) :
    due s (s.arena q) = .retransmit ↔ DueAgain s q := by
  unfold due
  split
  · rename_i hlookup
    exact iff_of_false (by nofun) fun hagain => hagain.1 hlookup
  rename_i hlookup
  split
  · rename_i hretry
    split
    · rename_i hcount
      exact iff_of_true rfl ⟨hlookup, hretry, hcount⟩
    · rename_i hcount
      refine iff_of_false ?_ fun hagain => hcount hagain.2.2
      split <;> nofun
  · rename_i hretry
    exact iff_of_false (by nofun) fun hagain => hretry hagain.2.1

theorem judged_due (s : EvDNSResolverBase) (q : Nat) :
    Judged s ⟨q, s.arena q, due s (s.arena q)⟩ where
  found := ⟨(s.arena q).canceledReq, rfl⟩
  timedOut := due_timedOut_iff s q
  moved := due_retransmit_iff s q

theorem Judged.before {e : Examined} (h : Judged t e) (hst : Spared replies s t)
    (hq : e.query ∈ replies) : Judged s e := by
  obtain ⟨canceled, hsame⟩ := hst.same e.query hq
  obtain ⟨canceled', hfound⟩ := h.found
  have hlookup : PastLookup t e.query ↔ PastLookup s e.query := by
    rw [PastLookup, PastLookup, hsame, hst.conf, hst.clock]
  have hretry : PastRetry t e.query ↔ PastRetry s e.query := by
    rw [PastRetry, PastRetry, hsame, hst.conf, hst.clock]
  constructor
  · exact ⟨canceled', by rw [hfound, hsame]⟩
  · rw [h.timedOut, hlookup, OutOfRetries, OutOfRetries, hretry, hsame, hst.conf]
  · rw [h.moved, DueAgain, DueAgain, hlookup, hretry, hsame, hst.conf]

theorem invoke_tells {code : DNSReplyCodes} {reply : DNSAReply} :
    Ends (invoke env q reply code) s
      (fun _ t => t.log = s.log ++
        if (s.arena q).hasHandler && !(s.arena q).canceledReq then
          [⟨q, (s.arena q).slotId, (s.arena q).cbData, reply, code⟩]
        else [])
      fun _ _ => True := by
  simp only [invoke]
  rw [ends_bind, ends_get, ends_ite]
  refine ⟨fun hcall => ?_, fun hnot => ?_⟩
  · rw [ends_bind, ends_set, if_pos hcall]
    exact (userOps_quiet _).mono (fun _ _ ht => ht.1) fun _ _ _ => trivial
  · rw [if_neg hnot, append_nil]
    rfl

theorem Filed.moveToReq (h : Filed none s reqs replies) (hq : q ∈ replies) :
    Filed none (s.moveToReq q) (reqs ++ [q]) (replies.erase q) ∧
      ((s.moveToReq q).nodes q).next = none := by
  have hrecalled := ((h.setQuery q (fun p => { p with retransmitTv := s.curInvokeTv })
    fun _ => ⟨rfl, rfl, rfl⟩).recall hq (fun p => { p with waitingReply := false, reXmit := true })
    fun _ => ⟨rfl, rfl, rfl⟩).reqAddTail
  have hnext := hrecalled.req.links.2
  rw [EvDNSResolverBase.moveToReq, reqAddTail_setQuery]
  exact ⟨hrecalled, hnext⟩

theorem told_cons_timedOut (q : Nat) (found : DNSPendingQuery) (l : List Examined) :
    told (⟨q, found, .timedOut⟩ :: l) =
      (if found.hasHandler && !found.canceledReq then
        [⟨q, found.slotId, found.cbData, {}, .timedOut⟩] else []) ++ told l := by
  rw [told, filterMap_cons]
  cases found.hasHandler && !found.canceledReq <;> rfl

theorem timerWalkList_ends (henv : ∀ n, ∀ op ∈ env.callback n, op.Fits)
    {s₀ : EvDNSResolverBase} {done todo : List Nat} {fuel : Nat} (hfuel : todo.length < fuel)
    (hs₀ : Spared todo s₀ s) (h : Filed none s reqs (done ++ todo)) :
    Ends (timerWalkList env fuel todo.head?) s
      (fun l t => l.map Examined.query = reached s₀ todo ∧ (∀ e ∈ l, Judged s₀ e) ∧
        t.log = s.log ++ told l ∧
        ∃ reqs', Filed none t reqs' (done ++ waiting l ++ todo.drop l.length) ∧
          ∀ e ∈ l, e.made = .retransmit → e.query ∈ reqs')
      fun _ _ => False := by
  induction fuel generalizing s reqs done todo with
  | zero => omega
  | succ fuel ih =>
      cases todo with
      | nil =>
          simp only [head?_nil, timerWalkList, ends_pure]
          refine ⟨rfl, ?_, (append_nil _).symm, reqs, ?_, ?_⟩
          · intro e he
            cases he
          · simpa [waiting] using h
          · intro e he
            cases he
      | cons q todo =>
          have hq : q ∈ done ++ q :: todo := by simp
          have hq₀ : q ∈ q :: todo := mem_cons_self
          have hfuel' : todo.length < fuel := by simpa using hfuel
          have hdone : q ∉ done := fun hmem =>
            (nodup_append.mp h.reply.nodup).2.2 q hmem q hq₀ rfl
          have htodo : q ∉ todo :=
            (nodup_cons.mp (nodup_append.mp h.reply.nodup).2.1).1
          have herase : (done ++ q :: todo).erase q = done ++ todo := by
            rw [erase_append_right _ hdone, erase_cons_head]
          have hrest : Spared todo s₀ s := hs₀.subset (subset_cons_self q todo)
          have hjudged : Judged s₀ ⟨q, s.arena q, due s (s.arena q)⟩ :=
            (judged_due s q).before hs₀ hq₀
          simp only [head?_cons, timerWalkList]
          rw [ends_bind, ends_get, h.data q (.inr hq)]
          simp only
          rw [ends_bind, ends_assertThat]
          refine ⟨fun _ => ?_, fun hbad => ?_⟩
          swap
          · rw [(h.waiting q).mpr hq] at hbad
            cases hbad
          obtain ⟨made, hmade⟩ : ∃ made, made = due s (s.arena q) := ⟨_, rfl⟩
          rw [← hmade] at hjudged ⊢
          cases made with
          | retransmit =>
              have hagain : DueAgain s₀ q := hjudged.moved.mp rfl
              obtain ⟨hmoved, hend⟩ := h.moveToReq hq
              rw [herase] at hmoved
              -- the walk goes on behind the tail of the request list, so it ends
              simp only
              rw [ends_bind, ends_set, ends_bind, ends_get, hend]
              cases fuel with
              | zero => omega
              | succ fuel =>
                  simp only [timerWalkList, ends_bind, ends_pure]
                  refine ⟨?_, ?_, ?_, reqs ++ [q], ?_, ?_⟩
                  · rw [reached, if_pos hagain]
                    rfl
                  · exact forall_mem_singleton.mpr hjudged
                  · exact (append_nil _).symm
                  · simpa [waiting] using hmoved
                  · intro e he _
                    rw [mem_singleton.mp he]
                    exact mem_append_right _ (mem_singleton_self q)
          | wait =>
              have hnot : ¬DueAgain s₀ q := fun hagain => by cases hjudged.moved.mpr hagain
              have hpassed : Filed none s reqs ((done ++ [q]) ++ todo) := by simpa using h
              simp only
              rw [ends_bind, h.reply.links.2]
              apply (ih hfuel' hrest hpassed).imp
              intro l t ht
              obtain ⟨hreached, hall, hlog, reqs', hfiled, hin⟩ := ht
              rw [ends_pure]
              refine ⟨?_, ?_, hlog, reqs', ?_, ?_⟩
              · rw [reached, if_neg hnot, map_cons, hreached]
              · exact forall_mem_cons.mpr ⟨hjudged, hall⟩
              · simpa [waiting] using hfiled
              · exact forall_mem_cons.mpr ⟨by simp, hin⟩
          | timedOut =>
              have hnot : ¬DueAgain s₀ q := fun hagain => by cases hjudged.moved.mpr hagain
              obtain ⟨s₁, hs₁⟩ : ∃ s₁ : EvDNSResolverBase, s₁ = { s with stats :=
                { s.stats with requestTimeout := s.stats.requestTimeout + 1 } } := ⟨_, rfl⟩
              have hfiled₁ : Filed none s₁ reqs (done ++ q :: todo) := by
                rw [hs₁]
                exact h.congr rfl rfl rfl rfl rfl
              have hspared₁ : Spared todo s₀ s₁ := by
                rw [hs₁]
                exact hrest.trans (spared_of_eq rfl rfl rfl)
              have harena : s₁.arena q = s.arena q := by rw [hs₁]
              have hlog₁ : s₁.log = s.log := by rw [hs₁]
              simp only
              rw [ends_bind, ends_set, ends_bind, ← hs₁]
              have hinvoke := (invoke_spares henv hfiled₁ (by simp)).and
                (@invoke_tells env s₁ q .timedOut {})
              apply hinvoke.mono _ fun _ _ hfalse => hfalse.1
              intro _ t ht
              obtain ⟨⟨⟨reqs₂, hfiled₂⟩, hspared₂⟩, hlog₂⟩ := ht
              rw [ends_bind, ends_get, ends_bind, hfiled₂.reply.links.2]
              simp only [release, ends_bind, ends_modify]
              have hreleased := hfiled₂.release hq
              rw [herase] at hreleased
              obtain ⟨u, hu⟩ : ∃ u,
                u = ((t.slotFree (t.arena q).slotId).replyDelete q).clearQuery q := ⟨_, rfl⟩
              have hspared₃ : Spared todo t u := by
                rw [hu]
                apply spared_of_ne htodo
                · rfl
                · rfl
                · intro i hi
                  exact update_of_ne hi _ t.arena
              have hlog₃ : u.log = t.log := by
                rw [hu]
                rfl
              rw [← hu] at hreleased ⊢
              have hspared : Spared todo s₀ u :=
                (hspared₁.trans (hspared₂.subset (subset_append_of_subset_right _
                  (subset_cons_self q todo)))).trans hspared₃
              apply (ih hfuel' hspared hreleased).imp
              intro l v hv
              obtain ⟨hreached, hall, hlog, reqs', hfiled, hin⟩ := hv
              refine ⟨?_, ?_, ?_, reqs', ?_, ?_⟩
              · rw [reached, if_neg hnot, map_cons, hreached]
              · exact forall_mem_cons.mpr ⟨hjudged, hall⟩
              · rw [hlog, hlog₃, hlog₂, hlog₁, harena, told_cons_timedOut, append_assoc]
              · exact hfiled
              · exact forall_mem_cons.mpr ⟨by simp, hin⟩

theorem reached_length_iff (s : EvDNSResolverBase) (replies : List Nat) :
    (reached s replies).length = replies.length ↔ ∀ q ∈ replies.dropLast, ¬DueAgain s q := by
  induction replies with
  | nil => simp [reached]
  | cons q replies ih =>
      cases replies with
      | nil =>
          rw [reached]
          split
          · simp
          · simp [reached]
      | cons q' replies =>
          rw [reached, dropLast_cons_cons, forall_mem_cons, ← ih]
          split
          · rename_i hagain
            simp [hagain]
          · rename_i hnot
            simp [hnot]

theorem reached_eq {s : EvDNSResolverBase} {replies : List Nat}
    (h : ∀ q ∈ replies.dropLast, ¬DueAgain s q) : reached s replies = replies := by
  have hpre (replies : List Nat) : reached s replies <+: replies := by
    induction replies with
    | nil => exact prefix_refl _
    | cons q replies ih =>
        rw [reached]
        split
        · exact ⟨replies, rfl⟩
        · exact cons_prefix_cons.mpr ⟨rfl, ih⟩
  exact (hpre replies).eq_of_length ((reached_length_iff s replies).mpr h)

theorem timerPass_ends (henv : ∀ n, ∀ op ∈ env.callback n, op.Fits)
    (h : Filed none s reqs replies) :
    Ends (timerPass env) s
      (fun l t => l.map Examined.query = reached s replies ∧ (∀ e ∈ l, Judged s e) ∧
        t.log = s.log ++ told l ∧
        ∃ reqs', Filed none t reqs' (waiting l ++ replies.drop l.length) ∧
          ∀ e ∈ l, e.made = .retransmit → e.query ∈ reqs')
      fun _ _ => False := by
  obtain ⟨s₁, hs₁⟩ : ∃ s₁ : EvDNSResolverBase, s₁ = { s with timer := false } := ⟨_, rfl⟩
  have hfiled : Filed none s₁ reqs ([] ++ replies) := by
    rw [hs₁]
    exact h.congr rfl rfl rfl rfl rfl
  have hspared : Spared replies s s₁ := by
    rw [hs₁]
    exact spared_of_eq rfl rfl rfl
  have hlog : s₁.log = s.log := by rw [hs₁]
  have hhead : s₁.replyList.head = replies.head? := hfiled.reply.head
  simp only [timerPass]
  rw [ends_bind, ends_modify, ends_bind, ends_get, ← hs₁, hhead, ends_ite]
  refine ⟨fun _ => ?_, fun hempty => ?_⟩
  · rw [ends_bind]
    apply (timerWalkList_ends henv (Nat.lt_succ_of_le h.length_le.2) hspared hfiled).imp
    intro l t ht
    obtain ⟨hreached, hall, htold, reqs', hlists, hin⟩ := ht
    rw [ends_bind, ends_modify, ends_pure]
    refine ⟨hreached, hall, ?_, reqs', hlists.congr rfl rfl rfl rfl rfl, hin⟩
    rw [← hlog]
    exact htold
  · cases replies with
    | cons q replies => exact absurd rfl hempty
    | nil =>
        rw [ends_pure]
        refine ⟨rfl, ?_, ?_, reqs, hfiled, ?_⟩
        · intro e he
          cases he
        · rw [hlog]
          exact (append_nil _).symm
        · intro e he
          cases he

end Walk

/-- The times of a resolver that retries after a second and gives up after ten. -/
def patient : EvDNSResolverConf := ⟨10000, 1000, 3⟩

def lookups : List (Timeval × Event) :=
  [(⟨1, 0⟩, .user (.lookup [97] true 1 0)), (⟨1, 0⟩, .user (.lookup [98] true 2 0))]

/-- A query waits for its reply and one waits to be written; two seconds later. -/
def oneDue : EvDNSResolverBase :=
  { (runFrom .idle patient lookups).state with curInvokeTv := ⟨3, 0⟩ }

/-- Both queries wait for their replies; two seconds later. -/
def bothDue : EvDNSResolverBase :=
  { (runFrom .idle patient (lookups ++ [(⟨1, 0⟩, .write 8092)])).state with
    curInvokeTv := ⟨3, 0⟩ }

theorem filed_later {evs : List (Timeval × Event)} (now : Timeval)
    (horderly : Runs.Meets (handle .idle) Orderly (.live (.new patient)) evs)
    (hfault : (runFrom .idle patient evs).fault = none) :
    ∃ reqs replies,
      Filed none { (runFrom .idle patient evs).state with curInvokeTv := now } reqs replies := by
  have hidle : ∀ n, ∀ op ∈ Env.idle.callback n, op.Fits := fun _ _ h => by simp [Env.idle] at h
  obtain ⟨reqs, replies, h⟩ := (filed_run .idle hidle patient evs horderly).of_live hfault
  exact ⟨reqs, replies, h.congr rfl rfl rfl rfl rfl⟩

end Dns
