import BrbFramework.Dns.Resolver
import Mathlib.Data.List.Perm.Subperm

/-!
# The books of the resolver

A query in use is linked in one of the two lists, and `waiting_reply` says in
which. `CommEvDNSDataEvent` does not look at it: it takes whatever query the
reply names for one that waits for a reply, and unlinks it from the reply list.
For a query that is back in the request list, or still in it, that breaks both.

`Filed` is what every handler keeps as long as that does not happen.
-/

namespace Dns

open Handler Linked List Function EvDNSResolverBase

/-- What the resolver's lists, flags and slots say of each other. -/
structure Books (s : EvDNSResolverBase) (reqs replies : List Nat) : Prop where
  req : IsList s.nodes s.reqList reqs
  reply : IsList s.nodes s.replyList replies
  linked : ∀ q, (s.arena q).inUse = true → (q ∈ reqs ∧ q ∉ replies) ∨ (q ∉ reqs ∧ q ∈ replies)
  waiting : ∀ q, (s.arena q).inUse = true → ((s.arena q).waitingReply = true ↔ q ∈ replies)
  free : ∀ q, q < maxSeqId → (q ∈ s.slots ↔ (s.arena q).inUse = false)
  once : s.slots.Nodup

/-- The books while a handler holds the query `held`, which is in neither list. -/
structure Filed (held : Option Nat) (s : EvDNSResolverBase) (reqs replies : List Nat) : Prop where
  req : IsList s.nodes s.reqList reqs
  reply : IsList s.nodes s.replyList replies
  apart : ∀ q ∈ reqs, q ∉ replies
  alone : ∀ q, held = some q →
    q ∉ reqs ∧ q ∉ replies ∧ (s.nodes q).prev = none ∧ (s.nodes q).next = none
  inUse : ∀ q, (s.arena q).inUse = true ↔ q ∈ reqs ∨ q ∈ replies ∨ held = some q
  waiting : ∀ q, (s.arena q).waitingReply = true ↔ q ∈ replies
  data : ∀ q, q ∈ reqs ∨ q ∈ replies → (s.nodes q).data = some q
  slotId : ∀ q, (s.arena q).inUse = true → (s.arena q).slotId = q
  free : ∀ q, q ∈ s.slots ↔ q < maxSeqId ∧ (s.arena q).inUse = false
  nodup : s.slots.Nodup
  bound : ∀ q, (s.arena q).inUse = true → q < maxSeqId

theorem Filed.books {s : EvDNSResolverBase} {reqs replies : List Nat}
    (h : Filed none s reqs replies) : Books s reqs replies where
  req := h.req
  reply := h.reply
  linked := fun q hq => by
    rcases (h.inUse q).mp hq with hreq | hreply | hheld
    · exact .inl ⟨hreq, h.apart q hreq⟩
    · exact .inr ⟨fun hreq => h.apart q hreq hreply, hreply⟩
    · cases hheld
  waiting := fun q _ => h.waiting q
  free := fun q hq => (h.free q).trans (and_iff_right hq)
  once := h.nodup

theorem filed_new (conf : EvDNSResolverConf) : Filed none (.new conf) [] [] where
  req := isList_empty _
  reply := isList_empty _
  apart := by simp
  alone := by simp
  inUse := by simp [new]
  waiting := by simp [new]
  data := by simp
  slotId := by simp [new]
  free := by simp [new]
  nodup := nodup_range'
  bound := by simp [new]

section Steps

variable {s t : EvDNSResolverBase} {held : Option Nat} {reqs replies : List Nat} {q : Nat}

theorem Filed.congr (h : Filed held s reqs replies) (harena : t.arena = s.arena)
    (hnodes : t.nodes = s.nodes) (hslots : t.slots = s.slots) (hreq : t.reqList = s.reqList)
    (hreply : t.replyList = s.replyList) : Filed held t reqs replies := by
  cases h
  constructor <;> simp_all

theorem Filed.length_le (h : Filed held s reqs replies) :
    reqs.length ≤ maxSeqId ∧ replies.length ≤ maxSeqId := by
  have hshort (xs : List Nat) (hnodup : xs.Nodup) (hin : ∀ q ∈ xs, (s.arena q).inUse = true) :
      xs.length ≤ maxSeqId := by
    have hsub : xs ⊆ List.range maxSeqId := fun q hq => mem_range.mpr (h.bound q (hin q hq))
    simpa using (subperm_of_subset hnodup hsub).length_le
  exact ⟨hshort reqs h.req.nodup fun q hq => (h.inUse q).mpr (.inl hq),
    hshort replies h.reply.nodup fun q hq => (h.inUse q).mpr (.inr (.inl hq))⟩

theorem Filed.setQuery (h : Filed held s reqs replies) (q : Nat)
    (f : DNSPendingQuery → DNSPendingQuery)
    (hf : ∀ p, (f p).inUse = p.inUse ∧ (f p).waitingReply = p.waitingReply ∧
      (f p).slotId = p.slotId) :
    Filed held (s.setQuery q f) reqs replies := by
  have hsame (i : Nat) : ((s.setQuery q f).arena i).inUse = (s.arena i).inUse ∧
      ((s.setQuery q f).arena i).waitingReply = (s.arena i).waitingReply ∧
      ((s.setQuery q f).arena i).slotId = (s.arena i).slotId := by
    by_cases hi : i = q
    · subst hi
      simpa [EvDNSResolverBase.setQuery] using hf (s.arena i)
    · simp [EvDNSResolverBase.setQuery, update_of_ne hi]
  exact
    { h with
      inUse := fun i => by rw [(hsame i).1]; exact h.inUse i
      waiting := fun i => by rw [(hsame i).2.1]; exact h.waiting i
      slotId := fun i => by rw [(hsame i).1, (hsame i).2.2]; exact h.slotId i
      free := fun i => by rw [(hsame i).1]; exact h.free i
      bound := fun i => by rw [(hsame i).1]; exact h.bound i }

theorem Filed.reqPopHead (h : Filed none s (q :: reqs) replies) :
    (popHead s.reqList s.nodes).1 = some q ∧
      Filed (some q)
        { s with reqList := (popHead s.reqList s.nodes).2.1
                 nodes := (popHead s.reqList s.nodes).2.2 } reqs replies := by
  rw [h.req.popHead]
  obtain ⟨hq, hreqs⟩ := nodup_cons.mp h.req.nodup
  have hqr : q ∉ replies := h.apart q mem_cons_self
  have hframe {i : Nat} (hi : i ∈ replies) :
      (unlink s.reqList s.nodes q).2 i = s.nodes i :=
    h.req.unlink_frame mem_cons_self fun hmem => h.apart i hmem hi
  refine ⟨h.data q (.inl mem_cons_self), ?_⟩
  exact
    { h with
      req := by
        have hreq : IsList s.nodes s.reqList ([] ++ q :: reqs) := h.req
        exact hreq.unlink
      reply := h.reply.frame fun i hi => hframe hi
      apart := fun i hi => h.apart i (mem_cons_of_mem _ hi)
      alone := fun i hi => by
        obtain rfl := Option.some.inj hi
        exact ⟨hq, hqr, unlink_self s.reqList s.nodes q⟩
      inUse := fun i => by
        rw [h.inUse i, mem_cons, Option.some.injEq]
        constructor
        · rintro ((rfl | hi) | hi | hi)
          · exact .inr (.inr rfl)
          · exact .inl hi
          · exact .inr (.inl hi)
          · cases hi
        · rintro (hi | hi | rfl)
          · exact .inl (.inr hi)
          · exact .inr (.inl hi)
          · exact .inl (.inl rfl)
      data := fun i hi => by
        simp only [unlink_data]
        exact h.data i (hi.imp_left (mem_cons_of_mem _)) }

theorem Filed.reqPut {l : DList} {nodes : Heap} {reqs' : List Nat}
    (h : Filed (some q) s reqs replies) (hl : IsList nodes l reqs')
    (hmem : ∀ i, i ∈ reqs' ↔ i = q ∨ i ∈ reqs)
    (hframe : ∀ i, i ∉ q :: reqs → nodes i = s.nodes i)
    (hdata : ∀ i, (nodes i).data = if i = q then some q else (s.nodes i).data) :
    Filed none { s with reqList := l, nodes := nodes } reqs' replies := by
  obtain ⟨hqreq, hqreply, -, -⟩ := h.alone q rfl
  exact
    { h with
      req := hl
      reply := h.reply.frame fun i hi => hframe i fun hmem => by
        rcases mem_cons.mp hmem with rfl | hreq
        · exact hqreply hi
        · exact h.apart i hreq hi
      apart := fun i hi => by
        rcases (hmem i).mp hi with rfl | hreq
        · exact hqreply
        · exact h.apart i hreq
      alone := fun i hi => by cases hi
      inUse := fun i => by
        rw [h.inUse i, hmem i, Option.some.injEq, eq_comm (a := q)]
        constructor
        · rintro (hi | hi | hi)
          · exact .inl (.inr hi)
          · exact .inr (.inl hi)
          · exact .inl (.inl hi)
        · rintro ((hi | hi) | hi | hi)
          · exact .inr (.inr hi)
          · exact .inl hi
          · exact .inr (.inl hi)
          · cases hi
      data := fun i hi => by
        rw [hdata i]
        by_cases hiq : i = q
        · rw [if_pos hiq, hiq]
        · rw [if_neg hiq]
          exact h.data i (hi.imp_left fun hreq => ((hmem i).mp hreq).resolve_left hiq) }

theorem Filed.reqAdd (h : Filed (some q) s reqs replies) :
    Filed none (s.reqAdd q) (q :: reqs) replies :=
  h.reqPut (h.req.add (h.alone q rfl).1 _) (fun _ => mem_cons)
    (fun _ hi => h.req.add_frame hi) fun _ => add_data

theorem Filed.reqAddTail (h : Filed (some q) s reqs replies) :
    Filed none (s.reqAddTail q) (reqs ++ [q]) replies :=
  h.reqPut (h.req.addTail (h.alone q rfl).1 _)
    (fun _ => by rw [mem_append, mem_singleton, or_comm])
    (fun _ hi => h.req.addTail_frame hi) fun _ => addTail_data

theorem Filed.sent (h : Filed (some q) s reqs replies) (f : DNSPendingQuery → DNSPendingQuery)
    (hf : ∀ p, (f p).inUse = p.inUse ∧ (f p).waitingReply = true ∧ (f p).slotId = p.slotId) :
    Filed none (((s.reqDelete q).replyAddTail q).setQuery q f) reqs (replies ++ [q]) := by
  obtain ⟨hqreq, hqreply, hprev, hnext⟩ := h.alone q rfl
  have horphan : s.reqDelete q = s := by
    have hhead : s.reqList.head ≠ some q := fun heq =>
      hqreq (mem_of_mem_head? (h.req.head ▸ heq))
    simp only [reqDelete, delete_orphan hhead hnext hprev]
  rw [horphan]
  have harena (i : Nat) : (((s.replyAddTail q).setQuery q f).arena i).inUse = (s.arena i).inUse ∧
      (((s.replyAddTail q).setQuery q f).arena i).waitingReply =
        (decide (i = q) || (s.arena i).waitingReply) ∧
      (((s.replyAddTail q).setQuery q f).arena i).slotId = (s.arena i).slotId := by
    by_cases hi : i = q
    · subst hi
      simpa [EvDNSResolverBase.setQuery, EvDNSResolverBase.replyAddTail] using hf (s.arena i)
    · simp [EvDNSResolverBase.setQuery, EvDNSResolverBase.replyAddTail, hi]
  exact
    { req := h.req.frame fun i hi => h.reply.addTail_frame fun hmem => by
        rcases mem_cons.mp hmem with rfl | hreply
        · exact hqreq hi
        · exact h.apart i hi hreply
      reply := h.reply.addTail hqreply _
      apart := fun i hi hmem => by
        rcases mem_append.mp hmem with hreply | hq
        · exact h.apart i hi hreply
        · exact hqreq (mem_singleton.mp hq ▸ hi)
      alone := fun i hi => by cases hi
      inUse := fun i => by
        rw [(harena i).1, h.inUse i, mem_append, mem_singleton, Option.some.injEq]
        simp [eq_comm (a := q)]
      waiting := fun i => by
        rw [(harena i).2.1, Bool.or_eq_true, decide_eq_true_eq, h.waiting i, mem_append,
          mem_singleton, or_comm]
      data := fun i hi => by
        simp only [EvDNSResolverBase.setQuery, EvDNSResolverBase.replyAddTail, addTail_data]
        split
        · rename_i heq
          rw [heq]
        · rename_i hne
          refine h.data i (hi.imp_right fun hmem => ?_)
          exact (mem_append.mp hmem).resolve_right fun hq => hne (mem_singleton.mp hq)
      slotId := fun i => by
        rw [(harena i).1, (harena i).2.2]
        exact h.slotId i
      free := fun i => by
        rw [(harena i).1]
        exact h.free i
      nodup := h.nodup
      bound := fun i => by
        rw [(harena i).1]
        exact h.bound i }

theorem reqAddTail_setQuery (q i : Nat) (f : DNSPendingQuery → DNSPendingQuery) :
    (s.reqAddTail q).setQuery i f = (s.setQuery i f).reqAddTail q := rfl

theorem Filed.grab {rest : List Nat} (h : Filed none s reqs replies) (hslots : s.slots = q :: rest)
    (f : DNSPendingQuery → DNSPendingQuery)
    (hf : (f {}).inUse = true ∧ (f {}).waitingReply = false ∧ (f {}).slotId = q) :
    Filed (some q) (({ s with slots := rest }.clearQuery q).setQuery q f) reqs replies := by
  obtain ⟨hqrest, hrest⟩ := nodup_cons.mp (hslots ▸ h.nodup)
  obtain ⟨hbound, hunused⟩ := (h.free q).mp (hslots ▸ mem_cons_self)
  have hnot : ¬(q ∈ reqs ∨ q ∈ replies ∨ none = some q) := fun hin => by
    rw [(h.inUse q).mpr hin] at hunused
    cases hunused
  have hqreq : q ∉ reqs := fun hin => hnot (.inl hin)
  have hqreply : q ∉ replies := fun hin => hnot (.inr (.inl hin))
  have hself : (({ s with slots := rest }.clearQuery q).setQuery q f).arena q = f {} := by
    simp [EvDNSResolverBase.setQuery, EvDNSResolverBase.clearQuery]
  have hother {i : Nat} (hi : i ≠ q) :
      (({ s with slots := rest }.clearQuery q).setQuery q f).arena i = s.arena i := by
    simp [EvDNSResolverBase.setQuery, EvDNSResolverBase.clearQuery, hi]
  have hnode {i : Nat} (hi : i ≠ q) :
      (({ s with slots := rest }.clearQuery q).setQuery q f).nodes i = s.nodes i := by
    simp [EvDNSResolverBase.setQuery, EvDNSResolverBase.clearQuery, hi]
  exact
    { req := h.req.frame fun i hi => hnode (ne_of_mem_of_not_mem hi hqreq)
      reply := h.reply.frame fun i hi => hnode (ne_of_mem_of_not_mem hi hqreply)
      apart := h.apart
      alone := fun i hi => by
        cases hi
        simp [EvDNSResolverBase.setQuery, EvDNSResolverBase.clearQuery, Node.null, hqreq, hqreply]
      inUse := fun i => by
        by_cases hi : i = q
        · subst hi
          rw [hself, hf.1]
          simp
        · rw [hother hi, h.inUse i]
          simp [eq_comm (a := q), hi]
      waiting := fun i => by
        by_cases hi : i = q
        · subst hi
          rw [hself, hf.2.1]
          simp [hqreply]
        · rw [hother hi, h.waiting i]
      data := fun i hi => by
        have hne : i ≠ q := by
          rintro rfl
          exact hi.elim hqreq hqreply
        rw [hnode hne]
        exact h.data i hi
      slotId := fun i hin => by
        by_cases hi : i = q
        · subst hi
          rw [hself, hf.2.2]
        · rw [hother hi] at hin ⊢
          exact h.slotId i hin
      free := fun i => by
        change i ∈ rest ↔ _
        by_cases hi : i = q
        · subst hi
          rw [hself, hf.1]
          simp [hqrest]
        · rw [hother hi, ← h.free i, hslots]
          simp [hi]
      nodup := hrest
      bound := fun i hin => by
        by_cases hi : i = q
        · exact hi ▸ hbound
        · rw [hother hi] at hin
          exact h.bound i hin }

theorem Filed.drop {l l' : DList} {nodes : Heap} {reqs' replies' : List Nat}
    (h : Filed none s reqs replies) (hin : q ∈ reqs ∨ q ∈ replies)
    (hl : IsList nodes l reqs') (hl' : IsList nodes l' replies')
    (hreq : ∀ i, i ∈ reqs' ↔ i ∈ reqs ∧ i ≠ q) (hreply : ∀ i, i ∈ replies' ↔ i ∈ replies ∧ i ≠ q)
    (hdata : ∀ i, (nodes i).data = (s.nodes i).data) :
    Filed none
      ({ s.slotFree (s.arena q).slotId with
          reqList := l, replyList := l', nodes := nodes }.clearQuery q) reqs' replies' := by
  have hused : (s.arena q).inUse = true := (h.inUse q).mpr (hin.imp_right .inl)
  have hqreq : q ∉ reqs' := fun hmem => ((hreq q).mp hmem).2 rfl
  have hqreply : q ∉ replies' := fun hmem => ((hreply q).mp hmem).2 rfl
  rw [h.slotId q hused]
  have hnode {i : Nat} (hi : i ≠ q) : update nodes q .null i = nodes i :=
    update_of_ne hi _ _
  have harena {i : Nat} (hi : i ≠ q) : update s.arena q {} i = s.arena i :=
    update_of_ne hi _ _
  have hself : update s.arena q {} q = {} := update_self _ _ _
  exact
    { req := hl.frame fun i hi => hnode (ne_of_mem_of_not_mem hi hqreq)
      reply := hl'.frame fun i hi => hnode (ne_of_mem_of_not_mem hi hqreply)
      apart := fun i hi hmem => h.apart i ((hreq i).mp hi).1 ((hreply i).mp hmem).1
      alone := fun i hi => by cases hi
      inUse := fun i => by
        change (update s.arena q {} i).inUse = true ↔ _
        by_cases hi : i = q
        · subst hi
          rw [hself]
          simp [hqreq, hqreply]
        · rw [harena hi, h.inUse i, hreq i, hreply i]
          simp [hi]
      waiting := fun i => by
        change (update s.arena q {} i).waitingReply = true ↔ _
        by_cases hi : i = q
        · subst hi
          rw [hself]
          simp [hqreply]
        · rw [harena hi, h.waiting i, hreply i]
          simp [hi]
      data := fun i hi => by
        have hne : i ≠ q := by
          rintro rfl
          exact hi.elim hqreq hqreply
        change (update nodes q .null i).data = some i
        rw [hnode hne, hdata i]
        exact h.data i (hi.imp (fun hmem => ((hreq i).mp hmem).1)
          fun hmem => ((hreply i).mp hmem).1)
      slotId := fun i hi => by
        change (update s.arena q {} i).inUse = true at hi
        change (update s.arena q {} i).slotId = i
        by_cases hiq : i = q
        · subst hiq
          rw [hself] at hi
          cases hi
        · rw [harena hiq] at hi ⊢
          exact h.slotId i hi
      free := fun i => by
        change i ∈ q :: s.slots ↔ i < maxSeqId ∧ (update s.arena q {} i).inUse = false
        by_cases hi : i = q
        · subst hi
          rw [hself]
          simp [h.bound i hused]
        · rw [harena hi, mem_cons, ← h.free i]
          simp [hi]
      nodup := by
        refine nodup_cons.mpr ⟨fun hmem => ?_, h.nodup⟩
        have hunused := ((h.free q).mp hmem).2
        rw [hused] at hunused
        cases hunused
      bound := fun i hi => by
        change (update s.arena q {} i).inUse = true at hi
        by_cases hiq : i = q
        · subst hiq
          rw [hself] at hi
          cases hi
        · rw [harena hiq] at hi
          exact h.bound i hi }

theorem Filed.release (h : Filed none s reqs replies) (hq : q ∈ replies) :
    Filed none (((s.slotFree (s.arena q).slotId).replyDelete q).clearQuery q) reqs
      (replies.erase q) := by
  have hqreq : q ∉ reqs := fun hreq => h.apart q hreq hq
  have hframe (i : Nat) (hi : i ∈ reqs) :
      (Linked.delete s.replyList s.nodes q).2 i = s.nodes i := by
    rw [h.reply.delete_eq hq]
    exact h.reply.unlink_frame hq (h.apart i hi)
  refine h.drop (.inr hq) (h.req.frame hframe) (h.reply.delete hq) (fun i => ?_) (fun i => ?_)
    fun i => ?_
  · exact ⟨fun hi => ⟨hi, ne_of_mem_of_not_mem hi hqreq⟩, And.left⟩
  · rw [h.reply.nodup.mem_erase_iff, and_comm]
  · change ((Linked.delete s.replyList s.nodes q).2 i).data = _
    rw [h.reply.delete_eq hq, unlink_data]

theorem Filed.withdraw (h : Filed none s reqs replies) (hq : q ∈ reqs) :
    Filed none (((s.slotFree (s.arena q).slotId).reqDelete q).clearQuery q) (reqs.erase q)
      replies := by
  have hframe (i : Nat) (hi : i ∈ replies) :
      (Linked.delete s.reqList s.nodes q).2 i = s.nodes i := by
    rw [h.req.delete_eq hq]
    exact h.req.unlink_frame hq fun hreq => h.apart i hreq hi
  refine h.drop (.inl hq) (h.req.delete hq) (h.reply.frame hframe) (fun i => ?_) (fun i => ?_)
    fun i => ?_
  · rw [h.req.nodup.mem_erase_iff, and_comm]
  · exact ⟨fun hi => ⟨hi, ne_of_mem_of_not_mem hi (h.apart q hq)⟩, And.left⟩
  · change ((Linked.delete s.reqList s.nodes q).2 i).data = _
    rw [h.req.delete_eq hq, unlink_data]

theorem Filed.recall (h : Filed none s reqs replies) (hq : q ∈ replies)
    (f : DNSPendingQuery → DNSPendingQuery)
    (hf : ∀ p, (f p).inUse = p.inUse ∧ (f p).waitingReply = false ∧ (f p).slotId = p.slotId) :
    Filed (some q) ((s.replyDelete q).setQuery q f) reqs (replies.erase q) := by
  have hqreq : q ∉ reqs := fun hreq => h.apart q hreq hq
  have hdelete := h.reply.delete_eq hq
  have hmem (i : Nat) : i ∈ replies.erase q ↔ i ≠ q ∧ i ∈ replies := h.reply.nodup.mem_erase_iff
  have harena (i : Nat) : (((s.replyDelete q).setQuery q f).arena i).inUse = (s.arena i).inUse ∧
      (((s.replyDelete q).setQuery q f).arena i).waitingReply =
        (decide (i ≠ q) && (s.arena i).waitingReply) ∧
      (((s.replyDelete q).setQuery q f).arena i).slotId = (s.arena i).slotId := by
    by_cases hi : i = q
    · subst hi
      simpa [EvDNSResolverBase.setQuery, EvDNSResolverBase.replyDelete] using hf (s.arena i)
    · simp [EvDNSResolverBase.setQuery, EvDNSResolverBase.replyDelete, hi]
  exact
    { req := h.req.frame fun i hi => by
        change (Linked.delete s.replyList s.nodes q).2 i = s.nodes i
        rw [hdelete]
        exact h.reply.unlink_frame hq (h.apart i hi)
      reply := h.reply.delete hq
      apart := fun i hi hmem' => h.apart i hi ((hmem i).mp hmem').2
      alone := fun i hi => by
        obtain rfl := Option.some.inj hi
        refine ⟨hqreq, fun hin => ((hmem q).mp hin).1 rfl, ?_⟩
        change ((Linked.delete s.replyList s.nodes q).2 q).prev = none ∧
          ((Linked.delete s.replyList s.nodes q).2 q).next = none
        rw [hdelete]
        exact unlink_self _ _ q
      inUse := fun i => by
        rw [(harena i).1, h.inUse i, hmem i, Option.some.injEq]
        by_cases hi : i = q
        · subst hi
          simp [hq]
        · simp [hi, eq_comm (a := q)]
      waiting := fun i => by
        rw [(harena i).2.1, Bool.and_eq_true, decide_eq_true_eq, h.waiting i, hmem i]
      data := fun i hi => by
        change ((Linked.delete s.replyList s.nodes q).2 i).data = some i
        rw [hdelete, unlink_data]
        exact h.data i (hi.imp_right fun hin => ((hmem i).mp hin).2)
      slotId := fun i => by
        rw [(harena i).1, (harena i).2.2]
        exact h.slotId i
      free := fun i => by
        rw [(harena i).1]
        exact h.free i
      nodup := h.nodup
      bound := fun i => by
        rw [(harena i).1]
        exact h.bound i }

end Steps

/-! ## The handlers -/

/-- A name that fits, with its header and question, into the buffer of a query. -/
def NameFits (host : List UInt8) : Prop := 16 + (Rfc1035.namePack host).length ≤ querySz

def UserOp.Fits : UserOp → Prop
  | .lookup host .. => NameFits host
  | .cancel _ => True

def Crashed (f : Fault) (_ : EvDNSResolverBase) : Prop := f = .overrun

section Handlers

variable {env : Env} {s : EvDNSResolverBase} {reqs replies : List Nat} {q : Nat}

theorem writeLoop_ends (canWriteSz : Int) {fuel : Nat} (hfuel : reqs.length < fuel)
    (wrote total : Int) (h : Filed none s reqs replies) :
    Ends (writeLoop env canWriteSz fuel wrote total) s
      (fun _ t => ∃ reqs' replies', Filed none t reqs' replies') fun _ _ => False := by
  induction fuel generalizing s reqs replies wrote total with
  | zero => omega
  | succ fuel ih =>
      simp only [writeLoop]
      rw [ends_bind]
      simp only [reqPopHead, ends_modifyGet]
      cases reqs with
      | nil =>
          have hnone : popHead s.reqList s.nodes = (none, s.reqList, s.nodes) := by
            simp [popHead, h.req.head_none.mpr rfl]
          simp only [hnone, ends_bind, ends_modify, ends_pure]
          exact ⟨[], replies, h.congr rfl rfl rfl rfl rfl⟩
      | cons q reqs =>
          obtain ⟨hsome, hheld⟩ := h.reqPopHead
          have hidle : (s.arena q).waitingReply = false := by
            rw [← Bool.not_eq_true, h.waiting q]
            exact h.apart q mem_cons_self
          simp only [hsome]
          rw [ends_bind, ends_get, ends_bind, ends_assertThat]
          refine ⟨fun _ => ?_, fun hbad => by simp [hidle] at hbad⟩
          rw [ends_ite]
          refine ⟨fun _ => ?_, fun _ => ?_⟩
          · -- the query does not fit what may be written
            simp only [ends_bind, ends_modify, ends_pure]
            exact ⟨q :: reqs, replies, hheld.reqAdd.congr rfl rfl rfl rfl rfl⟩
          rw [ends_bind]
          simp only [sendto, ends_modifyGet]
          have hheld := hheld.congr (t := { s with
            reqList := (popHead s.reqList s.nodes).2.1
            nodes := (popHead s.reqList s.nodes).2.2
            sends := s.sends + 1 }) rfl rfl rfl rfl rfl
          rw [ends_ite]
          refine ⟨fun _ => ?_, fun _ => ?_⟩
          · simp only [ends_bind, ends_modify, ends_pure]
            exact ⟨q :: reqs, replies,
              (hheld.reqAdd.setQuery q (fun p => { p with failCount := p.failCount + 1 })
                fun _ => ⟨rfl, rfl, rfl⟩).congr rfl rfl rfl rfl rfl⟩
          · rw [ends_bind]
            simp only [sent, ends_modify]
            refine ih (by simpa using hfuel) _ _ (?_ : Filed none _ reqs (replies ++ [q]))
            refine Filed.sent ?_ _ ?_
            · exact hheld.congr rfl rfl rfl rfl rfl
            · exact fun _ => ⟨rfl, rfl, rfl⟩

theorem writeEvent_ends (canWriteSz : Int) (h : Filed none s reqs replies) :
    Ends (writeEvent env canWriteSz) s
      (fun _ t => ∃ reqs' replies', Filed none t reqs' replies') fun _ _ => False :=
  writeLoop_ends canWriteSz (Nat.lt_succ_of_le h.length_le.1) 0 0 h

theorem getHostByNameX_ends {host : List UInt8} (hfits : NameFits host) (hasHandler : Bool)
    (cbData : Nat) (queryX : Int) (h : Filed none s reqs replies) :
    Ends (getHostByNameX env host hasHandler cbData queryX) s
      (fun _ t => ∃ reqs' replies', Filed none t reqs' replies' ∧
        (replies ≠ [] → replies' = replies)) fun _ _ => False := by
  simp only [getHostByNameX]
  rw [ends_ite]
  refine ⟨fun _ => ?_, fun hhandler => ?_⟩
  · simp only [ends_bind, ends_modify, ends_pure]
    exact ⟨reqs, replies, h.congr rfl rfl rfl rfl rfl, fun _ => rfl⟩
  rw [ends_bind, ends_get]
  cases hslots : s.slots with
  | nil =>
      simp only [ends_bind, ends_modify, ends_pure]
      exact ⟨reqs, replies, h.congr rfl rfl rfl rfl rfl, fun _ => rfl⟩
  | cons slot rest =>
      have hfree := ((h.free slot).mp (hslots ▸ mem_cons_self)).2
      simp only
      rw [ends_bind, ends_modify, ends_bind, ends_get, ends_bind, ends_assertThat]
      refine ⟨fun _ => ?_, fun hbad => by simp [hfree] at hbad⟩
      rw [ends_bind, ends_assertThat]
      refine ⟨fun _ => ?_, fun hbad => ?_⟩
      · rw [ends_bind, ends_modify, ends_bind, ends_get]
        have hqueued := (h.grab hslots (fun p =>
          { p with inUse := true, hasHandler := hasHandler, cbData := cbData, slotId := slot
                   transmitTv := s.curInvokeTv, retransmitTv := s.curInvokeTv
                   request := if queryX > 0 then Rfc1035.buildAAAAQuery host slot
                     else Rfc1035.buildAQuery host slot }) ⟨rfl, rfl, rfl⟩).reqAddTail
        rw [ends_ite]
        refine ⟨fun _ => ?_, fun hempty => ?_⟩
        · simp only [ends_bind, ends_modify, ends_pure]
          exact ⟨reqs ++ [slot], replies, hqueued.congr rfl rfl rfl rfl rfl, fun _ => rfl⟩
        · rw [ends_bind]
          refine Ends.imp (writeEvent_ends 8092 (?_ : Filed none _ (reqs ++ [slot]) replies))
            (fun _ t ht => ?_)
          · exact hqueued.congr rfl rfl rfl rfl rfl
          obtain ⟨reqs', replies', ht⟩ := ht
          simp only [ends_bind, ends_modify, ends_pure]
          refine ⟨reqs', replies', ht.congr rfl rfl rfl rfl rfl, fun hne => ?_⟩
          have hhead : s.replyList.head = none := Option.not_isSome_iff_eq_none.mp hempty
          exact absurd (h.reply.head_none.mp hhead) hne
      · -- both kinds of query have the length of the name and sixteen octets more
        have hlen : (if queryX > 0 then Rfc1035.buildAAAAQuery host slot
            else Rfc1035.buildAQuery host slot).length ≤ querySz := by
          split
          · exact le_of_eq_of_le (Rfc1035.length_buildQuery ..) hfits
          · exact le_of_eq_of_le (Rfc1035.length_buildQuery ..) hfits
        simp [hlen] at hbad

theorem cancelPendingRequest_ends (reqId : Nat) (h : Filed none s reqs replies) :
    Ends (cancelPendingRequest reqId) s
      (fun _ t => ∃ reqs', Filed none t reqs' replies) fun _ _ => False := by
  simp only [cancelPendingRequest]
  rw [ends_bind, ends_get, ends_ite]
  refine ⟨fun _ => ⟨reqs, h⟩, fun hused => ?_⟩
  rw [ends_ite]
  refine ⟨fun _ => ?_, fun hidle => ?_⟩
  · simp only [ends_bind, ends_modify, ends_pure]
    exact ⟨reqs, h.setQuery reqId _ fun _ => ⟨rfl, rfl, rfl⟩⟩
  · have hreq : reqId ∈ reqs := by
      rcases (h.inUse reqId).mp (by simpa using hused) with hreq | hreply | hheld
      · exact hreq
      · exact absurd ((h.waiting reqId).mpr hreply) hidle
      · cases hheld
    simp only [ends_bind, ends_modify, ends_pure]
    exact ⟨reqs.erase reqId, h.withdraw hreq⟩

theorem userOp_ends {op : UserOp} (hfits : op.Fits) (h : Filed none s reqs replies) :
    Ends (userOp env op) s
      (fun _ t => ∃ reqs' replies', Filed none t reqs' replies' ∧
        (replies ≠ [] → replies' = replies)) fun _ _ => False := by
  cases op with
  | lookup host hasHandler cbData queryX =>
      simp only [userOp]
      rw [ends_bind]
      exact (getHostByNameX_ends hfits hasHandler cbData queryX h).imp fun _ _ ht => ht
  | cancel reqId =>
      simp only [userOp]
      rw [ends_bind]
      exact (cancelPendingRequest_ends reqId h).imp
        (fun _ _ ⟨reqs', ht⟩ => ⟨reqs', replies, ht, fun _ => rfl⟩)

theorem userOps_ends {ops : List UserOp} (hfits : ∀ op ∈ ops, op.Fits)
    (h : Filed none s reqs replies) (hne : replies ≠ []) :
    Ends (userOps env ops) s (fun _ t => ∃ reqs', Filed none t reqs' replies) fun _ _ => False := by
  induction ops generalizing s reqs with
  | nil => exact ⟨reqs, h⟩
  | cons op ops ih =>
      obtain ⟨hop, hops⟩ := forall_mem_cons.mp hfits
      simp only [userOps]
      rw [ends_bind]
      refine (userOp_ends hop h).imp fun _ t ht => ?_
      obtain ⟨reqs', replies', ht, hsame⟩ := ht
      exact ih hops (hsame hne ▸ ht)

theorem invoke_ends (henv : ∀ n, ∀ op ∈ env.callback n, op.Fits) (q : Nat) (reply : DNSAReply)
    (code : DNSReplyCodes) (h : Filed none s reqs replies) (hne : replies ≠ []) :
    Ends (invoke env q reply code) s (fun _ t => ∃ reqs', Filed none t reqs' replies)
      fun _ _ => False := by
  simp only [invoke]
  rw [ends_bind, ends_get, ends_ite]
  refine ⟨fun _ => ?_, fun _ => ⟨reqs, h⟩⟩
  rw [ends_bind, ends_set]
  exact userOps_ends (henv _) (h.congr rfl rfl rfl rfl rfl) hne

theorem timerWalk_ends (henv : ∀ n, ∀ op ∈ env.callback n, op.Fits) {done todo : List Nat}
    {fuel : Nat} (hfuel : todo.length < fuel) (rxmit : Nat)
    (h : Filed none s reqs (done ++ todo)) :
    Ends (timerWalk env fuel todo.head? rxmit) s
      (fun _ t => ∃ reqs' replies', Filed none t reqs' replies') fun _ _ => False := by
  induction fuel generalizing s reqs done todo rxmit with
  | zero => omega
  | succ fuel ih =>
      cases todo with
      | nil => exact ⟨reqs, _, h⟩
      | cons q todo =>
          have hq : q ∈ done ++ q :: todo := by simp
          have hfuel' : todo.length < fuel := by simpa using hfuel
          have herase : (done ++ q :: todo).erase q = done ++ todo := by
            have hdone : q ∉ done := fun hmem =>
              (nodup_append.mp h.reply.nodup).2.2 q hmem q mem_cons_self rfl
            rw [erase_append_right _ hdone, erase_cons_head]
          simp only [head?_cons, timerWalk]
          rw [ends_bind, ends_get, h.data q (.inr hq)]
          simp only
          rw [ends_bind, ends_assertThat]
          refine ⟨fun _ => ?_, fun hbad => ?_⟩
          swap
          · rw [(h.waiting q).mpr hq] at hbad
            cases hbad
          cases due s (s.arena q) with
          | retransmit =>
              simp only
              rw [ends_bind, ends_set, ends_bind, ends_get]
              have hrecalled := ((h.setQuery q (fun p => { p with retransmitTv := s.curInvokeTv })
                fun _ => ⟨rfl, rfl, rfl⟩).recall hq
                  (fun p => { p with waitingReply := false, reXmit := true })
                  fun _ => ⟨rfl, rfl, rfl⟩).reqAddTail
              -- the walk goes on behind the tail of the request list, so it ends
              have hnext := hrecalled.req.links.2
              rw [reqAddTail_setQuery, hnext]
              refine @ih _ (reqs ++ [q]) ((done ++ q :: todo).erase q) []
                (Nat.zero_lt_of_lt hfuel') (rxmit + 1) ?_
              rw [append_nil]
              exact hrecalled
          | wait =>
              simp only
              rw [h.reply.links.2]
              have hpassed : Filed none s reqs ((done ++ [q]) ++ todo) := by simpa using h
              exact ih hfuel' rxmit hpassed
          | timedOut =>
              simp only
              rw [ends_bind, ends_set, ends_bind]
              refine Ends.imp (invoke_ends henv q {} .timedOut
                (?_ : Filed none _ reqs (done ++ q :: todo)) (by simp)) (fun _ t ht => ?_)
              · exact h.congr rfl rfl rfl rfl rfl
              obtain ⟨reqs', ht⟩ := ht
              rw [ends_bind, ends_get, ends_bind]
              simp only [release, ends_modify]
              rw [ht.reply.links.2]
              exact ih hfuel' rxmit (herase ▸ ht.release hq)

theorem periodicTimerEvent_ends (henv : ∀ n, ∀ op ∈ env.callback n, op.Fits)
    (h : Filed none s reqs replies) :
    Ends (periodicTimerEvent env) s
      (fun _ t => ∃ reqs' replies', Filed none t reqs' replies') fun _ _ => False := by
  simp only [periodicTimerEvent]
  rw [ends_bind, ends_modify, ends_bind, ends_get, ends_ite]
  refine ⟨fun _ => ?_, fun _ => ⟨reqs, replies, h.congr rfl rfl rfl rfl rfl⟩⟩
  rw [ends_bind, h.reply.head]
  refine Ends.imp (timerWalk_ends henv (Nat.lt_succ_of_le h.length_le.2) 0
    (?_ : Filed none _ reqs ([] ++ replies))) (fun _ t ht => ?_)
  · exact h.congr rfl rfl rfl rfl rfl
  obtain ⟨reqs', replies', ht⟩ := ht
  exact ⟨reqs', replies', ht.congr rfl rfl rfl rfl rfl⟩

/-- The query a datagram names is not in the request list. -/
def Expected (s : EvDNSResolverBase) (buf : Nat → UInt8) (sz : Nat) : Prop :=
  let q := if sz < 12 then 0 else Rfc1035.short buf 0
  (s.arena q).inUse = true → (s.arena q).waitingReply = true

theorem dispatch_ends (henv : ∀ n, ∀ op ∈ env.callback n, op.Fits) (u : Rfc1035.Unpacked)
    (h : Filed none s reqs replies)
    (hexpected : (s.arena (replySeqId u)).inUse = true →
      (s.arena (replySeqId u)).waitingReply = true) :
    Ends (dispatch env u) s
      (fun _ t => ∃ reqs' replies', Filed none t reqs' replies') fun _ _ => False := by
  simp only [dispatch]
  rw [ends_bind, ends_get, ends_ite]
  refine ⟨fun hused => ?_, fun _ => ⟨reqs, replies, h⟩⟩
  have hq : replySeqId u ∈ replies := (h.waiting _).mp (hexpected hused)
  have hrelease (reqs' : List Nat) (t : EvDNSResolverBase) (ht : Filed none t reqs' replies) :
      Ends (release (replySeqId u)) t
        (fun _ t => ∃ reqs' replies', Filed none t reqs' replies') fun _ _ => False := by
    simp only [release, ends_modify]
    exact ⟨_, _, ht.release hq⟩
  rw [ends_ite]
  refine ⟨fun _ => ?_, fun _ => ?_⟩
  · rw [ends_bind]
    exact (invoke_ends henv _ _ _ h (ne_nil_of_mem hq)).imp
      (fun _ t ht => ht.elim fun reqs' ht => hrelease reqs' t ht)
  · rw [ends_bind, ends_set, ends_bind]
    refine Ends.imp (invoke_ends henv _ _ _ (?_ : Filed none _ reqs replies)
      (ne_nil_of_mem hq))
      (fun _ t ht => ht.elim fun reqs' ht => hrelease reqs' t ht)
    exact h.congr rfl rfl rfl rfl rfl

theorem dataEvent_ends (henv : ∀ n, ∀ op ∈ env.callback n, op.Fits) (toReadSz : Nat)
    (received : Option (List UInt8)) (stack : Nat → UInt8) (h : Filed none s reqs replies)
    (hexpected : ∀ data, received = some data →
      Expected s (replyBuffer toReadSz data stack) data.length) :
    Ends (dataEvent env toReadSz received stack) s
      (fun _ t => ∃ reqs' replies', Filed none t reqs' replies') Crashed := by
  cases received with
  | none => exact ⟨reqs, replies, h.congr rfl rfl rfl rfl rfl⟩
  | some data =>
      simp only [dataEvent]
      rw [ends_bind, ends_modify]
      cases hu : Rfc1035.answersUnpack (replyBuffer toReadSz data stack) data.length with
      | none => exact rfl
      | some u =>
          have hid : replySeqId u = if data.length < 12 then 0
              else Rfc1035.short (replyBuffer toReadSz data stack) 0 := by
            rw [replySeqId, Rfc1035.answersUnpack_id hu]
            split <;> rfl
          simp only
          rw [ends_bind]
          refine Ends.total (dispatch_ends henv u (?_ : Filed none _ reqs replies) ?_)
            (fun _ t ht => ?_)
          · exact h.congr rfl rfl rfl rfl rfl
          · rw [hid]
            exact hexpected data rfl
          · obtain ⟨reqs', replies', ht⟩ := ht
            exact ⟨reqs', replies', ht.congr rfl rfl rfl rfl rfl⟩

theorem event_ends (henv : ∀ n, ∀ op ∈ env.callback n, op.Fits) (h : Filed none s reqs replies)
    (e : Event)
    (horderly : match e with
      | .user op => op.Fits
      | .data toReadSz (some data) stack =>
          Expected s (replyBuffer toReadSz data stack) data.length
      | _ => True) :
    Ends (event env e) s (fun _ t => ∃ reqs' replies', Filed none t reqs' replies') Crashed := by
  cases e with
  | user op =>
      exact (userOp_ends horderly h).total
        (fun _ _ ⟨reqs', replies', ht, _⟩ => ⟨reqs', replies', ht⟩)
  | write canWriteSz =>
      simp only [event]
      rw [ends_bind, ends_modify, ends_bind]
      refine Ends.total (writeEvent_ends canWriteSz (?_ : Filed none _ reqs replies))
        (fun _ _ ht => ht)
      exact h.congr rfl rfl rfl rfl rfl
  | data toReadSz received stack =>
      simp only [event]
      rw [ends_bind, ends_modify]
      refine dataEvent_ends henv toReadSz received stack (?_ : Filed none _ reqs replies)
        fun data hdata => ?_
      · exact h.congr rfl rfl rfl rfl rfl
      · subst hdata
        exact horderly
  | tick => exact (periodicTimerEvent_ends henv h).total fun _ _ ht => ht

end Handlers

/-- An event that the books survive: a name that is looked up fits its buffer,
and a datagram does not name a query of the request list. -/
def Orderly (s : EvDNSResolverBase) (e : Timeval × Event) : Prop :=
  match e.2 with
  | .user op => op.Fits
  | .data toReadSz (some data) stack =>
      Expected s (replyBuffer toReadSz data stack) data.length
  | _ => True

instance (op : UserOp) : Decidable op.Fits :=
  match op with
  | .lookup .. => inferInstanceAs (Decidable (_ ≤ _))
  | .cancel _ => isTrue trivial

instance (s : EvDNSResolverBase) (e : Timeval × Event) : Decidable (Orderly s e) :=
  match e with
  | ⟨_, .user op⟩ => inferInstanceAs (Decidable op.Fits)
  | ⟨_, .data _ (some _) _⟩ => inferInstanceAs (Decidable (_ → _))
  | ⟨_, .data _ none _⟩ => isTrue trivial
  | ⟨_, .write _⟩ => isTrue trivial
  | ⟨_, .tick⟩ => isTrue trivial

theorem handle_ends {env : Env} (henv : ∀ n, ∀ op ∈ env.callback n, op.Fits)
    (e : Timeval × Event) (s : EvDNSResolverBase)
    (h : ∃ reqs replies, Filed none s reqs replies) (horderly : Orderly s e) :
    Ends (handle env e) s (fun _ t => ∃ reqs replies, Filed none t reqs replies) Crashed := by
  obtain ⟨reqs, replies, h⟩ := h
  obtain ⟨now, e⟩ := e
  simp only [handle]
  rw [ends_bind, ends_modify]
  refine event_ends henv (?_ : Filed none _ reqs replies) e ?_
  · exact h.congr rfl rfl rfl rfl rfl
  · cases e with
    | data toReadSz received stack => cases received <;> exact horderly
    | _ => exact horderly

theorem filed_run (env : Env) (henv : ∀ n, ∀ op ∈ env.callback n, op.Fits)
    (conf : EvDNSResolverConf) (evs : List (Timeval × Event))
    (horderly : Runs.Meets (handle env) Orderly (.live (.new conf)) evs) :
    Runs.Holds (fun s => ∃ reqs replies, Filed none s reqs replies) Crashed
      (runFrom env conf evs) :=
  Runs.invariant_run_of (handle_ends henv) (c := .live (.new conf)) ⟨[], [], filed_new conf⟩ evs
    horderly

/-- **Bookkeeping.**  In a run of orderly events the lists, the flags and the
slots of the resolver agree after every event. -/
theorem books_run (env : Env) (henv : ∀ n, ∀ op ∈ env.callback n, op.Fits)
    (conf : EvDNSResolverConf) (evs : List (Timeval × Event))
    (horderly : Runs.Meets (handle env) Orderly (.live (.new conf)) evs) :
    Runs.Holds (fun s => ∃ reqs replies, Books s reqs replies) Crashed
      (runFrom env conf evs) :=
  (filed_run env henv conf evs horderly).imp fun _ ⟨reqs, replies, h⟩ => ⟨reqs, replies, h.books⟩

/-- Whatever is written to the socket goes out, and callbacks do nothing. -/
def Env.idle : Env := ⟨fun _ => querySz, fun _ => []⟩

/-- Two lookups are sent, neither is answered in time, and a late reply to the
first one arrives before they are sent again. -/
def lateReply : List (Timeval × Event) :=
  [(⟨1, 0⟩, .user (.lookup [97] true 1 0)), (⟨1, 0⟩, .user (.lookup [98] true 2 0)),
    (⟨1, 0⟩, .write 8092), (⟨3, 0⟩, .tick), (⟨4, 0⟩, .tick),
    (⟨4, 0⟩, .data 12 (some (List.replicate 12 0)) fun _ => 0)]

/-- The books are kept by a lookup and the reply to it. -/
theorem books_run_reply :
    Runs.Holds (fun s => ∃ reqs replies, Books s reqs replies) Crashed
      (runFrom .idle ⟨10000, 1000, 3⟩
        [(⟨1, 0⟩, .user (.lookup [97] true 1 0)),
          (⟨1, 0⟩, .data 12 (some (List.replicate 12 0)) fun _ => 0)]) :=
  books_run .idle (fun _ _ h => by simp [Env.idle] at h) ⟨10000, 1000, 3⟩ _ (by decide)

/-- The late reply is counted out of the reply list, which is empty. -/
theorem lateReply_breaks_books :
    (runFrom .idle ⟨10000, 1000, 3⟩ lateReply).fault = none ∧
      ∀ reqs replies,
        ¬Books (runFrom .idle ⟨10000, 1000, 3⟩ lateReply).state reqs replies := by
  refine ⟨by decide, fun reqs replies h => ?_⟩
  have hhead : (runFrom .idle ⟨10000, 1000, 3⟩ lateReply).state.replyList.head = none := by
    decide
  have hsize : (runFrom .idle ⟨10000, 1000, 3⟩ lateReply).state.replyList.size =
      18446744073709551615 := by
    decide
  have hreply := h.reply.size
  rw [h.reply.head_none.mp hhead, hsize] at hreply
  exact absurd hreply (by decide)

end Dns
