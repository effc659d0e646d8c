import BrbFramework.AioPQ.Moves

/-!
# The counters of the requests

Every accepted query stands in exactly one of four counters: it is current, or
it was answered, cancelled in the queue or cancelled after it was sent. The
current ones are those of the REQUEST list and of the REPLY list. In between,
a request that is counted out and not yet destroyed is owed to the lists.
-/

namespace EvAIOPQ

open Relation Handler BrbData List

/-- The counters agree with each other and with the two lists. -/
structure Accounted (s : EvAIOPQBase) (owed : Option Nat) : Prop where
  total : s.countTotal = s.countCur + s.countSuccess + s.countCancel + s.countCancelNotified
  current : s.countCur + owed.toList.length = s.requests.length + s.replies.length

section Counters

variable {s t : EvAIOPQBase} {owed : Option Nat}

theorem Quiet.requests (h : Quiet s t) : t.requests = s.requests := by
  unfold EvAIOPQBase.requests
  rw [h.reqslot]

theorem Quiet.replies (h : Quiet s t) : t.replies = s.replies := by
  unfold EvAIOPQBase.replies
  rw [h.reqslot]

theorem Quiet.accounted (h : Quiet s t) (hs : Accounted s owed) : Accounted t owed := by
  constructor
  · rw [h.countTotal, h.countCur, h.countSuccess, h.countCancel, h.countCancelNotified]
    exact hs.total
  · rw [h.countCur, h.requests, h.replies]
    exact hs.current

theorem length_erase_add {req : Nat} {l : List Nat} (h : req ∈ l) :
    (l.erase req).length + 1 = l.length := by
  rw [length_erase_of_mem h]
  have hpos := length_pos_of_mem h
  omega

theorem Ask.accounted (h : Ask s t) (hs : Accounted s owed) : Accounted t owed := by
  have htotal := hs.total
  have hcurrent := hs.current
  cases h with
  | quiet h => exact h.accounted hs
  | @accept m reqslot req hf r hgrab hserial =>
      constructor
      · change s.countTotal + 1 =
          s.countCur + 1 + s.countSuccess + s.countCancel + s.countCancelNotified
        omega
      · rw [accept_requests hgrab, accept_replies hgrab]
        change s.countCur + 1 + owed.toList.length = (s.requests ++ [req]).length + _
        simp only [length_append, length_singleton]
        omega
  | cancel req => exact ⟨htotal, hcurrent⟩
  | @attach m cli req hf hmem =>
      refine ⟨htotal, ?_⟩
      rw [hf.attach_requests hmem, hf.attach_replies hmem]
      change s.countCur + owed.toList.length = _
      have herase := length_erase_add hmem
      simp only [length_cons]
      omega

/-- A reply that was read takes its request from the current ones to the
answered ones, or to the ones that were cancelled too late. -/
theorem detach_counts (s : EvAIOPQBase) (cli req : Nat) :
    (s.detach cli req).countCur = s.countCur - 1 ∧
      (s.detach cli req).countTotal = s.countTotal ∧
      (s.detach cli req).countCancel = s.countCancel ∧
      (s.detach cli req).countSuccess + (s.detach cli req).countCancelNotified =
        s.countSuccess + s.countCancelNotified + 1 := by
  simp only [EvAIOPQBase.detach]
  split
  · refine ⟨rfl, rfl, rfl, ?_⟩
    change s.countSuccess + (s.countCancelNotified + 1) = _
    omega
  · refine ⟨rfl, rfl, rfl, ?_⟩
    change s.countSuccess + 1 + s.countCancelNotified = _
    omega

theorem Move.accounted {p q : EvAIOPQBase × Option Nat} (h : Move p q)
    (hp : Accounted p.1 p.2) : Accounted q.1 q.2 := by
  have htotal := hp.total
  have hcurrent := hp.current
  cases h with
  | ask h => exact h.accounted hp
  | parent s owed req cli => exact ⟨htotal, hcurrent⟩
  | call h hheard => exact ⟨htotal, hcurrent⟩
  | @giveUp s req hmem hcancelled =>
      have hpos := length_pos_of_mem hmem
      simp only [Option.toList_none, length_nil] at htotal hcurrent
      constructor
      · change s.countTotal =
          s.countCur - 1 + s.countSuccess + (s.countCancel + 1) + s.countCancelNotified
        omega
      · change s.countCur - 1 + 1 = s.requests.length + s.replies.length
        omega
  | @drop s m req hf hmem =>
      refine ⟨htotal, ?_⟩
      simp only [hf.drop_requests hmem, hf.drop_replies hmem]
      change s.countCur + 0 = _
      have herase := length_erase_add hmem
      simp only [Option.toList_some, length_singleton] at hcurrent
      omega
  | @release s cli req hf hmem =>
      obtain ⟨hcur, htot, hcancel, hsettled⟩ := detach_counts s cli req
      obtain ⟨hd, hreq⟩ := hf.detach_reply hmem cli
      have hpos := length_pos_of_mem hmem
      simp only [Option.toList_none, length_nil] at htotal hcurrent
      constructor
      · change (s.detach cli req).countTotal = (s.detach cli req).countCur +
          (s.detach cli req).countSuccess + (s.detach cli req).countCancel +
          (s.detach cli req).countCancelNotified
        omega
      · simp only [hd.release_requests hreq, hd.release_replies hreq]
        change (s.detach cli req).countCur + 0 = _
        have herase := length_erase_add hreq
        rw [EvAIOPQBase.replies, detach_reqslot] at herase ⊢
        rw [EvAIOPQBase.requests, detach_reqslot]
        change _ = s.replies.length at herase
        change _ = s.requests.length + _
        omega

theorem moves_accounted {p q : EvAIOPQBase × Option Nat} (h : Moves p q)
    (hp : Accounted p.1 p.2) : Accounted q.1 q.2 := by
  induction h with
  | refl => exact hp
  | tail _ hstep ih => exact hstep.accounted ih

end Counters

theorem accounted_baseNew (conf : EvAIOPQBaseConf) : Accounted (baseNew conf) none :=
  ⟨rfl, rfl⟩

end EvAIOPQ
