import BrbFramework.FileMapped.Updates

/-!
# Holds

`refCount` counts the locks of the user and the requests that will call back, and a
callback that runs has the hold of its request until it gives it back. `Balanced` says
so at every point of a path. From it follows that the hold given back last is the one
after which nobody calls back any more, and only then the store is cleaned.

Some branches take a hold that nobody gives back, or give one back that nobody took.
`Sound` says of a log that none of them was taken.
-/

namespace FileMapped

open Relation List

/-! ## What the log says about holds -/

/-- The kernel would cancel the request when its file is closed. -/
def EvAIOReq.closable (r : EvAIOReq) : Bool := !r.cancelled && r.engine == .kq && r.queued

/-- Every hold that goes with this is given back once. -/
def Obs.sound : Obs → Bool
  | .failedNotified _ | .lost _ => false
  | .canceledAtSubmit r => r.finishCb != .genericUnlock
  | .metaRefused _ _ again => !again
  | .unlocked _ _ _ locks _ => decide (-1 ≤ locks)
  | .closed locks inFlight => decide (0 ≤ locks) || !inFlight.any (·.closable)
  | _ => true

def Sound (log : List Obs) : Prop := ∀ o ∈ log, o.sound = true

instance (log : List Obs) : Decidable (Sound log) := List.decidableBAll _ _

section Logs

variable {log log' : List Obs}

theorem Sound.of_prefix (h : Sound log') (hpre : log <+: log') : Sound log :=
  fun o ho => h o (hpre.subset ho)

theorem Sound.not_mem (h : Sound log) {o : Obs} (ho : o.sound = false) : o ∉ log := by
  intro hmem
  rw [h o hmem] at ho
  cases ho

theorem Sound.not_wild (h : Sound log) : ¬Wild log := by
  rintro ⟨r, hr | hr⟩
  · exact h.not_mem rfl hr
  · exact h.not_mem rfl hr

theorem Sound.not_leaky (h : Sound log) : ¬Leaky log := by
  rintro ⟨r, hr | ⟨hr, hcb⟩⟩
  · exact h.not_mem rfl hr
  · exact h.not_mem (by simp [Obs.sound, hcb]) hr

end Logs

/-! ## Requests that will call back -/

section Live

variable {s t : EvKQFileMapped} {r : EvAIOReq}

theorem live_length (s : EvKQFileMapped) :
    s.live.length = s.aio.countP fun r => !r.cancelled :=
  countP_eq_length_filter.symm

theorem live_append (h : t.aio = s.aio ++ [r]) (hr : r.cancelled = false) :
    t.live.length = s.live.length + 1 := by
  rw [live_length, live_length, h, countP_append, countP_singleton]
  simp [hr]

theorem live_map {f : EvAIOReq → EvAIOReq} (h : t.aio = s.aio.map f)
    (hf : ∀ r ∈ s.aio, (f r).cancelled = r.cancelled) : t.live.length = s.live.length := by
  rw [live_length, live_length, h, countP_map]
  refine countP_congr fun r hr => ?_
  simp only [Function.comp, hf r hr]

theorem live_unqueue (hkeys : (s.aio.map EvAIOReq.key).Nodup) (hmem : r ∈ s.aio) :
    s.live.length = (s.unqueue r).live.length + if r.cancelled = true then 0 else 1 := by
  rw [live_length, live_length, (perm_unqueue hkeys hmem).countP_eq, countP_cons]
  cases r.cancelled <;> rfl

theorem live_cancelReq (hkeys : (s.aio.map EvAIOReq.key).Nodup) (hr : r ∈ s.live) :
    s.live.length = (s.cancelReq r.engine r.id).live.length + 1 := by
  obtain ⟨hmem, hlive⟩ := mem_live.mp hr
  have hothers : (s.unqueue r).aio.map (fun q : EvAIOReq =>
      if q.key = (r.engine, r.id) then { q with cancelled := true } else q) =
      (s.unqueue r).aio := by
    refine (map_congr_left fun q hq => if_neg ?_).trans (map_id _)
    simpa [EvAIOReq.key] using (mem_filter.mp hq).2
  have hperm : (s.cancelReq r.engine r.id).aio.Perm
      ({ r with cancelled := true } :: (s.unqueue r).aio) := by
    have hmap := (perm_unqueue hkeys hmem).map fun q : EvAIOReq =>
      if q.key = (r.engine, r.id) then { q with cancelled := true } else q
    rwa [map_cons, if_pos (show r.key = (r.engine, r.id) from rfl), hothers] at hmap
  rw [live_length (s.cancelReq r.engine r.id), hperm.countP_eq, countP_cons, ← live_length,
    live_unqueue hkeys hmem]
  simp [hlive]

theorem mem_live_cancelReq {engine : Engine} {id : Nat} (hr : r ∈ s.live)
    (hkey : r.key ≠ (engine, id)) : r ∈ (s.cancelReq engine id).live := by
  obtain ⟨hmem, hlive⟩ := mem_live.mp hr
  exact mem_live.mpr ⟨mem_map.mpr ⟨r, hmem, if_neg hkey⟩, hlive⟩

theorem cancelAllByFd_self {fd : Int} (h : ∀ r ∈ s.aio, r.closable = false) :
    s.cancelAllByFd .kq fd = s := by
  have hself : s.aio.map (fun r : EvAIOReq =>
      if 0 ≤ fd ∧ r.engine = .kq ∧ r.queued = true ∧ r.fd = fd then
        { r with cancelled := true } else r) = s.aio := by
    refine (map_congr_left fun r hr => ?_).trans (map_id _)
    split
    next hfd =>
      have hnot := h r hr
      simp only [EvAIOReq.closable, hfd.2.1, hfd.2.2.1, beq_self_eq_true, Bool.and_true,
        Bool.not_eq_false'] at hnot
      cases r
      simp_all
    next => rfl
  simp only [EvKQFileMapped.cancelAllByFd, hself]

theorem closedAio_self (h : ∀ r ∈ s.aio, r.closable = false) : s.closedAio = s.aio := by
  unfold EvKQFileMapped.closedAio
  rw [cancelAllByFd_self h, cancelAllByFd_self h, cancelAllByFd_self h]

theorem Maps.live_nil (h : Maps s t) (hnil : s.live = []) : t.live = [] := by
  refine filter_eq_nil_iff.mpr fun q hq => ?_
  obtain ⟨r, hr, c, u, d, p, rfl, hc⟩ := h.kin hq
  have hcancelled : r.cancelled = true := by
    simpa using filter_eq_nil_iff.mp hnil r hr
  simpa using hc hcancelled

theorem closable_of_live_nil (hnil : s.live = []) : ∀ r ∈ s.aio, r.closable = false := by
  intro r hr
  have hcancelled : r.cancelled = true := by
    simpa using filter_eq_nil_iff.mp hnil r hr
  simp [EvAIOReq.closable, hcancelled]

end Live

/-! ## The invariant -/

structure Balanced (p : Point) : Prop where
  count : p.1.refCount = p.1.userLocks + p.2.held + p.1.live.length
  locks : -1 ≤ p.1.userLocks
  gone : p.1.refCount < 0 → p.1.cleaned = true ∨ p.2.dying = true
  dropped : ∀ serial ids, p.2.dropped = some (serial, ids) →
    ids.Nodup ∧ ∀ id ∈ ids, ∃ r ∈ p.1.live, p.1.Serves serial id r
  whole : Obs.loadAborted ∉ p.1.log

/-- No request that will call back was in flight when the store was cleaned. -/
def Guarded (log : List Obs) : Prop :=
  ∀ inFlight, Obs.cleaned inFlight ∈ log → ∀ r ∈ inFlight, r.cancelled = true

theorem balanced_blank (start : Start) : Balanced (start.blank, .idle) := by
  cases start <;>
    exact ⟨rfl, by simp [Start.blank], by simp [Start.blank], by simp [Mode.idle],
      by simp [Start.blank]⟩

section Steps

variable {p q : Point}

theorem Act.goes_on (h : Act p q) (hq : q.2.aborted = false) : p.2.aborted = false := by
  cases h with
  | issue _ _ _ =>
      simp only [Mode.issue] at hq
      split at hq <;> exact hq
  | abortLoad _ _ _ => cases hq
  | settle _ _ => rfl
  | _ => exact hq

theorem Balanced.over (h : Balanced p) (hcount : p.1.refCount < 0) :
    p.1.live = [] ∧ p.1.userLocks = -1 ∧ p.2.held = 0 := by
  have hsum := h.count
  have hlocks := h.locks
  have hlen : p.1.live.length = 0 := by omega
  exact ⟨length_eq_zero_iff.mp hlen, by omega, by omega⟩

theorem Balanced.closing (h : Balanced p) (hcount : p.1.refCount ≤ 1)
    (hwhy : 0 < p.2.held ∨ p.1.aio = [] ∨ Obs.loadAborted ∈ p.1.log)
    (hsound : Obs.sound (.closed p.1.userLocks p.1.aio) = true) : p.1.closedAio = p.1.aio := by
  refine closedAio_self fun r hr => ?_
  rcases hwhy with hheld | hnil | habort
  · simp only [Obs.sound, Bool.or_eq_true, decide_eq_true_eq, Bool.not_eq_true'] at hsound
    rcases hsound with hlocks | hnone
    · have hsum := h.count
      have hlen : p.1.live.length = 0 := by omega
      exact closable_of_live_nil (length_eq_zero_iff.mp hlen) r hr
    · exact Bool.eq_false_iff.mpr (any_eq_false.mp hnone r hr)
  · rw [hnil] at hr
    cases hr
  · exact absurd habort h.whole

theorem Act.count (h : Act p q) (hp : Formed p) (hb : Balanced p) (hsound : Sound q.1.log)
    (hq : q.2.aborted = false) :
    q.1.refCount = q.1.userLocks + q.2.held + q.1.live.length := by
  have hsum := hb.count
  have hlast (l : List Obs) (o : Obs) : o ∈ l ++ [o] :=
    mem_append_right _ (mem_singleton_self o)
  cases h with
  | calm h =>
      obtain ⟨f, haio, hf⟩ := h.frame.aio
      rw [h.frame.refCount, h.frame.userLocks, live_map haio fun r _ => ?_]
      · exact hsum
      · obtain ⟨u, d, p, hr⟩ := hf r
        rw [hr]
  | userLock _ _ =>
      simp only [EvKQFileMapped.hold, EvKQFileMapped.live] at hsum ⊢
      omega
  | leak hleaky => exact absurd hleaky hsound.not_leaky
  | @back s m who hheld _ _ =>
      simp only [EvKQFileMapped.giveBack, EvKQFileMapped.note, EvKQFileMapped.live,
        Mode.back] at hsum ⊢
      by_cases hwho : who = .user
      · rw [if_pos hwho, if_pos hwho]
        omega
      · have hpos := hheld hwho
        rw [if_neg hwho, if_neg hwho]
        omega
  | @clean s m _ hcount _ =>
      obtain ⟨hnil, -, -⟩ := hb.over hcount
      have hnone : s.internalClean.live = [] := (maps_internalClean s).live_nil hnil
      rw [hnone]
      rw [hnil] at hsum
      exact hsum
  | @issue s m r hfresh _ _ =>
      have hheld : (m.issue r).held = m.held := by
        unfold Mode.issue
        split <;> rfl
      rw [hheld, live_append (s := s) rfl hfresh.live]
      simp only [EvKQFileMapped.hold, EvKQFileMapped.submit] at hsum ⊢
      omega
  | @settle s r hmem hlive =>
      have hlen := live_unqueue hp.keys hmem
      simp only [hlive, Bool.false_eq_true, if_false] at hlen
      simp only [EvKQFileMapped.enter, EvKQFileMapped.note, EvKQFileMapped.unqueue,
        EvKQFileMapped.live, Mode.calls, Mode.idle] at hsum hlen ⊢
      omega
  | @reap s r hmem hcancelled =>
      have hlen := live_unqueue hp.keys hmem
      rw [if_pos hcancelled, Nat.add_zero] at hlen
      rw [← hlen]
      exact hsum
  | lose _ _ _ => exact absurd (hlast _ _) (hsound.not_mem rfl)
  | notified _ => exact absurd (hlast _ _) (hsound.not_mem rfl)
  | @cancel s t m serial ids id hdropped ht =>
      obtain ⟨r, hr, hserves⟩ := (hb.dropped serial _ hdropped).2 id mem_cons_self
      rcases ht with ⟨n, rfl, hn⟩ | ⟨-, hnone⟩
      · obtain ⟨-, hid, hengine⟩ := hserves
        have hlen := live_cancelReq hp.keys hr
        rw [hengine, Nat.cast_inj.mp (hid.trans hn.symm)] at hlen
        simp only [EvKQFileMapped.enter, EvKQFileMapped.note, EvKQFileMapped.live,
          EvKQFileMapped.cancelReq, EvKQFileMapped.setReq] at hsum hlen ⊢
        omega
      · exact absurd hserves.2.1 (hnone r (mem_live.mp hr).1 hserves.2.2)
  | abortLoad _ _ _ => cases hq
  | @closeFiles s m hcount _ hwhy _ =>
      have hclosed := hb.closing hcount hwhy (hsound _ (hlast _ _))
      simp only [EvKQFileMapped.closeFiles, EvKQFileMapped.live, hclosed] at hsum ⊢
      exact hsum
  | @issueRaw s m r packed hfresh _ _ _ _ _ =>
      rw [live_append (s := s) rfl hfresh.live]
      simp only [EvKQFileMapped.hold, EvKQFileMapped.push, EvKQFileMapped.note] at hsum ⊢
      omega
  | @issueAux s m r auxMb hfresh _ _ _ _ _ =>
      rw [live_append (s := s) rfl hfresh.live]
      simp only [EvKQFileMapped.hold, EvKQFileMapped.push, EvKQFileMapped.note] at hsum ⊢
      omega
  | @reissue s m r o _ _ hfresh _ _ _ _ hheld =>
      rw [live_append (s := s) rfl hfresh.live]
      simp only [EvKQFileMapped.passOn, EvKQFileMapped.push, EvKQFileMapped.note] at hsum ⊢
      omega
  | refuseAgain _ _ => exact absurd (hlast _ _) (hsound.not_mem rfl)
  | _ => exact hsum

theorem Act.locks (h : Act p q) (hsound : Sound q.1.log) (hlocks : -1 ≤ p.1.userLocks) :
    -1 ≤ q.1.userLocks := by
  cases h with
  | calm h => exact h.frame.userLocks ▸ hlocks
  | userLock _ _ => exact Int.le_add_one hlocks
  | back who _ _ _ =>
      have hnoted := hsound _ (mem_append_right _ (mem_singleton_self _))
      simpa only [Obs.sound, decide_eq_true_eq, EvKQFileMapped.giveBack,
        EvKQFileMapped.note] using hnoted
  | cancel _ ht => rcases ht with ⟨n, rfl, -⟩ | ⟨rfl, -⟩ <;> exact hlocks
  | _ => exact hlocks

theorem Act.gone (h : Act p q)
    (hgone : p.1.refCount < 0 → p.1.cleaned = true ∨ p.2.dying = true)
    (hcount : q.1.refCount < 0) : q.1.cleaned = true ∨ q.2.dying = true := by
  have hheld {i : Int} (h : i + 1 < 0) : i < 0 := by omega
  cases h with
  | calm h =>
      rw [h.frame.cleaned]
      rw [h.frame.refCount] at hcount
      exact hgone hcount
  | userLock _ _ => exact hgone (hheld hcount)
  | leak _ => exact hgone (hheld hcount)
  | @back s m who _ _ _ =>
      refine .inr (decide_eq_true ?_)
      simp only [EvKQFileMapped.giveBack, EvKQFileMapped.note] at hcount
      omega
  | clean _ _ _ => exact .inl rfl
  | @issue s m r _ _ _ =>
      have hdying : (m.issue r).dying = m.dying := by
        unfold Mode.issue
        split <;> rfl
      rw [hdying]
      exact hgone (hheld hcount)
  | settle _ _ => exact .inl ((hgone hcount).resolve_right Bool.false_ne_true)
  | issueRaw _ _ _ _ _ _ => exact hgone (hheld hcount)
  | issueAux _ _ _ _ _ _ => exact hgone (hheld hcount)
  | cancel _ ht => rcases ht with ⟨n, rfl, -⟩ | ⟨rfl, -⟩ <;> exact hgone hcount
  | _ => exact hgone hcount

theorem Act.whole (h : Act p q) (hq : q.2.aborted = false) (hwhole : Obs.loadAborted ∉ p.1.log) :
    Obs.loadAborted ∉ q.1.log := by
  have hnote {o : Obs} (ho : o ≠ .loadAborted) : Obs.loadAborted ∉ p.1.log ++ [o] := by
    intro hmem
    rcases mem_append.mp hmem with hold | hnew
    · exact hwhole hold
    · exact ho (mem_singleton.mp hnew).symm
  cases h with
  | calm h => exact fun hmem => hwhole (h.frame.not_mem rfl hmem)
  | cancel _ ht => rcases ht with ⟨n, rfl, -⟩ | ⟨rfl, -⟩ <;> exact hnote (by simp)
  | abortLoad _ _ _ => cases hq
  | clean _ _ _ => exact hnote (by simp)
  | closeFiles _ _ _ _ => exact hnote (by simp)
  | _ => first | exact hwhole | exact hnote (by simp)

theorem Act.dropped_live (h : Act p q) (hb : Balanced p) (hsound : Sound q.1.log)
    {serial : Nat} {ids : List Int} (hq : q.2.dropped = some (serial, ids)) :
    ids.Nodup ∧ ∀ id ∈ ids, ∃ r ∈ q.1.live, q.1.Serves serial id r := by
  have hkeep (hm : p.2.dropped = some (serial, ids))
      (hlive : ∀ r ∈ p.1.live, ∃ o ∈ q.1.live, Kin o r) :
      ids.Nodup ∧ ∀ id ∈ ids, ∃ r ∈ q.1.live, q.1.Serves serial id r := by
    obtain ⟨hnodup, hserves⟩ := hb.dropped serial ids hm
    refine ⟨hnodup, fun id hid => ?_⟩
    obtain ⟨r, hr, hserves⟩ := hserves id hid
    obtain ⟨o, ho, hkin⟩ := hlive r hr
    exact ⟨o, ho, hkin.serves h.const.1 hserves⟩
  have happend {s : EvKQFileMapped} {r o : EvAIOReq} (hr : r ∈ s.live) :
      r ∈ (s.aio ++ [o]).filter fun r => !r.cancelled := by
    rw [filter_append]
    exact mem_append_left _ hr
  cases h with
  | calm h =>
      refine hkeep hq fun r hr => ?_
      obtain ⟨f, haio, hf⟩ := h.frame.aio
      obtain ⟨hmem, hcancelled⟩ := mem_live.mp hr
      obtain ⟨u, d, done, hsame⟩ := hf r
      refine ⟨f r, mem_live.mpr ⟨haio ▸ mem_map_of_mem hmem, ?_⟩, ?_⟩
      · rw [hsame]
        exact hcancelled
      · exact ⟨r.cancelled, u, d, done, hsame, id⟩
  | @clean s m _ hcount _ =>
      obtain ⟨hnil, -, -⟩ := hb.over hcount
      refine hkeep hq fun r hr => ?_
      rw [hnil] at hr
      cases hr
  | closeFiles _ _ _ hnone => exact absurd (hnone.symm.trans hq) (by simp)
  | abortLoad _ hnone _ => exact absurd (hnone.symm.trans hq) (by simp)
  | settle _ _ => cases hq
  | reap _ _ => cases hq
  | lose _ _ _ => cases hq
  | dropEnd _ _ => cases hq
  | @dropState s m serial' ids' _ _ hids =>
      obtain ⟨rfl, rfl⟩ : serial' = serial ∧ ids' = ids := by simpa using hq
      exact hids.resolve_right hsound.not_wild
  | @cancel s t m serial' ids' id hdropped ht =>
      obtain ⟨rfl, rfl⟩ : serial' = serial ∧ ids' = ids := by simpa using hq
      obtain ⟨hnodup, hserves⟩ := hb.dropped serial' _ hdropped
      obtain ⟨hnot, hnodup⟩ := nodup_cons.mp hnodup
      refine ⟨hnodup, fun id' hid => ?_⟩
      obtain ⟨r, hr, hserves⟩ := hserves id' (mem_cons_of_mem _ hid)
      rcases ht with ⟨n, rfl, hn⟩ | ⟨rfl, -⟩
      · refine ⟨r, mem_live_cancelReq hr fun hkey => hnot ?_, hserves⟩
        have hrid : r.id = n := congrArg Prod.snd hkey
        rw [← hn, ← hrid, hserves.2.1]
        exact hid
      · exact ⟨r, hr, hserves⟩
  | @issue s m r _ _ _ =>
      have hdropped : (m.issue r).dropped = m.dropped := by
        unfold Mode.issue
        split <;> rfl
      exact hkeep (hdropped ▸ hq) fun r hr => ⟨r, happend hr, .refl r⟩
  | issueRaw _ _ _ _ _ _ => exact hkeep hq fun r hr => ⟨r, happend hr, .refl r⟩
  | issueAux _ _ _ _ _ _ => exact hkeep hq fun r hr => ⟨r, happend hr, .refl r⟩
  | reissue _ _ _ _ _ _ _ _ => exact hkeep hq fun r hr => ⟨r, happend hr, .refl r⟩
  | _ => exact hkeep hq fun r hr => ⟨r, hr, .refl r⟩

theorem Act.balanced (h : Act p q) (hp : Formed p) (hsound : Sound q.1.log)
    (hq : q.2.aborted = false) (hb : Balanced p) : Balanced q where
  count := h.count hp hb hsound hq
  locks := h.locks hsound hb.locks
  gone := h.gone hb.gone
  dropped _ _ hdropped := h.dropped_live hb hsound hdropped
  whole := h.whole hq hb.whole

theorem Guarded.note {log : List Obs} (h : Guarded log) {o : Obs}
    (ho : ∀ inFlight, o ≠ .cleaned inFlight) : Guarded (log ++ [o]) := by
  intro inFlight hmem
  rcases mem_append.mp hmem with hold | hnew
  · exact h inFlight hold
  · exact absurd (mem_singleton.mp hnew).symm (ho inFlight)

theorem Act.guarded (h : Act p q) (hb : p.2.aborted = false → Balanced p)
    (hg : Guarded p.1.log) : Guarded q.1.log := by
  cases h with
  | calm h => exact fun inFlight hmem => hg inFlight (h.frame.not_mem rfl hmem)
  | @clean s m _ hcount hm =>
      intro inFlight hmem r hr
      rcases mem_append.mp hmem with hold | hnew
      · exact hg inFlight hold r hr
      · obtain rfl := Obs.cleaned.inj (mem_singleton.mp hnew)
        obtain ⟨hnil, -, -⟩ := (hb hm.aborted).over hcount
        simpa using filter_eq_nil_iff.mp hnil r hr
  | cancel _ ht => rcases ht with ⟨n, rfl, -⟩ | ⟨rfl, -⟩ <;> exact hg.note (by simp)
  | closeFiles _ _ _ _ => exact hg.note (by simp)
  | abortLoad _ _ _ => exact hg.note (by simp)
  | _ => first | exact hg | exact hg.note (by simp)

theorem balanced_path (h : Path p q) (hp : Formed p) (hb : Balanced p) (hg : Guarded p.1.log)
    (hsound : Sound q.1.log) : Guarded q.1.log ∧ (q.2.aborted = false → Balanced q) := by
  induction h with
  | refl => exact ⟨hg, fun _ => hb⟩
  | @tail a b hpath hact ih =>
      obtain ⟨hguarded, hbalanced⟩ := ih (hsound.of_prefix hact.prefix)
      refine ⟨hact.guarded hbalanced hguarded, fun hq => ?_⟩
      exact hact.balanced (formed_path hpath hp) hsound hq (hbalanced (hact.goes_on hq))

end Steps

/-! ## Runs -/

/-- What `refCount` is for: it counts the locks of the user and the requests that will
call back, and the store is cleaned when both are gone. -/
structure Counted (s : EvKQFileMapped) : Prop where
  count : s.refCount = s.userLocks + s.live.length
  guarded : Guarded s.log
  cleaned : s.userLocks = -1 → s.live = [] → s.cleaned = true

/-- **Holds are counted.**  In every run without a lost or doubled hold, between any two
events `refCount` is the number of locks of the user and of requests that will call back.
At no time was the store cleaned while one of these was in flight, and it is cleaned once
the user gave the last lock back and no such request is left. -/
theorem holds_are_counted (env : Nat → Answer) (depth : Nat) (start : Start)
    (evs : List Event) (h : Sound (runFrom env depth start evs).state.log) :
    Runs.Holds Counted (fun _ s => Guarded s.log) (runFrom env depth start evs) := by
  have hrun := run_path env depth start evs
  have hblank : Guarded start.blank.log := by
    cases start <;> exact fun _ hmem => absurd hmem not_mem_nil
  unfold Runs.Holds at hrun ⊢
  split at hrun
  next =>
    obtain ⟨hguarded, hbalanced⟩ :=
      balanced_path hrun (formed_blank start) (balanced_blank start) hblank h
    have hb := hbalanced rfl
    have hcount : (runFrom env depth start evs).state.refCount =
        (runFrom env depth start evs).state.userLocks + ((0 : Nat) : Int) +
          (runFrom env depth start evs).state.live.length := hb.count
    rw [Int.natCast_zero, Int.add_zero] at hcount
    refine ⟨hcount, hguarded, fun hlocks hnil => ?_⟩
    rw [hlocks, hnil, length_nil] at hcount
    have hgone : (runFrom env depth start evs).state.refCount < 0 := by omega
    exact (hb.gone hgone).resolve_right Bool.false_ne_true
  next =>
    obtain ⟨m, hpath, -⟩ := hrun
    exact (balanced_path hpath (formed_blank start) (balanced_blank start) hblank h).1

/-- A write, and the store is destroyed before the write is done. -/
def destroyedBusy : Config :=
  runFrom freshSlots 1 (.init tenBytePages true)
    [.user (.aioWrite [1, 2, 3] 0 1 true), .user .destroy, .jobFinish 1 {}, .jobFinish 2 {},
      .jobFinish 3 {}]

theorem destroyed_busy_is_cleaned :
    Sound destroyedBusy.state.log ∧ destroyedBusy.state.cleaned = true := by
  have hsound : Sound destroyedBusy.state.log := by decide +kernel
  have hholds := holds_are_counted freshSlots 1 (.init tenBytePages true) _ hsound
  have hlive : destroyedBusy.fault = none := by decide +kernel
  have hcounted : Counted destroyedBusy.state := hholds.of_live hlive
  exact ⟨hsound, hcounted.cleaned (by decide +kernel) (by decide +kernel)⟩

def refuseThird (n : Nat) : Answer := { slot := n, job := n ≠ 2 }

/-- Two closes, and the pool refuses the metadata write that the first one's callback
issues again: its hold is never given back. -/
theorem refused_reissue_keeps_hold :
    ¬Counted (runFrom refuseThird 1 (.init tenBytePages true)
      [.user .close, .user .close, .jobFinish 1 {}]).state := by
  intro h
  exact absurd h.count (by decide)

end FileMapped
