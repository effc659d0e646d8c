import BrbFramework.Lib.Logs
import BrbFramework.FileMapped.Handlers

/-!
# Metadata updates

An update of a metadata file that is asked for while a write of the file is in flight
waits in a slot that holds one update, and the finish callback of the write issues it.
So what the file will hold is the update in hand, else the one that waits, else the
one last issued, and `Current` says that this is always the one last asked for.
-/

namespace FileMapped

open Relation Logs List

/-! ## What the log says about a metadata file -/

def Obs.askedOf (cb : FinishCB) : Obs → Option Data
  | .asked d => if cb.carries d then some d else none
  | _ => none

def Obs.issuedOf (cb : FinishCB) : Obs → Option Data
  | .issued r _ => if r.finishCb = cb then some r.data else none
  | _ => none

def Obs.isRefusal : Obs → Bool
  | .metaRefused .. => true
  | _ => false

def Obs.isIssue : Obs → Bool
  | .issued .. => true
  | _ => false

instance (log : List Obs) : Decidable (Refused log) :=
  decidable_of_iff (log.any Obs.isRefusal = true) <| by
    rw [List.any_eq_true]
    constructor
    · rintro ⟨o, ho, hrefusal⟩
      cases o with
      | metaRefused cb closing again => exact ⟨cb, closing, again, ho⟩
      | _ => cases hrefusal
    · rintro ⟨cb, closing, again, h⟩
      exact ⟨_, h, rfl⟩

/-- The update that waits for the write in flight. -/
def EvKQFileMapped.waiting (s : EvKQFileMapped) : FinishCB → Option Data
  | .writeMetaRawData => s.lastMbRaw.map .packed
  | .writeMetaAuxData => s.lastMbAux.map .aux
  | _ => none

/-- The update of this file that was asked for and is neither issued nor waits. -/
def Mode.inHand (m : Mode) (cb : FinishCB) : Option Data := m.asked.filter cb.carries

/-- A write of this file has called back and is not done yet. -/
def Mode.settles (m : Mode) (cb : FinishCB) : Prop := m.settling.map (·.finishCb) = some cb

/-! ## The invariant -/

/-- The file gets the update that was asked for last. -/
structure Current (p : Point) (cb : FinishCB) : Prop where
  busy : p.1.writing cb = true → metaCount p cb = 1
  waits : p.1.waiting cb ≠ none → p.1.writing cb = true
  swapped : p.2.settles cb → p.2.inHand cb ≠ none → p.1.waiting cb = none
  last : lastOf (Obs.askedOf cb) p.1.log =
    (p.2.inHand cb).or ((p.1.waiting cb).or (lastOf (Obs.issuedOf cb) p.1.log))

/-- No write of a metadata file is cancelled before the store is cleaned. -/
def Uncancelled (s : EvKQFileMapped) : Prop :=
  s.cleaned = false → ∀ r ∈ s.aio, r.finishCb.writesMeta = true → r.cancelled = false

section Steps

variable {p q : Point} {cb : FinishCB}

theorem metaCount_congr (hcount : q.1.countCb cb = p.1.countCb cb)
    (hsettling : q.2.settles cb ↔ p.2.settles cb) : metaCount q cb = metaCount p cb := by
  unfold Mode.settles at hsettling
  simp only [metaCount, hcount, hsettling]

def Silent (cb : FinishCB) (log log' : List Obs) : Prop :=
  ∃ os, log' = log ++ os ∧ ∀ o ∈ os, o.askedOf cb = none ∧ o.issuedOf cb = none

theorem silent_refl (log : List Obs) : Silent cb log log :=
  ⟨[], (append_nil log).symm, by simp⟩

theorem silent_note (log : List Obs) {o : Obs} (hasked : o.askedOf cb = none)
    (hissued : o.issuedOf cb = none) : Silent cb log (log ++ [o]) :=
  ⟨[o], rfl, by simp [hasked, hissued]⟩

theorem Current.keep (h : Current p cb) (hcount : metaCount q cb = metaCount p cb)
    (hwriting : q.1.writing cb = p.1.writing cb) (hwaiting : q.1.waiting cb = p.1.waiting cb)
    (hasked : q.2.inHand cb = p.2.inHand cb) (hlog : Silent cb p.1.log q.1.log)
    (hswapped : q.2.settles cb → p.2.settles cb ∨ p.2.inHand cb = none) : Current q cb := by
  obtain ⟨os, hlog, hos⟩ := hlog
  refine ⟨fun hbusy => ?_, fun hwait => ?_, fun hsettles hin => ?_, ?_⟩
  · rw [hcount]
    exact h.busy (hwriting ▸ hbusy)
  · rw [hwriting]
    exact h.waits (hwaiting ▸ hwait)
  · rw [hasked] at hin
    rw [hwaiting]
    exact h.swapped ((hswapped hsettles).resolve_right hin) hin
  · rw [hlog, lastOf_append_of_none fun o ho => (hos o ho).1,
      lastOf_append_of_none fun o ho => (hos o ho).2, hasked, hwaiting]
    exact h.last

theorem Current.steady (h : Current p cb) (hcount : q.1.countCb cb = p.1.countCb cb)
    (hsettling : q.2.settles cb ↔ p.2.settles cb) (hwriting : q.1.writing cb = p.1.writing cb)
    (hwaiting : q.1.waiting cb = p.1.waiting cb) (hasked : q.2.inHand cb = p.2.inHand cb)
    (hlog : Silent cb p.1.log q.1.log) : Current q cb :=
  h.keep (metaCount_congr hcount hsettling) hwriting hwaiting hasked hlog
    fun hq => .inl (hsettling.mp hq)

theorem Obs.framed_silent {o : Obs} {threaded : Bool} (h : o.framed threaded = true) :
    o.askedOf cb = none ∧ o.issuedOf cb = none := by
  cases o <;> first | exact ⟨rfl, rfl⟩ | cases h

theorem Calm.current {s t : EvKQFileMapped} {m : Mode} (hc : Calm m s t)
    (h : Current (s, m) cb) : Current (t, m) cb := by
  have hframe := hc.frame
  refine h.steady (hframe.maps.countCb cb) Iff.rfl ?_ ?_ rfl ?_
  · simp only [EvKQFileMapped.writing, hframe.metaRawWriting, hframe.metaAuxWriting]
  · simp only [EvKQFileMapped.waiting, hframe.lastMbRaw, hframe.lastMbAux]
  · obtain ⟨os, hlog, hos⟩ := hframe.log
    exact ⟨os, hlog, fun o ho => Obs.framed_silent (hos o ho)⟩

theorem inHand_of_carries {m : Mode} {d : Data} (h : m.asked = some d)
    (hd : cb.carries d = true) : m.inHand cb = some d := by
  simp [Mode.inHand, h, hd]

theorem inHand_of_none {m : Mode} (h : m.asked = none) : m.inHand cb = none := by
  simp [Mode.inHand, h]

theorem inHand_of_other {m : Mode} {d : Data} (h : m.asked = some d)
    (hd : cb.carries d = false) : m.inHand cb = none := by
  simp [Mode.inHand, h, hd]

theorem carries_unique {cb' : FinishCB} {d : Data} (h : cb.carries d = true)
    (h' : cb'.carries d = true) : cb = cb' := by
  cases cb <;> cases cb' <;> cases d <;> simp_all [FinishCB.carries]

theorem silent_ask (log : List Obs) {d : Data} (hd : cb.carries d = false) :
    Silent cb log (log ++ [.asked d]) :=
  silent_note log (by simp [Obs.askedOf, hd]) rfl

theorem silent_issue (log : List Obs) {r : EvAIOReq} {others : List EvAIOReq}
    (hr : r.finishCb ≠ cb) : Silent cb log (log ++ [.issued r others]) :=
  silent_note log rfl (by simp [Obs.issuedOf, hr])

theorem Current.ask {s : EvKQFileMapped} {m : Mode} {d : Data} (h : Current (s, m) cb)
    (hasked : m.asked = none) (hsettling : m.settling = none) :
    Current (s.note (.asked d), { m with asked := some d }) cb := by
  cases hd : cb.carries d with
  | false =>
      refine h.steady rfl Iff.rfl rfl rfl ?_ (silent_ask s.log hd)
      rw [inHand_of_none hasked, inHand_of_other rfl hd]
  | true =>
      refine ⟨h.busy, h.waits, fun hsettles => ?_, ?_⟩
      · simp [Mode.settles, hsettling] at hsettles
      · rw [inHand_of_carries rfl hd, Option.some_or]
        exact lastOf_concat (by simp [Obs.askedOf, hd])

theorem Current.coalesce {s t : EvKQFileMapped} {m : Mode} {d : Data} (h : Current (s, m) cb)
    (file : FinishCB) (hasked : m.asked = some d) (hfile : file.carries d = true)
    (hwriting : s.writing file = true) (hwaiting : t.waiting file = some d)
    (hother : cb ≠ file → t.waiting cb = s.waiting cb)
    (hsettling : m.settling = none) (haio : t.aio = s.aio) (hlog : t.log = s.log)
    (hsame : ∀ cb, t.writing cb = s.writing cb) :
    Current (t, { m with asked := none }) cb := by
  have hcount : t.countCb cb = s.countCb cb := by simp only [EvKQFileMapped.countCb, haio]
  by_cases hcb : cb = file
  · subst hcb
    refine ⟨fun hbusy => ?_, fun _ => ?_, fun hsettles => ?_, ?_⟩
    · exact (metaCount_congr (p := (s, m)) (q := (t, _)) hcount Iff.rfl).trans
        (h.busy ((hsame cb).symm.trans hbusy))
    · exact (hsame cb).trans hwriting
    · simp [Mode.settles, hsettling] at hsettles
    · have hlast := h.last
      rw [inHand_of_carries hasked hfile, Option.some_or] at hlast
      rw [inHand_of_none rfl, hwaiting, hlog]
      exact hlast
  · have hd : cb.carries d = false := by
      by_contra hnot
      exact hcb (carries_unique (by simpa using hnot) hfile)
    have hsilent : Silent cb s.log t.log := by
      rw [hlog]
      exact silent_refl s.log
    refine h.steady hcount Iff.rfl (hsame cb) (hother hcb) ?_ hsilent
    rw [inHand_of_none rfl, inHand_of_other hasked hd]

theorem Current.issue {s t : EvKQFileMapped} {m n : Mode} {r : EvAIOReq}
    (h : Current (s, m) cb) (hasked : m.asked = some r.data) (hn : n.asked = none)
    (hcarries : r.finishCb.carries r.data = true) (haio : t.aio = s.aio ++ [r])
    (hlog : t.log = s.log ++ [.issued r s.aio]) (hwaiting : ∀ cb, t.waiting cb = s.waiting cb)
    (hidle : cb = r.finishCb → s.waiting cb = none)
    (hbusy : cb = r.finishCb → metaCount (t, n) cb = 1)
    (hsettling : cb ≠ r.finishCb → (n.settles cb ↔ m.settles cb))
    (hother : cb ≠ r.finishCb → t.writing cb = s.writing cb) :
    Current (t, n) cb := by
  by_cases hcb : cb = r.finishCb
  · subst hcb
    refine ⟨fun _ => hbusy rfl, fun hwait => ?_, fun _ hin => ?_, ?_⟩
    · rw [hwaiting, hidle rfl] at hwait
      exact absurd rfl hwait
    · rw [inHand_of_none hn] at hin
      exact absurd rfl hin
    · have hlast := h.last
      rw [inHand_of_carries hasked hcarries, Option.some_or] at hlast
      have hkept : lastOf (Obs.askedOf r.finishCb) t.log =
          lastOf (Obs.askedOf r.finishCb) s.log := by
        rw [hlog]
        exact lastOf_append_of_none (by simp [Obs.askedOf])
      have hissued : lastOf (Obs.issuedOf r.finishCb) t.log = some r.data := by
        rw [hlog]
        exact lastOf_concat (by simp [Obs.issuedOf])
      rw [inHand_of_none hn, hwaiting, hidle rfl, Option.none_or, Option.none_or, hkept, hissued]
      exact hlast
  · have hd : cb.carries r.data = false := by
      by_contra hnot
      exact hcb (carries_unique (by simpa using hnot) hcarries)
    have hcount : t.countCb cb = s.countCb cb := by
      rw [countCb_append haio, if_neg (Ne.symm hcb), Nat.add_zero]
    have hsilent : Silent cb s.log t.log := by
      rw [hlog]
      exact silent_issue s.log (Ne.symm hcb)
    refine h.steady hcount (hsettling hcb) (hother hcb) (hwaiting cb) ?_ hsilent
    rw [inHand_of_none hn, inHand_of_other hasked hd]

theorem Current.unawaited (h : Current p cb) (hoff : p.1.writing cb = false) :
    p.1.waiting cb = none := by
  by_contra hwait
  exact Bool.noConfusion (hoff.symm.trans (h.waits hwait))

theorem metaCount_first {s t : EvKQFileMapped} {m n : Mode} {r : EvAIOReq} (hp : Formed (s, m))
    (hmeta : r.finishCb.writesMeta = true) (hoff : s.writing r.finishCb = false)
    (haio : t.aio = s.aio ++ [r]) (hn : n.settling = m.settling) :
    metaCount (t, n) r.finishCb = 1 := by
  have hle := hp.single r.finishCb hmeta
  rw [hoff, Bool.toNat_false] at hle
  have hcount := countCb_append haio r.finishCb
  rw [if_pos rfl] at hcount
  simp only [metaCount, hn] at hle ⊢
  omega

theorem Current.take {s t : EvKQFileMapped} {m : Mode} {d : Data} (h : Current (s, m) cb)
    (file : FinishCB) (hasked : m.asked = none) (hfile : file.carries d = true)
    (hold : s.waiting file = some d) (hnew : t.waiting file = none)
    (hother : cb ≠ file → t.waiting cb = s.waiting cb) (haio : t.aio = s.aio)
    (hlog : t.log = s.log) (hsame : t.writing cb = s.writing cb) :
    Current (t, { m with asked := some d }) cb := by
  have hcount : metaCount (t, { m with asked := some d }) cb = metaCount (s, m) cb := by
    simp only [metaCount, EvKQFileMapped.countCb, haio]
  by_cases hcb : cb = file
  · subst hcb
    refine ⟨fun hbusy => ?_, fun hwait => absurd hnew hwait, fun _ _ => hnew, ?_⟩
    · exact hcount.trans (h.busy (hsame.symm.trans hbusy))
    · have hlast := h.last
      rw [inHand_of_none hasked, hold, Option.none_or, Option.some_or] at hlast
      rw [inHand_of_carries rfl hfile, Option.some_or, hlog]
      exact hlast
  · have hd : cb.carries d = false := by
      by_contra hnot
      exact hcb (carries_unique (by simpa using hnot) hfile)
    have hsilent : Silent cb s.log t.log := by
      rw [hlog]
      exact silent_refl s.log
    refine h.keep hcount hsame (hother hcb) ?_ hsilent .inl
    rw [inHand_of_none hasked, inHand_of_other rfl hd]

theorem Current.done {s t : EvKQFileMapped} {m : Mode} {r : EvAIOReq} (h : Current (s, m) cb)
    (hr : m.settling = some r) (hwaiting : ∀ cb, t.waiting cb = s.waiting cb)
    (hidle : s.waiting r.finishCb = none) (hwriting : t.writing r.finishCb = false)
    (hother : cb ≠ r.finishCb → t.writing cb = s.writing cb) (haio : t.aio = s.aio)
    (hlog : t.log = s.log) : Current (t, { m with settling := none }) cb := by
  by_cases hcb : cb = r.finishCb
  · subst hcb
    refine ⟨fun hbusy => ?_, fun hwait => ?_, fun hsettles => ?_, ?_⟩
    · exact Bool.noConfusion (hwriting.symm.trans hbusy)
    · exact absurd ((hwaiting _).trans hidle) hwait
    · cases hsettles
    · rw [hwaiting, hlog]
      exact h.last
  · have hcount : t.countCb cb = s.countCb cb := by simp only [EvKQFileMapped.countCb, haio]
    have hsilent : Silent cb s.log t.log := by
      rw [hlog]
      exact silent_refl s.log
    have hsettling : ({ m with settling := none } : Mode).settles cb ↔ m.settles cb := by
      simp [Mode.settles, hr, Ne.symm hcb]
    exact h.steady hcount hsettling (hother hcb) (hwaiting cb) rfl hsilent

theorem countCb_unqueue_other {s : EvKQFileMapped} {r : EvAIOReq}
    (hkeys : (s.aio.map EvAIOReq.key).Nodup) (hmem : r ∈ s.aio) (hr : r.finishCb ≠ cb) :
    (s.unqueue r).countCb cb = s.countCb cb := by
  have hcount := @countCb_unqueue s r cb hkeys hmem
  rw [if_neg hr, Nat.add_zero] at hcount
  exact hcount.symm

theorem Act.current (h : Act p q) (hp : Formed p) (hcb : cb.writesMeta = true)
    (hrefused : ¬Refused q.1.log) (hcleaned : q.1.cleaned = false)
    (hkept : Uncancelled p.1) (hc : Current p cb) : Current q cb := by
  have hne {r : EvAIOReq} (hr : r.finishCb.writesMeta = false) : r.finishCb ≠ cb := by
    rintro rfl
    exact Bool.noConfusion (hcb.symm.trans hr)
  have hgone {m : Mode} {r : EvAIOReq} (hr : m.settling = some r) (hcb : r.finishCb ≠ cb) :
      ({ m with settling := none } : Mode).settles cb ↔ m.settles cb := by
    simp [Mode.settles, hr, hcb]
  cases h with
  | calm h => exact h.current hc
  | cancel _ ht =>
      rcases ht with ⟨n, rfl, -⟩ | ⟨rfl, -⟩
      · exact hc.steady ((maps_cancelReq _ _ _).countCb cb) Iff.rfl rfl rfl rfl
          (silent_note _ rfl rfl)
      · exact hc.steady rfl Iff.rfl rfl rfl rfl (silent_note _ rfl rfl)
  | clean _ _ _ => cases hcleaned
  | closeFiles _ _ _ _ =>
      exact hc.steady ((maps_closeFiles _).countCb cb) Iff.rfl rfl rfl rfl
        (silent_note _ rfl rfl)
  | abortLoad _ _ _ =>
      exact hc.steady ((maps_cancelAllByFd _ _ _).countCb cb) Iff.rfl rfl rfl rfl
        (silent_note _ rfl rfl)
  | @issue s m r hfresh hpurpose _ =>
      have hr := hne hpurpose.not_meta
      have hmode : (m.issue r).settles cb ↔ m.settles cb := by
        unfold Mode.issue
        split <;> exact Iff.rfl
      have hhand : (m.issue r).inHand cb = m.inHand cb := by
        unfold Mode.issue
        split <;> rfl
      have hcount : ((s.submit r).hold).countCb cb = s.countCb cb := by
        rw [countCb_append (s := s) rfl, if_neg hr, Nat.add_zero]
      exact hc.steady hcount hmode rfl rfl hhand (silent_issue _ hr)
  | @settle s r hmem _ =>
      have hcount : metaCount (((s.unqueue r).note (.settled r)).enter,
          { Mode.calls 1 with settling := some r }) cb = metaCount (s, .idle) cb := by
        have hcount := @countCb_unqueue s r cb hp.keys hmem
        simp only [metaCount, Mode.idle, Option.map_none, Option.map_some, reduceCtorEq,
          if_false, Option.some.injEq, Nat.add_zero]
        exact hcount.symm
      exact hc.keep hcount rfl rfl rfl (silent_note _ rfl rfl) fun _ => .inr rfl
  | settled hr hgeneric =>
      exact hc.steady rfl (hgone hr (hne (by rw [hgeneric]; rfl))) rfl rfl rfl (silent_refl _)
  | @reap s r hmem hcancelled =>
      have hr : r.finishCb.writesMeta = false := by
        by_contra hnot
        have hlive := hkept hcleaned r hmem (by simpa using hnot)
        exact Bool.noConfusion (hcancelled.symm.trans hlive)
      exact hc.steady (countCb_unqueue_other hp.keys hmem (hne hr)) Iff.rfl rfl rfl rfl
        (silent_refl _)
  | @lose s r hmem _ hengine =>
      have hr : r.finishCb.writesMeta = false := by
        by_contra hnot
        have hthread := hp.metaThread r (.inl hmem) (by simpa using hnot)
        exact Engine.noConfusion (hengine.symm.trans hthread)
      exact hc.steady (countCb_unqueue_other hp.keys hmem (hne hr)) Iff.rfl rfl rfl rfl
        (silent_note _ rfl rfl)
  | ask d hasked hsettling => exact hc.ask hasked hsettling
  | coalesceRaw hasked hraw hsettling =>
      refine hc.coalesce .writeMetaRawData hasked rfl hraw rfl (fun hne => ?_)
        hsettling rfl rfl fun _ => rfl
      cases cb <;> first | rfl | exact absurd rfl hne
  | coalesceAux hasked haux hsettling =>
      refine hc.coalesce .writeMetaAuxData hasked rfl haux rfl (fun hne => ?_)
        hsettling rfl rfl fun _ => rfl
      cases cb <;> first | rfl | exact absurd rfl hne
  | auxSlot _ _ _ => exact hc.steady rfl Iff.rfl rfl rfl rfl (silent_refl _)
  | @issueRaw s m r packed hfresh hraw _ hdata hasked hoff =>
      have hwriting : s.writing r.finishCb = false := by
        rw [hraw]
        exact hoff
      refine hc.issue (hasked.trans (by rw [hdata])) rfl (by rw [hraw, hdata]; rfl) rfl rfl
        (fun _ => rfl) (fun hcb => hc.unawaited (hcb ▸ hwriting)) (fun hcb => ?_)
        (fun _ => Iff.rfl) fun hne => ?_
      · rw [hcb]
        exact metaCount_first hp (by rw [hraw]; rfl) hwriting rfl rfl
      · cases cb <;> first | rfl | exact absurd hraw.symm hne
  | @issueAux s m r auxMb hfresh haux _ hdata hasked hoff =>
      have hwriting : s.writing r.finishCb = false := by
        rw [haux]
        exact hoff
      have hasked' := hasked.resolve_right fun h => hrefused (h.2.mono (subset_append_left _ _))
      refine hc.issue (hasked'.trans (by rw [hdata])) rfl (by rw [haux, hdata]; rfl) rfl rfl
        (fun _ => rfl) (fun hcb => hc.unawaited (hcb ▸ hwriting)) (fun hcb => ?_)
        (fun _ => Iff.rfl) fun hne => ?_
      · rw [hcb]
        exact metaCount_first hp (by rw [haux]; rfl) hwriting rfl rfl
      · cases cb <;> first | rfl | exact absurd haux.symm hne
  | refuse cb' =>
      exact absurd ⟨_, _, _, mem_append_right _ (mem_singleton_self _)⟩ hrefused
  | refuseAgain _ _ =>
      exact absurd ⟨_, _, _, mem_append_right _ (mem_singleton_self _)⟩ hrefused
  | takeRaw hr hraw hwait hasked =>
      refine hc.take .writeMetaRawData hasked rfl (by simp [EvKQFileMapped.waiting, hwait]) rfl
        (fun hne => ?_) rfl rfl rfl
      cases cb <;> first | rfl | exact absurd rfl hne
  | takeAux hr haux hwait hasked =>
      refine hc.take .writeMetaAuxData hasked rfl (by simp [EvKQFileMapped.waiting, hwait]) rfl
        (fun hne => ?_) rfl rfl rfl
      cases cb <;> first | rfl | exact absurd rfl hne
  | @reissue s m r o hr hmeta hfresh hsame hengine hasked hdata _ =>
      have hsettles (hcb : cb = o.finishCb) : m.settles cb := by
        simp [Mode.settles, hr, hcb, hsame]
      have hin (hcb : cb = o.finishCb) : m.inHand cb ≠ none := by
        rw [hcb, inHand_of_carries hasked hdata]
        simp
      refine hc.issue (n := { m with held := m.held - 1, settling := none, asked := none })
        hasked rfl hdata rfl rfl (fun _ => rfl)
        (fun hcb => hc.swapped (hsettles hcb) (hin hcb)) (fun hcb => ?_) (fun hne => ?_)
        fun _ => rfl
      · have hbusy := hc.busy (by
          rw [hcb, hsame]
          exact (hp.alone hr hmeta).2)
        have hcount := countCb_append (s := s) (t := (s.push o).passOn) (r := o) rfl cb
        simp only [metaCount, hr, Option.map_some, hcb, hsame, if_true] at hbusy hcount ⊢
        rw [hcount]
        simpa using hbusy
      · simp [Mode.settles, hr, ← hsame, Ne.symm hne]
  | @rawDone s m r hr hraw hwait =>
      have hidle : s.waiting r.finishCb = none := by
        rw [hraw]
        simp [EvKQFileMapped.waiting, hwait]
      refine hc.done hr (fun _ => rfl) hidle (by rw [hraw]; rfl) (fun hne => ?_) rfl rfl
      cases cb <;> first | rfl | exact absurd hraw.symm hne
  | @auxDone s m r hr haux hwait =>
      have hidle : s.waiting r.finishCb = none := by
        rw [haux]
        simp [EvKQFileMapped.waiting, hwait]
      refine hc.done hr (fun _ => rfl) hidle (by rw [haux]; rfl) (fun hne => ?_) rfl rfl
      cases cb <;> first | rfl | exact absurd haux.symm hne
  | @retire s m st r error hst hid hstate hr =>
      have hsettling : ({ m with settling := none } : Mode).settles cb ↔ m.settles cb := by
        rcases hr with hr | ⟨hr, -⟩
        · refine hgone hr (hne ?_)
          by_contra hmeta
          refine hstate ((hp.stateless r (.inr hr)).mpr ?_)
          cases hcb' : r.finishCb <;> simp_all [FinishCB.writesMeta, FinishCB.stateless]
        · simp [Mode.settles, hr]
      exact hc.steady rfl hsettling rfl rfl rfl (silent_refl _)
  | _ =>
      first
        | exact hc.steady rfl Iff.rfl rfl rfl rfl (silent_refl _)
        | exact hc.steady rfl Iff.rfl rfl rfl rfl (silent_note _ rfl rfl)

theorem Act.cleaned (h : Act p q) (hq : q.1.cleaned = false) : p.1.cleaned = false := by
  cases h with
  | calm h => exact h.frame.cleaned.symm.trans hq
  | clean _ _ _ => cases hq
  | cancel _ ht => rcases ht with ⟨n, rfl, -⟩ | ⟨rfl, -⟩ <;> exact hq
  | _ => exact hq

theorem cancelled_state {s : EvKQFileMapped} {m : Mode} {serial : Nat} {id : Int}
    {ids : List Int} (hp : Formed (s, m)) (hdropped : m.dropped = some (serial, id :: ids))
    {r : EvAIOReq} (hmem : r ∈ s.aio) (hid : (r.id : Int) = id)
    (hengine : r.engine = s.mainEngine) (hmeta : r.finishCb.writesMeta = true) : False := by
  rcases hp.dropped serial _ hdropped with hserves | hwild
  · obtain ⟨o, ho, hstate, hoid, hoengine⟩ := hserves id mem_cons_self
    have hkey : o.key = r.key := by
      have hids : (o.id : Int) = r.id := hoid.trans hid.symm
      simp only [EvAIOReq.key, hoengine, hengine, Nat.cast_inj.mp hids]
    obtain rfl := inj_on_of_nodup_map hp.keys ho hmem hkey
    have hnone : o.state = none := (hp.stateless o (.inl ho)).mpr <| by
      cases hcb : o.finishCb <;> simp_all [FinishCB.writesMeta, FinishCB.stateless]
    rw [hnone] at hstate
    cases hstate
  · have hthreaded : s.threadedAio = false := by
      by_contra hnot
      exact hp.tame (by simpa using hnot) hwild
    have hthread := hp.metaThread r (.inl hmem) hmeta
    rw [hengine, EvKQFileMapped.mainEngine, hthreaded] at hthread
    cases hthread

theorem mem_cancelAllByFd {s : EvKQFileMapped} {engine : Engine} {fd : Int} {r : EvAIOReq}
    (h : r ∈ (s.cancelAllByFd engine fd).aio) : r ∈ s.aio ∨ r.engine = engine := by
  obtain ⟨o, ho, rfl⟩ := mem_map.mp h
  split
  next hcancel => exact .inr hcancel.2.1
  next => exact .inl ho

theorem mem_closedAio {s : EvKQFileMapped} {r : EvAIOReq} (h : r ∈ s.closedAio) :
    r ∈ s.aio ∨ r.engine = .kq := by
  refine (mem_cancelAllByFd h).elim (fun h => ?_) .inr
  refine (mem_cancelAllByFd h).elim (fun h => ?_) .inr
  exact mem_cancelAllByFd h

theorem Act.uncancelled (h : Act p q) (hp : Formed p) (hkept : Uncancelled p.1) :
    Uncancelled q.1 := by
  intro hcleaned r hmem hmeta
  have hold := hkept (h.cleaned hcleaned)
  have hpush {s : EvKQFileMapped} {o : EvAIOReq} (hfresh : Fresh s o)
      (hold : ∀ r ∈ s.aio, r.finishCb.writesMeta = true → r.cancelled = false)
      (hmem : r ∈ s.aio ++ [o]) : r.cancelled = false := by
    rcases mem_append.mp hmem with hmem | hmem
    · exact hold r hmem hmeta
    · rw [mem_singleton.mp hmem]
      exact hfresh.live
  cases h with
  | calm h =>
      obtain ⟨f, haio, hf⟩ := h.frame.aio
      rw [haio] at hmem
      obtain ⟨o, ho, rfl⟩ := mem_map.mp hmem
      obtain ⟨u, d, done, hsame⟩ := hf o
      rw [hsame] at hmeta ⊢
      exact hold o ho hmeta
  | clean _ _ _ => cases hcleaned
  | closeFiles _ _ _ _ =>
      rcases mem_closedAio hmem with hmem' | hengine
      · exact hold r hmem' hmeta
      · obtain ⟨o, ho, hkin⟩ := (maps_closeFiles _).kin hmem
        have hthread := hp.metaThread o (.inl ho) (hkin.finishCb ▸ hmeta)
        exact Engine.noConfusion (hengine.symm.trans (hkin.engine.trans hthread))
  | abortLoad _ _ hnone =>
      obtain ⟨o, ho, hkin⟩ := (maps_cancelAllByFd _ _ _).kin hmem
      rw [hkin.finishCb, hnone o ho] at hmeta
      cases hmeta
  | cancel hdropped ht =>
      rcases ht with ⟨n, rfl, hn⟩ | ⟨rfl, -⟩
      · obtain ⟨o, ho, rfl⟩ := mem_map.mp hmem
        split at hmeta
        next hkey =>
          simp only [EvAIOReq.key, Prod.mk.injEq] at hkey
          exact (cancelled_state hp hdropped ho (by rw [hkey.2, hn]) hkey.1 hmeta).elim
        next hkey =>
          rw [if_neg hkey]
          exact hold o ho hmeta
      · exact hold r hmem hmeta
  | issue hfresh _ => exact hpush hfresh hold hmem
  | issueRaw hfresh _ _ _ _ _ => exact hpush hfresh hold hmem
  | issueAux hfresh _ _ _ _ _ => exact hpush hfresh hold hmem
  | reissue _ _ hfresh _ _ _ _ _ => exact hpush hfresh hold hmem
  | settle _ _ => exact hold r (mem_filter.mp hmem).1 hmeta
  | reap _ _ => exact hold r (mem_filter.mp hmem).1 hmeta
  | lose _ _ _ => exact hold r (mem_filter.mp hmem).1 hmeta
  | _ => exact hold r hmem hmeta

theorem uncancelled_path (h : Path p q) (hp : Formed p) (hkept : Uncancelled p.1) :
    Uncancelled q.1 := by
  induction h with
  | refl => exact hkept
  | tail hpath hact ih => exact hact.uncancelled (formed_path hpath hp) ih

theorem current_path (h : Path p q) (hp : Formed p) (hcb : cb.writesMeta = true)
    (hkept : Uncancelled p.1) (hc : Current p cb) (hrefused : ¬Refused q.1.log)
    (hcleaned : q.1.cleaned = false) : Current q cb := by
  induction h with
  | refl => exact hc
  | @tail a b hpath hact ih =>
      have hrefused' : ¬Refused a.1.log := fun h => hrefused (h.mono hact.prefix.subset)
      exact hact.current (formed_path hpath hp) hcb hrefused hcleaned
        (uncancelled_path hpath hp hkept) (ih hrefused' (hact.cleaned hcleaned))

end Steps

theorem current_blank (start : Start) (cb : FinishCB) : Current (start.blank, .idle) cb := by
  cases start with
  | _ =>
    refine ⟨fun hbusy => ?_, fun hwait => ?_, fun hsettles => ?_, ?_⟩
    · cases cb <;> cases hbusy
    · cases cb <;> exact absurd rfl hwait
    · cases hsettles
    · cases cb <;> rfl

/-! ## One write at a time -/

/-- A write of a metadata file is issued while no other of that file is in flight. -/
def Serial (cb : FinishCB) (log : List Obs) : Prop :=
  ∀ r others, Obs.issued r others ∈ log → r.finishCb = cb →
    ∀ o ∈ others, o.finishCb ≠ cb

section Serial

variable {p q : Point} {cb : FinishCB} {log : List Obs}

theorem Serial.append (h : Serial cb log) {os : List Obs}
    (hos : ∀ o ∈ os, o.isIssue = false) : Serial cb (log ++ os) := by
  intro r others hr
  rcases mem_append.mp hr with hold | hnew
  · exact h r others hold
  · exact Bool.noConfusion (hos _ hnew)

theorem Serial.note (h : Serial cb log) {o : Obs} (ho : o.isIssue = false) :
    Serial cb (log ++ [o]) :=
  h.append fun o' ho' => by
    rw [mem_singleton.mp ho']
    exact ho

theorem Serial.issue {s : EvKQFileMapped} {r : EvAIOReq} (h : Serial cb s.log)
    (hr : r.finishCb = cb → s.countCb cb = 0) : Serial cb (s.log ++ [.issued r s.aio]) := by
  intro r' others hr' hcb o ho
  rcases mem_append.mp hr' with hold | hnew
  · exact h r' others hold hcb o ho
  · obtain ⟨rfl, rfl⟩ := Obs.issued.inj (mem_singleton.mp hnew)
    have hnone := countP_eq_zero.mp (hr hcb) o ho
    simpa using hnone

theorem Act.serial (h : Act p q) (hp : Formed p) (hcb : cb.writesMeta = true)
    (hs : Serial cb p.1.log) : Serial cb q.1.log := by
  have hfirst {r : EvAIOReq} (hr : r.finishCb = cb) (hoff : p.1.writing r.finishCb = false) :
      p.1.countCb cb = 0 := by
    have hle := hp.single cb hcb
    rw [← hr, hoff, Bool.toNat_false] at hle
    unfold metaCount at hle
    rw [← hr]
    omega
  cases h with
  | calm h =>
      obtain ⟨os, hlog, hos⟩ := h.frame.log
      rw [hlog]
      refine hs.append fun o ho => ?_
      have hframed := hos o ho
      cases o <;> first | rfl | cases hframed
  | cancel _ ht => rcases ht with ⟨n, rfl, -⟩ | ⟨rfl, -⟩ <;> exact hs.note rfl
  | clean _ _ _ => exact hs.note rfl
  | closeFiles _ _ _ _ => exact hs.note rfl
  | abortLoad _ _ _ => exact hs.note rfl
  | issue _ hpurpose _ =>
      refine hs.issue fun hr => ?_
      have hnot := hpurpose.not_meta
      rw [hr, hcb] at hnot
      cases hnot
  | issueRaw _ hraw _ _ _ hoff =>
      refine hs.issue fun hr => hfirst hr ?_
      rw [hraw]
      exact hoff
  | issueAux _ haux _ _ _ hoff =>
      refine hs.issue fun hr => hfirst hr ?_
      rw [haux]
      exact hoff
  | reissue hr hmeta _ hsame _ _ _ _ =>
      refine hs.issue fun ho => ?_
      rw [← ho, hsame]
      exact (hp.alone hr hmeta).1
  | _ => first | exact hs | exact hs.note rfl

theorem serial_path (h : Path p q) (hp : Formed p) (hcb : cb.writesMeta = true)
    (hs : Serial cb p.1.log) : Serial cb q.1.log := by
  induction h with
  | refl => exact hs
  | tail hpath hact ih => exact hact.serial (formed_path hpath hp) hcb ih

end Serial

/-! ## Runs -/

/-- At every time at most one write of the file is in flight. -/
def OneInFlight (s : EvKQFileMapped) (cb : FinishCB) : Prop :=
  s.countCb cb ≤ 1 ∧ Serial cb s.log

/-- Once no write of the file is in flight, the last one carried the last update. -/
def UpToDate (s : EvKQFileMapped) (cb : FinishCB) : Prop :=
  s.cleaned = false → s.countCb cb = 0 →
    lastOf (Obs.issuedOf cb) s.log = lastOf (Obs.askedOf cb) s.log

theorem oneInFlight_of_path {start : Start} {q : Point} {cb : FinishCB}
    (h : Path (start.blank, .idle) q) (hcb : cb.writesMeta = true) : OneInFlight q.1 cb := by
  have hp := formed_path h (formed_blank start)
  refine ⟨?_, serial_path h (formed_blank start) hcb ?_⟩
  · have hle := hp.single cb hcb
    have hbool : (q.1.writing cb).toNat ≤ 1 := Bool.toNat_le _
    unfold metaCount at hle
    omega
  · cases start <;> exact fun _ _ h => absurd h not_mem_nil

/-- **Coalesced updates are not lost.**  In every run whose metadata writes were all
taken by the pool of threads, at most one write of each metadata file is in flight at any
time, and between two events at which none is, the last one issued carried the update
that was asked for last. -/
theorem metadata_updates_coalesce (env : Nat → Answer) (depth : Nat) (start : Start)
    (evs : List Event) (h : ¬Refused (runFrom env depth start evs).state.log) (cb : FinishCB)
    (hcb : cb.writesMeta = true) :
    Runs.Holds (fun s => OneInFlight s cb ∧ UpToDate s cb) (fun _ s => OneInFlight s cb)
      (runFrom env depth start evs) := by
  have hrun := run_path env depth start evs
  unfold Runs.Holds at hrun ⊢
  split at hrun
  next =>
    refine ⟨oneInFlight_of_path hrun hcb, fun hcleaned hcount => ?_⟩
    have hkept : Uncancelled start.blank := by
      cases start <;> exact fun _ _ h => absurd h not_mem_nil
    have hc := current_path hrun (formed_blank start) hcb hkept (current_blank start cb) h hcleaned
    have hidle : metaCount ((runFrom env depth start evs).state, Mode.idle) cb = 0 := by
      simp [metaCount, hcount, Mode.idle]
    have hoff : (runFrom env depth start evs).state.writing cb = false := by
      by_contra hon
      have hbusy := hc.busy (by simpa using hon)
      omega
    have hlast := hc.last
    rw [inHand_of_none rfl, hc.unawaited hoff, Option.none_or, Option.none_or] at hlast
    exact hlast.symm
  next =>
    obtain ⟨m, hpath, -⟩ := hrun
    exact oneInFlight_of_path hpath hcb

/-- Pages of ten bytes and an auxiliary metadata file. -/
def tenBytePages : EvKQFileMappedConf where
  pathMetaAux := true
  pageSz := 10
  pageSz_pos := by decide

/-- The queues have room, and every request gets a slot of its own. -/
def freshSlots (n : Nat) : Answer := { slot := n }

def racingUpdates : Config :=
  runFrom freshSlots 1 (.init tenBytePages true)
    [.user (.metaAuxWrite (some [1])), .user (.metaAuxWrite (some [2])),
      .user (.metaAuxWrite (some [3])), .jobFinish 1 {}, .jobFinish 2 {}]

theorem racing_updates_coalesce :
    ¬Refused racingUpdates.state.log ∧
      lastOf (Obs.issuedOf .writeMetaAuxData) racingUpdates.state.log = some (.aux [3]) := by
  have hrefused : ¬Refused racingUpdates.state.log := by decide
  have hholds := metadata_updates_coalesce freshSlots 1 (.init tenBytePages true) _ hrefused
    .writeMetaAuxData rfl
  have hlive : racingUpdates.fault = none := rfl
  have hlast : UpToDate racingUpdates.state .writeMetaAuxData := (hholds.of_live hlive).2
  exact ⟨hrefused, (hlast rfl rfl).trans rfl⟩

end FileMapped
