import Mathlib.Data.List.Nodup
import BrbFramework.FileMapped.Acts

/-!
# The invariant of every path

What one act does to the requests in flight, to the log and to the AIO states is
said here once. From that comes `Formed`, the invariant that holds at every point
of every path: the keys of the requests differ, at most one write of each metadata
file is under way, and every slot of a pending list is open or counted as finished.
-/

namespace FileMapped

open Relation BrbData Machine List EvKQFileMapped

/-! ## Requests in flight across an act -/

/-- `q` is the request `r` with other flags, and is cancelled if `r` is. -/
def Kin (q r : EvAIOReq) : Prop :=
  ∃ c u d p, q = { r with cancelled := c, queued := u, delayedNotify := d, performed := p } ∧
    (r.cancelled = true → c = true)

/-- `f` changes only flags of requests. -/
def Flags (f : EvAIOReq → EvAIOReq) : Prop := ∀ r, Kin (f r) r

section Kin

variable {q r : EvAIOReq}

theorem Kin.refl (r : EvAIOReq) : Kin r r :=
  ⟨r.cancelled, r.queued, r.delayedNotify, r.performed, rfl, id⟩

theorem Kin.trans {o : EvAIOReq} (h : Kin o q) (h' : Kin q r) : Kin o r := by
  obtain ⟨c, u, d, p, rfl, hc⟩ := h
  obtain ⟨c', u', d', p', rfl, hc'⟩ := h'
  exact ⟨c, u, d, p, rfl, fun hr => hc (hc' hr)⟩

theorem Kin.key (h : Kin q r) : q.key = r.key := by
  obtain ⟨c, u, d, p, rfl, -⟩ := h
  rfl

theorem Kin.engine (h : Kin q r) : q.engine = r.engine := by
  obtain ⟨c, u, d, p, rfl, -⟩ := h
  rfl

theorem Kin.state (h : Kin q r) : q.state = r.state := by
  obtain ⟨c, u, d, p, rfl, -⟩ := h
  rfl

theorem Kin.finishCb (h : Kin q r) : q.finishCb = r.finishCb := by
  obtain ⟨c, u, d, p, rfl, -⟩ := h
  rfl

end Kin

/-- The number of requests in flight with this finish callback. -/
def EvKQFileMapped.countCb (s : EvKQFileMapped) (cb : FinishCB) : Nat :=
  s.aio.countP fun r => r.finishCb == cb

/-- The requests in flight stay, up to their flags. -/
def Maps (s t : EvKQFileMapped) : Prop := ∃ f, Flags f ∧ t.aio = s.aio.map f

section Maps

variable {s t u : EvKQFileMapped}

theorem Maps.of_eq (h : t.aio = s.aio) : Maps s t :=
  ⟨id, fun r => .refl r, by rw [h, map_id]⟩

theorem Maps.trans (h : Maps s t) (h' : Maps t u) : Maps s u := by
  obtain ⟨f, hf, ht⟩ := h
  obtain ⟨g, hg, hu⟩ := h'
  exact ⟨g ∘ f, fun r => (hg (f r)).trans (hf r), by rw [hu, ht, List.map_map]⟩

theorem Maps.kin (h : Maps s t) {q : EvAIOReq} (hq : q ∈ t.aio) : ∃ r ∈ s.aio, Kin q r := by
  obtain ⟨f, hf, ht⟩ := h
  rw [ht] at hq
  obtain ⟨r, hr, rfl⟩ := mem_map.mp hq
  exact ⟨r, hr, hf r⟩

theorem Maps.kept (h : Maps s t) {r : EvAIOReq} (hr : r ∈ s.aio) : ∃ q ∈ t.aio, Kin q r := by
  obtain ⟨f, hf, ht⟩ := h
  exact ⟨f r, ht ▸ mem_map_of_mem hr, hf r⟩

theorem Maps.keys (h : Maps s t) : t.aio.map EvAIOReq.key = s.aio.map EvAIOReq.key := by
  obtain ⟨f, hf, ht⟩ := h
  rw [ht, List.map_map]
  exact map_congr_left fun r _ => (hf r).key

theorem Maps.countCb (h : Maps s t) (cb : FinishCB) : t.countCb cb = s.countCb cb := by
  obtain ⟨f, hf, ht⟩ := h
  have hcb : ((fun r : EvAIOReq => r.finishCb == cb) ∘ f) = fun r => r.finishCb == cb :=
    funext fun r => congrArg (· == cb) (hf r).finishCb
  unfold EvKQFileMapped.countCb
  rw [ht, countP_map, hcb]

theorem flags_ite {c : EvAIOReq → Prop} [DecidablePred c] {g : EvAIOReq → EvAIOReq}
    (hg : Flags g) : Flags fun r => if c r then g r else r := by
  intro r
  by_cases h : c r
  · simpa only [h, if_true] using hg r
  · simpa only [h, if_false] using Kin.refl r

theorem flags_cancel : Flags fun r => { r with cancelled := true } :=
  fun r => ⟨true, r.queued, r.delayedNotify, r.performed, rfl, fun _ => rfl⟩

theorem maps_cancelAllByFd (s : EvKQFileMapped) (engine : Engine) (fd : Int) :
    Maps s (s.cancelAllByFd engine fd) :=
  ⟨_, flags_ite flags_cancel, rfl⟩

theorem maps_cancelReq (s : EvKQFileMapped) (engine : Engine) (id : Nat) :
    Maps s (s.cancelReq engine id) :=
  ⟨_, flags_ite flags_cancel, rfl⟩

theorem maps_closedAio (s : EvKQFileMapped) : Maps s { s with aio := s.closedAio } := by
  have h₁ := maps_cancelAllByFd s .kq s.fdAux
  have h₂ := h₁.trans (maps_cancelAllByFd _ .kq s.metaFd)
  have h₃ := h₂.trans (maps_cancelAllByFd _ .kq s.dataFd)
  exact h₃.trans (.of_eq rfl)

theorem maps_cancelledAio (s : EvKQFileMapped) : Maps s { s with aio := s.cancelledAio } := by
  unfold cancelledAio
  split
  · have h₁ := maps_cancelAllByFd s .thread s.fdAux
    have h₂ := h₁.trans (maps_cancelAllByFd _ .thread s.metaFd)
    have h₃ := h₂.trans (maps_cancelAllByFd _ .thread s.dataFd)
    exact h₃.trans (.of_eq rfl)
  · exact .of_eq rfl

theorem maps_closeFiles (s : EvKQFileMapped) : Maps s s.closeFiles :=
  (maps_closedAio s).trans (.of_eq rfl)

theorem maps_internalClean (s : EvKQFileMapped) : Maps s s.internalClean :=
  ((maps_cancelledAio s).trans (maps_closedAio _)).trans (.of_eq rfl)

end Maps

/-! ## Frames -/

def Obs.framed (threaded : Bool) : Obs → Bool
  | .stored .. | .dropped .. => true
  | .lost _ => !threaded
  | o => o.calm

theorem Obs.framed_of_calm {o : Obs} {threaded : Bool} (h : o.calm = true) :
    o.framed threaded = true := by
  cases o <;> first | rfl | exact h | cases h

structure Frame (s t : EvKQFileMapped) : Prop where
  refCount : t.refCount = s.refCount
  states : t.aioStateList = s.aioStateList
  nextState : t.nextState = s.nextState
  lastMbRaw : t.lastMbRaw = s.lastMbRaw
  lastMbAux : t.lastMbAux = s.lastMbAux
  threadedAio : t.threadedAio = s.threadedAio
  opened : t.opened = s.opened
  closeRequest : t.closeRequest = s.closeRequest
  metaRawWriting : t.metaRawWriting = s.metaRawWriting
  metaAuxWriting : t.metaAuxWriting = s.metaAuxWriting
  metaAuxNeedUpdate : t.metaAuxNeedUpdate = s.metaAuxNeedUpdate
  byLoad : t.byLoad = s.byLoad
  userLocks : t.userLocks = s.userLocks
  held : t.held = s.held
  closeWanted : t.closeWanted = s.closeWanted
  cleaned : t.cleaned = s.cleaned
  wants : t.wantsComplete = true → s.wantsComplete = true ∨ Called (·.completes) s.log
  aio : ∃ f, t.aio = s.aio.map f ∧ ∀ r, ∃ u d p,
    f r = { r with queued := u, delayedNotify := d, performed := p }
  log : ∃ os, t.log = s.log ++ os ∧ ∀ o ∈ os, o.framed s.threadedAio = true

theorem Frame.aio_refl (s : EvKQFileMapped) : ∃ f, s.aio = s.aio.map f ∧ ∀ r : EvAIOReq,
    ∃ u d p, f r = { r with queued := u, delayedNotify := d, performed := p } :=
  ⟨id, (map_id _).symm, fun r => ⟨r.queued, r.delayedNotify, r.performed, rfl⟩⟩

theorem Frame.log_refl (s : EvKQFileMapped) :
    ∃ os, s.log = s.log ++ os ∧ ∀ o ∈ os, o.framed s.threadedAio = true :=
  ⟨[], (append_nil _).symm, by simp⟩

theorem Calm.frame {m : Mode} {s t : EvKQFileMapped} (h : Calm m s t) : Frame s t := by
  have haio := Frame.aio_refl s
  have hlog := Frame.log_refl s
  have hwants : s.wantsComplete = true → s.wantsComplete = true ∨ Called (·.completes) s.log :=
    .inl
  have hnote (o : Obs) (ho : o.framed s.threadedAio = true) :
      ∃ os, s.log ++ [o] = s.log ++ os ∧ ∀ o ∈ os, o.framed s.threadedAio = true :=
    ⟨[o], rfl, by simpa using ho⟩
  cases h with
  | wants b hb => exact ⟨rfl, rfl, rfl, rfl, rfl, rfl, rfl, rfl, rfl, rfl, rfl, rfl, rfl, rfl,
      rfl, rfl, fun h => .inr (hb h), haio, hlog⟩
  | note o ho => exact ⟨rfl, rfl, rfl, rfl, rfl, rfl, rfl, rfl, rfl, rfl, rfl, rfl, rfl, rfl,
      rfl, rfl, hwants, haio, hnote o (Obs.framed_of_calm ho)⟩
  | spend r hr _ => exact ⟨rfl, rfl, rfl, rfl, rfl, rfl, rfl, rfl, rfl, rfl, rfl, rfl, rfl, rfl,
      rfl, rfl, hwants, haio, hnote (.lost r) (by simp [Obs.framed, hr])⟩
  | tweak f hf =>
      refine ⟨rfl, rfl, rfl, rfl, rfl, rfl, rfl, rfl, rfl, rfl, rfl, rfl, rfl, rfl, rfl, rfl,
        hwants, ⟨f, rfl, fun r => ?_⟩, hlog⟩
      obtain ⟨u, d, hr⟩ := hf r
      exact ⟨u, d, r.performed, hr⟩
  | perform garbage hmem hnot =>
      refine ⟨rfl, rfl, rfl, rfl, rfl, rfl, rfl, rfl, rfl, rfl, rfl, rfl, rfl, rfl, rfl, rfl,
        hwants, ⟨_, rfl, fun r => ?_⟩, hlog⟩
      simp only
      split
      · exact ⟨r.queued, r.delayedNotify, true, rfl⟩
      · exact ⟨r.queued, r.delayedNotify, r.performed, rfl⟩
  | store hp hidx hslice hfit hne hplace =>
      exact ⟨rfl, rfl, rfl, rfl, rfl, rfl, rfl, rfl, rfl, rfl, rfl, rfl, rfl, rfl, rfl, rfl,
        hwants, haio, hnote _ rfl⟩
  | drop hp hr hmarks =>
      exact ⟨rfl, rfl, rfl, rfl, rfl, rfl, rfl, rfl, rfl, rfl, rfl, rfl, rfl, rfl, rfl, rfl,
        hwants, haio, hnote _ rfl⟩
  | _ => exact ⟨rfl, rfl, rfl, rfl, rfl, rfl, rfl, rfl, rfl, rfl, rfl, rfl, rfl, rfl, rfl, rfl,
      hwants, haio, hlog⟩

section Frame

variable {s t : EvKQFileMapped} {m : Mode}

theorem Frame.maps (h : Frame s t) : Maps s t := by
  obtain ⟨f, haio, hf⟩ := h.aio
  refine ⟨f, fun r => ?_, haio⟩
  obtain ⟨u, d, p, hr⟩ := hf r
  exact ⟨r.cancelled, u, d, p, hr, id⟩

theorem Frame.prefix (h : Frame s t) : s.log <+: t.log := by
  obtain ⟨os, hlog, -⟩ := h.log
  exact ⟨os, hlog.symm⟩

theorem Frame.not_mem (h : Frame s t) {o : Obs} (ho : o.framed s.threadedAio = false)
    (hmem : o ∈ t.log) : o ∈ s.log := by
  obtain ⟨os, hlog, hos⟩ := h.log
  rw [hlog] at hmem
  rcases mem_append.mp hmem with hold | hnew
  · exact hold
  · have := hos o hnew
    rw [ho] at this
    cases this

structure Issues (s t : EvKQFileMapped) (r : EvAIOReq) : Prop where
  aio : t.aio = s.aio ++ [r]
  fresh : Fresh s r
  metaThread : r.finishCb.writesMeta = true → r.engine = .thread
  load : r.finishCb = .readMetaData ∨ r.finishCb = .readMetaAuxData → s.byLoad = true

theorem Purpose.not_meta {r : EvAIOReq} (h : Purpose s r) : r.finishCb.writesMeta = false := by
  rcases h with ⟨hcb⟩ | ⟨hcb⟩ | ⟨hcb⟩ | ⟨hcb | hcb⟩ <;> simp [hcb, FinishCB.writesMeta]

theorem Purpose.byLoad {r : EvAIOReq} (h : Purpose s r)
    (hcb : r.finishCb = .readMetaData ∨ r.finishCb = .readMetaAuxData) : s.byLoad = true := by
  rcases h with ⟨h⟩ | ⟨h⟩ | h | ⟨-, h⟩
  · simp [h] at hcb
  · simp [h] at hcb
  · simp [h] at hcb
  · exact h

inductive Moves (p q : Point) : Prop
  | maps (h : Maps p.1 q.1)
  | leaves (r : EvAIOReq) (hmem : r ∈ p.1.aio) (h : q.1.aio = (p.1.unqueue r).aio)
      (hp : p.2 = .idle) (hq : q.2 = .idle ∨ q.2 = { Mode.calls 1 with settling := some r })
  | issues (r : EvAIOReq) (h : Issues p.1 q.1 r)

theorem Act.moves {p q : Point} (h : Act p q) : Moves p q := by
  cases h with
  | calm h => exact .maps h.frame.maps
  | clean _ _ _ => exact .maps (maps_internalClean _)
  | closeFiles _ _ _ _ => exact .maps (maps_closeFiles _)
  | settle hmem _ => exact .leaves _ hmem rfl rfl (.inr rfl)
  | reap hmem _ => exact .leaves _ hmem rfl rfl (.inl rfl)
  | lose hmem _ _ => exact .leaves _ hmem rfl rfl (.inl rfl)
  | cancel _ ht =>
      rcases ht with ⟨n, rfl, -⟩ | ⟨rfl, -⟩
      · exact .maps ((maps_cancelReq _ _ _).trans (.of_eq rfl))
      · exact .maps (.of_eq rfl)
  | abortLoad _ _ _ => exact .maps ((maps_cancelAllByFd _ _ _).trans (.of_eq rfl))
  | issue hfresh hpurpose _ =>
      exact .issues _ ⟨rfl, hfresh, by simp [hpurpose.not_meta], hpurpose.byLoad⟩
  | issueRaw hfresh hcb hengine _ _ _ =>
      exact .issues _ ⟨rfl, hfresh, fun _ => hengine, by simp [hcb]⟩
  | issueAux hfresh hcb hengine _ _ _ =>
      exact .issues _ ⟨rfl, hfresh, fun _ => hengine, by simp [hcb]⟩
  | reissue _ hcb hfresh hsame hengine _ _ _ =>
      refine .issues _ ⟨rfl, hfresh, fun _ => hengine, fun hload => ?_⟩
      rw [hsame] at hload
      rcases hload with hload | hload <;> simp [hload, FinishCB.writesMeta] at hcb
  | _ => exact .maps (.of_eq rfl)

theorem internalClean_log (s : EvKQFileMapped) :
    s.internalClean.log = s.log ++ [.cleaned s.aio] := rfl

theorem closeFiles_log (s : EvKQFileMapped) :
    s.closeFiles.log = s.log ++ [.closed s.userLocks s.aio] := rfl

theorem Act.prefix {p q : Point} (h : Act p q) : p.1.log <+: q.1.log := by
  have happend (l : List Obs) (o : Obs) : l <+: l ++ [o] := ⟨[o], rfl⟩
  cases h with
  | calm h => exact h.frame.prefix
  | cancel _ ht => rcases ht with ⟨n, rfl, -⟩ | ⟨rfl, -⟩ <;> exact happend _ _
  | clean _ _ _ => exact ⟨_, (internalClean_log _).symm⟩
  | closeFiles _ _ _ _ => exact ⟨_, (closeFiles_log _).symm⟩
  | _ => first | exact prefix_refl _ | exact happend _ _

theorem path_log {p q : Point} (h : Path p q) : p.1.log <+: q.1.log := by
  induction h with
  | refl => exact prefix_refl _
  | tail _ hact ih => exact ih.trans hact.prefix

theorem Act.const {p q : Point} (h : Act p q) :
    q.1.threadedAio = p.1.threadedAio ∧ q.1.byLoad = p.1.byLoad := by
  cases h with
  | calm h => exact ⟨h.frame.threadedAio, h.frame.byLoad⟩
  | cancel _ ht => rcases ht with ⟨n, rfl, -⟩ | ⟨rfl, -⟩ <;> exact ⟨rfl, rfl⟩
  | _ => exact ⟨rfl, rfl⟩

end Frame

/-! ## Pending lists -/

namespace EvKQFileMappedAIOState

variable {st : EvKQFileMappedAIOState} {id : Int} {error : Bool}

theorem hasOpen_iff : st.hasOpen id = true ↔ id ∈ st.openIds := by
  simp [hasOpen]

@[simp] theorem add_openIds (h : 0 ≤ id) : (st.add id).openIds = st.openIds ++ [id] := by
  simp [openIds, add, h]

theorem resetReq_length (l : List PendingReq) : (resetReq id error l).length = l.length := by
  induction l with
  | nil => rfl
  | cons p l ih =>
      unfold resetReq
      split
      · rfl
      · simp [ih]

theorem markDone_openIds (h : 0 ≤ id) :
    (markDone id error st).openIds = st.openIds.erase id := by
  unfold markDone openIds
  simp only
  induction st.pendingReq with
  | nil => rfl
  | cons p l ih =>
      unfold resetReq
      by_cases hp : p.id = id
      · subst hp
        simp [h]
      · rw [if_neg hp]
        by_cases hpos : 0 ≤ p.id
        · simp only [map_cons, hpos, decide_true, filter_cons_of_pos, ih]
          rw [erase_cons_tail (by simpa using hp)]
        · simp only [map_cons, hpos, decide_false, Bool.false_eq_true, not_false_eq_true,
            filter_cons_of_neg, ih]

def Counts (st : EvKQFileMappedAIOState) : Prop :=
  st.openIds.length + st.reqCountFinished = st.pendingReq.length

theorem Counts.add (h : st.Counts) (hid : 0 ≤ id) : (st.add id).Counts := by
  have hlen : (st.add id).pendingReq.length = st.pendingReq.length + 1 := by
    simp [EvKQFileMappedAIOState.add]
  have hfin : (st.add id).reqCountFinished = st.reqCountFinished := rfl
  unfold Counts at h ⊢
  rw [add_openIds hid, hlen, hfin, length_append, length_singleton]
  omega

theorem Counts.markDone (h : st.Counts) (hid : 0 ≤ id) (hopen : id ∈ st.openIds) :
    (markDone id error st).Counts := by
  have hlen : (FileMapped.markDone id error st).pendingReq.length = st.pendingReq.length :=
    resetReq_length _
  have hfin : (FileMapped.markDone id error st).reqCountFinished = st.reqCountFinished + 1 := rfl
  have hpos := length_pos_of_mem hopen
  unfold Counts at h ⊢
  rw [markDone_openIds hid, length_erase_of_mem hopen, hlen, hfin]
  omega

end EvKQFileMappedAIOState

/-! ## The invariant of every path -/

/-- The request is in flight, or its finish callback has begun. -/
def Known (p : Point) (r : EvAIOReq) : Prop := r ∈ p.1.aio ∨ p.2.settling = some r

/-- The flag that a write of this metadata file is under way. -/
def EvKQFileMapped.writing (s : EvKQFileMapped) : FinishCB → Bool
  | .writeMetaRawData => s.metaRawWriting
  | .writeMetaAuxData => s.metaAuxWriting
  | _ => false

/-- The writes of a metadata file in flight, and the one whose finish callback has
begun. -/
def metaCount (p : Point) (cb : FinishCB) : Nat :=
  p.1.countCb cb + if p.2.settling.map (·.finishCb) = some cb then 1 else 0

structure Formed (p : Point) : Prop where
  keys : (p.1.aio.map EvAIOReq.key).Nodup
  held : p.1.held = p.2.held
  threaded : p.1.threadedAio = true → ∀ r, Known p r → r.engine = .thread
  tame : p.1.threadedAio = true → ¬Wild p.1.log
  stateless : ∀ r, Known p r → (r.state = none ↔ r.finishCb.stateless = true)
  metaThread : ∀ r, Known p r → r.finishCb.writesMeta = true → r.engine = .thread
  load : ∀ r, Known p r → r.finishCb = .readMetaData ∨ r.finishCb = .readMetaAuxData →
    p.1.byLoad = true
  wants : p.1.wantsComplete = true → Called (·.completes) p.1.log
  single : ∀ cb, cb.writesMeta = true → metaCount p cb ≤ (p.1.writing cb).toNat
  needUpdate : p.1.metaAuxNeedUpdate = true →
    p.1.metaAuxWriting = false ∧ (p.2.AsksAux ∨ Refused p.1.log)
  serials : (p.1.aioStateList.map (·.serial)).Nodup
  serialsLt : ∀ st ∈ p.1.aioStateList, st.serial < p.1.nextState
  counts : ∀ st ∈ p.1.aioStateList, st.Counts
  pages : ∀ page ∈ p.1.partialMbList, int32 page.userInt = page.userInt
  dropped : ∀ serial ids, p.2.dropped = some (serial, ids) →
    (∀ id ∈ ids, ∃ r ∈ p.1.aio, p.1.Serves serial id r) ∨ Wild p.1.log

theorem formed_blank (start : Start) : Formed (start.blank, .idle) := by
  cases start with
  | _ =>
    exact {
      keys := nodup_nil
      held := rfl
      threaded := by simp [Known, Start.blank, Mode.idle]
      tame := by simp [Wild, Start.blank]
      stateless := by simp [Known, Start.blank, Mode.idle]
      metaThread := by simp [Known, Start.blank, Mode.idle]
      load := by simp [Known, Start.blank, Mode.idle]
      wants := by simp [Start.blank]
      single := by simp [metaCount, countCb, Start.blank, Mode.idle]
      needUpdate := by simp [Start.blank]
      serials := nodup_nil
      serialsLt := by simp [Start.blank]
      counts := by simp [Start.blank]
      pages := by simp [Start.blank]
      dropped := by simp [Mode.idle] }

section Formed

variable {p q : Point}

theorem Act.settling (h : Act p q) {r : EvAIOReq} (hr : q.2.settling = some r) :
    p.2.settling = some r ∨ r ∈ p.1.aio := by
  cases h with
  | settle hmem _ =>
      obtain rfl : _ = r := by simpa using hr
      exact .inr hmem
  | issue hfresh hpurpose _ =>
      refine .inl ?_
      simp only [Mode.issue] at hr
      split at hr <;> exact hr
  | _ => first | exact .inl hr | cases hr

theorem Act.known (h : Act p q) {r : EvAIOReq} (hr : Known q r) :
    (∃ r', Known p r' ∧ Kin r r') ∨ Issues p.1 q.1 r := by
  rcases hr with hr | hr
  · rcases h.moves with hmaps | ⟨r', hmem, haio, -, -⟩ | ⟨r', hissues⟩
    · obtain ⟨r', hmem, hkin⟩ := hmaps.kin hr
      exact .inl ⟨r', .inl hmem, hkin⟩
    · rw [haio] at hr
      exact .inl ⟨r, .inl (mem_filter.mp hr).1, .refl r⟩
    · rw [hissues.aio] at hr
      rcases mem_append.mp hr with hold | hnew
      · exact .inl ⟨r, .inl hold, .refl r⟩
      · obtain rfl := mem_singleton.mp hnew
        exact .inr hissues
  · rcases h.settling hr with hold | hmem
    · exact .inl ⟨r, .inr hold, .refl r⟩
    · exact .inl ⟨r, .inl hmem, .refl r⟩

theorem Act.wild (h : Act p q) (hp : Formed p) (hthreaded : p.1.threadedAio = true) :
    ¬Wild q.1.log := by
  have htame := hp.tame hthreaded
  have hnote {o : Obs} (hfailed : ∀ r, o ≠ .failedNotified r) (hlost : ∀ r, o ≠ .lost r) :
      ¬Wild (p.1.log ++ [o]) := by
    rintro ⟨r, hr | hr⟩
    · rcases mem_append.mp hr with hold | hnew
      · exact htame ⟨r, .inl hold⟩
      · exact hfailed r (mem_singleton.mp hnew).symm
    · rcases mem_append.mp hr with hold | hnew
      · exact htame ⟨r, .inr hold⟩
      · exact hlost r (mem_singleton.mp hnew).symm
  cases h with
  | calm h =>
      rintro ⟨r, hr | hr⟩
      · exact htame ⟨r, .inl (h.frame.not_mem rfl hr)⟩
      · exact htame ⟨r, .inr (h.frame.not_mem (by simpa [Obs.framed] using hthreaded) hr)⟩
  | notified h => exact absurd hthreaded (by simp [h])
  | lose hmem _ hengine =>
      exact absurd (hp.threaded hthreaded _ (.inl hmem)) (by simp [hengine])
  | cancel _ ht =>
      rcases ht with ⟨n, rfl, -⟩ | ⟨rfl, -⟩ <;> exact hnote (by simp) (by simp)
  | clean _ _ _ => exact hnote (by simp) (by simp)
  | closeFiles _ _ _ _ => exact hnote (by simp) (by simp)
  | _ => first | exact htame | exact hnote (by simp) (by simp)

theorem Act.keys (h : Act p q) (hp : Formed p) : (q.1.aio.map EvAIOReq.key).Nodup := by
  rcases h.moves with hmaps | ⟨r, hmem, haio, -, -⟩ | ⟨r, hissues⟩
  · exact hmaps.keys ▸ hp.keys
  · rw [haio]
    exact hp.keys.sublist (filter_sublist.map _)
  · rw [hissues.aio, map_append]
    refine nodup_append'.mpr ⟨hp.keys, nodup_singleton _, ?_⟩
    simp only [disjoint_left, mem_map, map_cons, map_nil,
      mem_singleton, forall_exists_index, and_imp]
    rintro k o ho rfl hkey
    exact hissues.fresh.key o ho hkey

theorem Act.held (h : Act p q) (hp : Formed p) : q.1.held = q.2.held := by
  have hheld := hp.held
  cases h with
  | calm h => exact h.frame.held.trans hheld
  | back who _ _ _ =>
      simp only [giveBack, Mode.back]
      split
      · exact hheld
      · exact congrArg (· - 1) hheld
  | settle _ _ => simpa [EvKQFileMapped.enter, EvKQFileMapped.unqueue, EvKQFileMapped.note,
      Mode.calls, Mode.idle] using hheld
  | notified _ => exact congrArg (· + 1) hheld
  | cancel _ ht => rcases ht with ⟨n, rfl, -⟩ | ⟨rfl, -⟩ <;> exact congrArg (· + 1) hheld
  | reissue _ _ _ _ _ _ _ _ => exact congrArg (· - 1) hheld
  | refuseAgain _ _ => exact congrArg (· - 1) hheld
  | issue _ _ _ =>
      simp only [Mode.issue]
      split <;> exact hheld
  | _ => exact hheld

theorem Act.wants (h : Act p q) (hp : Formed p) (hwants : q.1.wantsComplete = true) :
    Called (·.completes) q.1.log := by
  suffices hlog : Called (·.completes) p.1.log from hlog.mono h.prefix.subset
  cases h with
  | calm h => exact (h.frame.wants hwants).elim hp.wants id
  | cancel _ ht => rcases ht with ⟨n, rfl, -⟩ | ⟨rfl, -⟩ <;> exact hp.wants hwants
  | _ => exact hp.wants hwants

theorem perm_unqueue {s : EvKQFileMapped} {r : EvAIOReq} (hkeys : (s.aio.map EvAIOReq.key).Nodup)
    (hmem : r ∈ s.aio) : s.aio.Perm (r :: (s.unqueue r).aio) := by
  simp only [unqueue]
  induction hl : s.aio generalizing s with
  | nil => simp [hl] at hmem
  | cons a l ih =>
      rw [hl] at hkeys hmem
      obtain ⟨hnot, hnodup⟩ := nodup_cons.mp hkeys
      rcases mem_cons.mp hmem with rfl | hold
      · have hkeep : l.filter (fun q => q.key != r.key) = l := by
          refine filter_eq_self.mpr fun q hq => ?_
          have hne : q.key ≠ r.key := fun he => hnot (he ▸ mem_map_of_mem hq)
          simpa using hne
        rw [filter_cons_of_neg (by simp), hkeep]
      · have hne : a.key ≠ r.key := fun he => hnot (he ▸ mem_map_of_mem hold)
        rw [filter_cons_of_pos (by simpa using hne)]
        have hrest := ih (s := { s with aio := l }) hnodup hold rfl
        exact (hrest.cons a).trans (.swap r a _)

theorem countCb_unqueue {s : EvKQFileMapped} {r : EvAIOReq} {cb : FinishCB}
    (hkeys : (s.aio.map EvAIOReq.key).Nodup) (hmem : r ∈ s.aio) :
    s.countCb cb = (s.unqueue r).countCb cb + if r.finishCb = cb then 1 else 0 := by
  unfold countCb
  rw [(perm_unqueue hkeys hmem).countP_eq, countP_cons]
  simp

theorem countCb_append {s t : EvKQFileMapped} {r : EvAIOReq} (h : t.aio = s.aio ++ [r])
    (cb : FinishCB) : t.countCb cb = s.countCb cb + if r.finishCb = cb then 1 else 0 := by
  unfold countCb
  rw [h, countP_append, countP_singleton]
  simp

theorem Formed.alone (hp : Formed p) {r : EvAIOReq} (hr : p.2.settling = some r)
    (hcb : r.finishCb.writesMeta = true) :
    p.1.countCb r.finishCb = 0 ∧ p.1.writing r.finishCb = true := by
  have hle := hp.single r.finishCb hcb
  simp only [metaCount, hr, Option.map_some, if_true] at hle
  cases hwriting : p.1.writing r.finishCb with
  | false =>
      rw [hwriting, Bool.toNat_false] at hle
      omega
  | true =>
      rw [hwriting, Bool.toNat_true] at hle
      exact ⟨by omega, rfl⟩

theorem single_keep {s t : EvKQFileMapped} {m n : Mode} {cb : FinishCB}
    (h : metaCount (s, m) cb ≤ (s.writing cb).toNat) (hcount : t.countCb cb ≤ s.countCb cb)
    (hraw : t.metaRawWriting = s.metaRawWriting) (haux : t.metaAuxWriting = s.metaAuxWriting)
    (hn : n.settling = m.settling ∨ n.settling = none) :
    metaCount (t, n) cb ≤ (t.writing cb).toNat := by
  have hwriting : t.writing cb = s.writing cb := by
    unfold writing
    rw [hraw, haux]
  rw [hwriting]
  unfold metaCount at h ⊢
  rcases hn with hn | hn
  · simp only [hn] at h ⊢
    omega
  · simp only [hn, Option.map_none, reduceCtorEq, if_false] at h ⊢
    omega

theorem single_issue {s t : EvKQFileMapped} {m n : Mode} {cb : FinishCB} {r : EvAIOReq}
    (h : metaCount (s, m) cb ≤ (s.writing cb).toNat) (haio : t.aio = s.aio ++ [r])
    (hn : n.settling = m.settling)
    (hother : r.finishCb ≠ cb → t.writing cb = s.writing cb)
    (hsame : r.finishCb = cb → s.writing cb = false ∧ t.writing cb = true) :
    metaCount (t, n) cb ≤ (t.writing cb).toNat := by
  have hcount := countCb_append haio cb
  unfold metaCount at h ⊢
  simp only [hn, hcount] at h ⊢
  by_cases hcb : r.finishCb = cb
  · obtain ⟨hoff, hon⟩ := hsame hcb
    rw [hoff, Bool.toNat_false] at h
    rw [hon, Bool.toNat_true, if_pos hcb]
    omega
  · rw [hother hcb, if_neg hcb]
    omega

theorem Act.single (h : Act p q) (hp : Formed p) (cb : FinishCB) (hcb : cb.writesMeta = true) :
    metaCount q cb ≤ (q.1.writing cb).toNat := by
  have hold := hp.single cb hcb
  have hunqueue {s : EvKQFileMapped} {r : EvAIOReq} (hkeys : (s.aio.map EvAIOReq.key).Nodup)
      (hmem : r ∈ s.aio) : (s.unqueue r).countCb cb ≤ s.countCb cb := by
    rw [countCb_unqueue hkeys hmem]
    exact Nat.le_add_right _ _
  cases h with
  | calm h =>
      exact single_keep hold (h.frame.maps.countCb cb).le h.frame.metaRawWriting
        h.frame.metaAuxWriting (.inl rfl)
  | clean _ _ _ =>
      exact single_keep hold ((maps_internalClean _).countCb cb).le rfl rfl (.inl rfl)
  | closeFiles _ _ _ _ =>
      exact single_keep hold ((maps_closeFiles _).countCb cb).le rfl rfl (.inl rfl)
  | settle hmem _ =>
      have hcount := @countCb_unqueue _ _ cb hp.keys hmem
      simp only [metaCount, Mode.idle, Option.map_none, reduceCtorEq, if_false] at hold
      simp only [metaCount, Option.map_some, Option.some.injEq]
      calc _ = _ := hcount.symm
        _ ≤ _ := hold
  | reap hmem _ => exact single_keep hold (hunqueue hp.keys hmem) rfl rfl (.inl rfl)
  | lose hmem _ _ => exact single_keep hold (hunqueue hp.keys hmem) rfl rfl (.inl rfl)
  | cancel _ ht =>
      rcases ht with ⟨n, rfl, -⟩ | ⟨rfl, -⟩
      · exact single_keep hold ((maps_cancelReq _ _ _).countCb cb).le rfl rfl (.inl rfl)
      · exact single_keep hold le_rfl rfl rfl (.inl rfl)
  | abortLoad _ _ _ =>
      exact single_keep hold ((maps_cancelAllByFd _ _ _).countCb cb).le rfl rfl (.inl rfl)
  | @issue s m r hfresh hpurpose _ =>
      refine single_issue (r := r) hold rfl ?_ (fun _ => rfl) fun hsame => ?_
      · unfold Mode.issue
        split <;> rfl
      · have hnot := hpurpose.not_meta
        rw [hsame, hcb] at hnot
        cases hnot
  | issueRaw hfresh hraw _ _ _ hoff =>
      refine single_issue hold rfl rfl (fun hne => ?_) fun hsame => ?_
      · cases cb <;> first | exact absurd hraw hne | rfl
      · obtain rfl := hraw.symm.trans hsame
        exact ⟨hoff, rfl⟩
  | issueAux hfresh haux _ _ _ hoff =>
      refine single_issue hold rfl rfl (fun hne => ?_) fun hsame => ?_
      · cases cb <;> first | exact absurd haux hne | rfl
      · obtain rfl := haux.symm.trans hsame
        exact ⟨hoff, rfl⟩
  | @reissue s m r o hr _ _ hsame _ _ _ _ =>
      have hcount : ((s.push o).passOn).countCb cb = s.countCb cb + if o.finishCb = cb then 1 else 0 :=
        countCb_append rfl cb
      simp only [metaCount, hr, Option.map_some, Option.some.injEq] at hold
      simp only [metaCount, hcount, Option.map_none, reduceCtorEq, if_false, hsame]
      exact hold
  | rawDone hr hraw _ =>
      have halone := hp.alone hr (by rw [hraw]; rfl)
      rw [hraw] at halone
      simp only [metaCount, Option.map_none, reduceCtorEq, if_false]
      cases cb with
      | writeMetaRawData => exact Nat.le_of_eq halone.1
      | writeMetaAuxData => exact (Nat.le_add_right _ _).trans hold
      | _ => cases hcb
  | auxDone hr haux _ =>
      have halone := hp.alone hr (by rw [haux]; rfl)
      rw [haux] at halone
      simp only [metaCount, Option.map_none, reduceCtorEq, if_false]
      cases cb with
      | writeMetaRawData => exact (Nat.le_add_right _ _).trans hold
      | writeMetaAuxData => exact Nat.le_of_eq halone.1
      | _ => cases hcb
  | _ =>
      first
        | exact single_keep hold le_rfl rfl rfl (.inl rfl)
        | exact single_keep hold le_rfl rfl rfl (.inr rfl)

theorem Act.needUpdate (h : Act p q) (hp : Formed p) (hneed : q.1.metaAuxNeedUpdate = true) :
    q.1.metaAuxWriting = false ∧ (q.2.AsksAux ∨ Refused q.1.log) := by
  have hold := hp.needUpdate
  have hlog := h.prefix.subset
  -- An update in hand that is not one of the auxiliary file needs a refusal.
  have hrefused {m n : Mode} {l l' : List Obs} (hsub : l ⊆ l') (hm : ¬m.AsksAux)
      (h : m.AsksAux ∨ Refused l) : n.AsksAux ∨ Refused l' :=
    .inr ((h.resolve_left hm).mono hsub)
  have hnone {m : Mode} (h : m.asked = none) : ¬m.AsksAux := by
    rintro ⟨auxMb, hasked⟩
    simp [h] at hasked
  have hpacked {m : Mode} {packed : PackedMeta} (h : m.asked = some (.packed packed)) :
      ¬m.AsksAux := by
    rintro ⟨auxMb, hasked⟩
    simp [h] at hasked
  have hkeep {m n : Mode} {l l' : List Obs} (hsub : l ⊆ l') (hasked : n.asked = m.asked)
      (h : m.AsksAux ∨ Refused l) : n.AsksAux ∨ Refused l' :=
    h.imp (fun ⟨auxMb, h⟩ => ⟨auxMb, hasked.trans h⟩) fun h => h.mono hsub
  cases h with
  | calm h =>
      obtain ⟨hoff, hwhy⟩ := hold (h.frame.metaAuxNeedUpdate.symm.trans hneed)
      exact ⟨h.frame.metaAuxWriting.trans hoff, hkeep hlog rfl hwhy⟩
  | issue _ _ _ =>
      have hasked {m : Mode} {r : EvAIOReq} : (m.issue r).asked = m.asked := by
        unfold Mode.issue
        split <;> rfl
      exact ⟨(hold hneed).1, hkeep hlog hasked (hold hneed).2⟩
  | cancel _ ht =>
      rcases ht with ⟨n, rfl, -⟩ | ⟨rfl, -⟩ <;>
        exact ⟨(hold hneed).1, hkeep hlog rfl (hold hneed).2⟩
  | ask d h _ => exact ⟨(hold hneed).1, hrefused hlog (hnone h) (hold hneed).2⟩
  | coalesceRaw h _ _ => exact ⟨(hold hneed).1, hrefused hlog (hpacked h) (hold hneed).2⟩
  | coalesceAux _ haux _ => exact absurd (hold hneed).1 (by simp [haux])
  | auxSlot auxMb needUpdate h => exact h hneed
  | issueRaw _ _ _ _ h _ => exact ⟨(hold hneed).1, hrefused hlog (hpacked h) (hold hneed).2⟩
  | issueAux _ _ _ _ _ _ => cases hneed
  | @refuse s m cb =>
      exact ⟨(hold hneed).1, .inr ⟨cb, s.closeRequest, false, mem_append_right _ (by simp)⟩⟩
  | takeRaw _ _ _ h => exact ⟨(hold hneed).1, hrefused hlog (hnone h) (hold hneed).2⟩
  | takeAux _ _ _ h => exact ⟨(hold hneed).1, hrefused hlog (hnone h) (hold hneed).2⟩
  | @reissue s m r o hr hcb _ hsame _ hasked hdata _ =>
      obtain ⟨hoff, hwhy⟩ := hold hneed
      refine ⟨hoff, hrefused hlog ?_ hwhy⟩
      rintro ⟨auxMb, haux⟩
      obtain hdata' : o.data = .aux auxMb := by simpa [hasked] using haux
      have hwriting := (hp.alone hr hcb).2
      rw [← hsame] at hwriting
      rw [hdata'] at hdata
      cases hfinish : o.finishCb with
      | writeMetaAuxData =>
          rw [hfinish] at hwriting
          exact Bool.noConfusion (hoff.symm.trans hwriting)
      | _ =>
          rw [hfinish] at hdata
          cases hdata
  | @refuseAgain s m r _ _ =>
      exact ⟨(hold hneed).1,
        .inr ⟨r.finishCb, s.closeRequest, true, mem_append_right _ (by simp)⟩⟩
  | auxDone _ _ _ => exact ⟨rfl, hkeep hlog rfl (hold hneed).2⟩
  | _ => exact ⟨(hold hneed).1, hkeep hlog rfl (hold hneed).2⟩

theorem mem_setState {s : EvKQFileMapped} {serial : Nat}
    {f : EvKQFileMappedAIOState → EvKQFileMappedAIOState} {st : EvKQFileMappedAIOState}
    (h : st ∈ (s.setState serial f).aioStateList) :
    (st ∈ s.aioStateList ∧ st.serial ≠ serial) ∨
      ∃ st' ∈ s.aioStateList, st'.serial = serial ∧ st = f st' := by
  obtain ⟨st', hmem, rfl⟩ := mem_map.mp h
  by_cases hserial : st'.serial = serial
  · exact .inr ⟨st', hmem, hserial, if_pos hserial⟩
  · rw [if_neg hserial]
    exact .inl ⟨hmem, hserial⟩

theorem setState_serials (s : EvKQFileMapped) (serial : Nat)
    (f : EvKQFileMappedAIOState → EvKQFileMappedAIOState) (hf : ∀ st, (f st).serial = st.serial) :
    (s.setState serial f).aioStateList.map (·.serial) = s.aioStateList.map (·.serial) := by
  simp only [setState, List.map_map]
  refine map_congr_left fun st _ => ?_
  simp only [Function.comp]
  split
  · exact hf st
  · rfl

theorem Act.states (h : Act p q) (hp : Formed p) :
    (q.1.aioStateList.map (·.serial)).Nodup ∧
      ∀ st ∈ q.1.aioStateList, st.serial < q.1.nextState ∧ st.Counts := by
  have hold : ∀ st ∈ p.1.aioStateList, st.serial < p.1.nextState ∧ st.Counts :=
    fun st hst => ⟨hp.serialsLt st hst, hp.counts st hst⟩
  have hserials := hp.serials
  have hremove {s : EvKQFileMapped} (serial : Nat)
      (hnodup : (s.aioStateList.map (·.serial)).Nodup)
      (hold : ∀ st ∈ s.aioStateList, st.serial < s.nextState ∧ st.Counts) :
      ((s.removeState serial).aioStateList.map (·.serial)).Nodup ∧
        ∀ st ∈ (s.removeState serial).aioStateList, st.serial < s.nextState ∧ st.Counts :=
    ⟨hnodup.sublist (filter_sublist.map _), fun st hst => hold st (mem_filter.mp hst).1⟩
  cases h with
  | calm h =>
      rw [h.frame.states, h.frame.nextState]
      exact ⟨hserials, hold⟩
  | clean _ _ _ => exact ⟨nodup_nil, fun _ h => absurd h (not_mem_nil)⟩
  | cancel _ ht => rcases ht with ⟨n, rfl, -⟩ | ⟨rfl, -⟩ <;> exact ⟨hserials, hold⟩
  | stateNew ownerId hasCb _ _ =>
      refine ⟨nodup_cons.mpr ⟨?_, hserials⟩, fun st hst => ?_⟩
      · intro hmem
        obtain ⟨st, hst, hserial⟩ := mem_map.mp hmem
        exact Nat.ne_of_lt (hold st hst).1 hserial
      · rcases mem_cons.mp hst with rfl | hst
        · exact ⟨Nat.lt_succ_self _, rfl⟩
        · exact ⟨Nat.lt_succ_of_lt (hold st hst).1, (hold st hst).2⟩
  | mark f hf =>
      have hserial (st : EvKQFileMappedAIOState) : (f st).serial = st.serial := by
        obtain ⟨l, c, hst, -⟩ := hf st
        rw [hst]
      refine ⟨?_, fun st hst => ?_⟩
      · rw [List.map_map]
        exact (congrArg List.Nodup (map_congr_left fun st _ => hserial st)).mpr hserials
      · obtain ⟨st', hmem, rfl⟩ := mem_map.mp hst
        obtain ⟨l, c, hst', -⟩ := hf st'
        rw [hst']
        exact hold st' hmem
  | record hid _ _ _ =>
      refine ⟨(congrArg List.Nodup (setState_serials _ _ (.add _) fun _ => rfl)).mpr hserials,
        fun st hst => ?_⟩
      rcases mem_setState hst with ⟨hmem, -⟩ | ⟨st', hmem, -, rfl⟩
      · exact hold st hmem
      · exact ⟨(hold st' hmem).1, (hold st' hmem).2.add hid⟩
  | retire r error hst hid _ _ _ =>
      refine ⟨(congrArg List.Nodup (setState_serials _ _ (markDone _ _) fun _ => rfl)).mpr hserials,
        fun st' hst' => ?_⟩
      rcases mem_setState hst' with ⟨hmem, -⟩ | ⟨st₀, hmem, hserial, rfl⟩
      · exact hold st' hmem
      · obtain rfl := inj_on_of_nodup_map hserials hmem hst hserial
        exact ⟨(hold st₀ hmem).1, (hold st₀ hmem).2.markDone (Int.natCast_nonneg _)
          (EvKQFileMappedAIOState.hasOpen_iff.mp hid)⟩
  | finish _ _ _ _ _ => exact hremove _ hserials hold
  | dropState _ _ _ => exact hremove _ hserials hold
  | _ => exact ⟨hserials, hold⟩

theorem Act.pages (h : Act p q) (hp : Formed p) :
    ∀ page ∈ q.1.partialMbList, int32 page.userInt = page.userInt := by
  have hold := hp.pages
  cases h with
  | calm h =>
      cases h with
      | page blockIdx relOffset =>
          intro page hpage
          rcases mem_cons.mp hpage with rfl | hpage
          · simp only [int32_int32]
          · exact hold page hpage
      | store hp hidx hslice hfit hne hplace =>
          intro page hpage
          obtain ⟨page', hpage', rfl⟩ := mem_map.mp hpage
          split
          · simp only [PagePart.store, int32_int32]
          · exact hold page' hpage'
      | drop hp hr hmarks => exact fun page hpage => hold page (mem_filter.mp hpage).1
      | _ => exact hold
  | clean _ _ _ => exact fun _ h => absurd h (not_mem_nil)
  | cancel _ ht => rcases ht with ⟨n, rfl, -⟩ | ⟨rfl, -⟩ <;> exact hold
  | _ => exact hold

theorem mem_live {s : EvKQFileMapped} {r : EvAIOReq} :
    r ∈ s.live ↔ r ∈ s.aio ∧ r.cancelled = false := by
  simp [live]

theorem Act.kept (h : Act p q) (hq : q.2.dropped ≠ none) {r : EvAIOReq} (hr : r ∈ p.1.aio) :
    ∃ r' ∈ q.1.aio, Kin r' r := by
  rcases h.moves with hmaps | ⟨r', -, -, -, hidle⟩ | ⟨r', hissues⟩
  · exact hmaps.kept hr
  · rcases hidle with hidle | hidle <;> exact absurd (congrArg Mode.dropped hidle) hq
  · exact ⟨r, hissues.aio ▸ mem_append_left _ hr, .refl r⟩

theorem Kin.serves {s t : EvKQFileMapped} {q r : EvAIOReq} {serial : Nat} {id : Int}
    (h : Kin q r) (hthreaded : t.threadedAio = s.threadedAio) (hr : s.Serves serial id r) :
    t.Serves serial id q := by
  obtain ⟨hstate, hid, hengine⟩ := hr
  have hkey : q.id = r.id := congrArg Prod.snd h.key
  refine ⟨h.state.trans hstate, by rw [hkey, hid], ?_⟩
  rw [h.engine, hengine]
  unfold mainEngine
  rw [hthreaded]

theorem Act.dropped (h : Act p q) (hp : Formed p) {serial : Nat} {ids : List Int}
    (hq : q.2.dropped = some (serial, ids)) :
    (∀ id ∈ ids, ∃ r ∈ q.1.aio, q.1.Serves serial id r) ∨ Wild q.1.log := by
  have hwild (hw : Wild p.1.log) : Wild q.1.log := hw.mono h.prefix.subset
  have hserves {ids' : List Int} (hsub : ids ⊆ ids')
      (hold : ∀ id ∈ ids', ∃ r ∈ p.1.aio, p.1.Serves serial id r) :
      ∀ id ∈ ids, ∃ r ∈ q.1.aio, q.1.Serves serial id r := by
    intro id hid
    obtain ⟨r, hr, hserves⟩ := hold id (hsub hid)
    obtain ⟨r', hr', hkin⟩ := h.kept (by simp [hq]) hr
    exact ⟨r', hr', hkin.serves h.const.1 hserves⟩
  have hkeep (hm : p.2.dropped = some (serial, ids)) :
      (∀ id ∈ ids, ∃ r ∈ q.1.aio, q.1.Serves serial id r) ∨ Wild q.1.log :=
    (hp.dropped serial ids hm).imp (hserves fun _ h => h) hwild
  cases h with
  | cancel hdropped ht =>
      obtain ⟨rfl, rfl⟩ : _ = serial ∧ _ = ids := by simpa using hq
      exact (hp.dropped _ _ hdropped).imp (hserves (subset_cons_self _ _)) hwild
  | dropState hbuilding hst hids =>
      obtain ⟨rfl, rfl⟩ : _ = serial ∧ _ = ids := by simpa using hq
      refine hids.imp (fun hids => hserves (fun _ h => h) fun id hid => ?_) hwild
      obtain ⟨r, hr, hserves⟩ := hids.2 id hid
      exact ⟨r, (mem_live.mp hr).1, hserves⟩
  | dropEnd _ _ => cases hq
  | settle _ _ => cases hq
  | reap _ _ => cases hq
  | lose _ _ _ => cases hq
  | issue _ _ _ =>
      refine hkeep ?_
      simp only [Mode.issue] at hq
      split at hq <;> exact hq
  | _ => exact hkeep hq

theorem formed_act (h : Act p q) (hp : Formed p) : Formed q where
  keys := h.keys hp
  held := h.held hp
  threaded hthreaded r hr := by
    rw [h.const.1] at hthreaded
    rcases h.known hr with ⟨r', hr', hkin⟩ | hissues
    · exact hkin.engine.trans (hp.threaded hthreaded r' hr')
    · cases hengine : r.engine with
      | thread => rfl
      | kq => exact absurd hthreaded (by simp [hissues.fresh.engine hengine])
  tame hthreaded := h.wild hp (h.const.1.symm.trans hthreaded)
  stateless r hr := by
    rcases h.known hr with ⟨r', hr', hkin⟩ | hissues
    · rw [hkin.state, hkin.finishCb]
      exact hp.stateless r' hr'
    · exact hissues.fresh.stateless
  metaThread r hr hcb := by
    rcases h.known hr with ⟨r', hr', hkin⟩ | hissues
    · rw [hkin.finishCb] at hcb
      exact hkin.engine.trans (hp.metaThread r' hr' hcb)
    · exact hissues.metaThread hcb
  load r hr hcb := by
    rw [h.const.2]
    rcases h.known hr with ⟨r', hr', hkin⟩ | hissues
    · rw [hkin.finishCb] at hcb
      exact hp.load r' hr' hcb
    · exact hissues.load hcb
  wants hwants := h.wants hp hwants
  single cb hcb := h.single hp cb hcb
  needUpdate hneed := h.needUpdate hp hneed
  serials := (h.states hp).1
  serialsLt st hst := ((h.states hp).2 st hst).1
  counts st hst := ((h.states hp).2 st hst).2
  pages := h.pages hp
  dropped _ _ hq := h.dropped hp hq

theorem formed_path (h : Path p q) (hp : Formed p) : Formed q := by
  induction h with
  | refl => exact hp
  | tail _ hact ih => exact formed_act hact ih

end Formed

end FileMapped
