import BrbFramework.FileMapped.Paths

/-!
# Every turn of the event loop is a path

The calls of the user, the news about a request and the creation of a store are
put together here from the parts of `Paths`. Calls nest in the callbacks they
cause, so the path of a call is found by induction on the depth of the nesting.

`run_path` is what the rest of the development uses: the state after any run is
reached by a path from the blank store, and so is the state of an abort.
-/

namespace FileMapped

open Relation Handler BrbData Machine List

/-! ## The end of a write call -/

/-- The ids of an abandoned AIO state are cancelled one after another. -/
def Mode.dropping (held serial : Nat) (ids : List Int) : Mode :=
  { held := held, dropped := some (serial, ids) }

namespace EvKQFileMapped

/-- The state with a new AIO state at the head of the list. -/
def withState (s : EvKQFileMapped) (ownerId : Int) (hasCb : Bool) : EvKQFileMapped :=
  { s with
    aioStateList := { serial := s.nextState, ownerId := ownerId, hasCb := hasCb } ::
      s.aioStateList
    nextState := s.nextState + 1 }.note (.made s.nextState hasCb)

end EvKQFileMapped

section Writes

variable {env : Nat → Answer} {callback : M Unit} {p : Point} {s t : EvKQFileMapped} {m : Mode}
  {held serial : Nat} {r : EvAIOReq}

theorem cancelByReqID_ends {engine : Engine} {id : Int} {Q : PUnit → EvKQFileMapped → Prop}
    {E : Fault → EvKQFileMapped → Prop}
    (hfound : ∀ n : Nat, (n : Int) = id → Q PUnit.unit (s.cancelReq engine n))
    (hnone : (∀ r ∈ s.aio, r.engine = engine → (r.id : Int) ≠ id) → Q PUnit.unit s.tick)
    (hstop : E .slotNotInUse s.tick) : Ends (cancelByReqID env engine id) s Q E := by
  simp only [cancelByReqID]
  rw [ends_bind, ends_get]
  cases hfind : s.aio.find? fun r => r.engine == engine && (r.id : Int) == id with
  | some r =>
      have hr := find?_some hfind
      simp only [Bool.and_eq_true, beq_iff_eq] at hr
      exact hfound r.id hr.2
  | none =>
      simp only [ends_bind, ends_ask, ends_assertThat]
      refine ⟨fun _ => hnone fun r hr hengine hid => ?_, fun _ => hstop⟩
      have hnot := find?_eq_none.mp hfind r hr
      simp [hengine, hid] at hnot

theorem aioStatePendingCancelAll_path (ids : List Int)
    (h : Path p (s, .dropping held serial ids)) :
    Ends (aioStatePendingCancelAll env ids) s
      (fun _ t => Path p (t, .dropping held serial [])) (Stopped p) := by
  induction ids generalizing s with
  | nil => exact h
  | cons id ids ih =>
      have hunlock {t : EvKQFileMapped} (ht : Path p (t, .dropping (held + 1) serial ids)) :
          Ends (unlock .cancel) t (fun _ u => Path p (u, .dropping held serial ids))
            (Stopped p) :=
        release_path ht ⟨rfl, rfl, rfl⟩ .cancel _ (fun _ => Nat.succ_pos held) (by simp) (by simp)
      simp only [aioStatePendingCancelAll]
      refine deref_path h fun _ => ?_
      rw [ends_bind]
      refine cancelByReqID_ends (fun n hn => ?_) (fun hnone => ?_) ?_
      · simp only [ends_bind, ends_modify]
        refine (hunlock (h.tail (.cancel rfl (.inl ⟨n, rfl, hn⟩)))).imp fun _ t ht => ih ht
      · simp only [ends_bind, ends_modify]
        refine (hunlock ((path_tick h).tail (.cancel rfl (.inr ⟨rfl, hnone⟩)))).imp
          (fun _ t ht => ih ht)
      · exact stopped (path_tick h) trivial

theorem dropState_path (hp : Formed p) (h : Path p (s, .build held serial))
    (hbuilds : Builds s serial ∨ Wild s.log) :
    Path p (s.removeState serial, .dropping held serial
      (((s.aioStateList.find? (·.serial == serial)).map (·.openIds)).getD [])) := by
  refine h.tail (.dropState rfl (fun st hst hserial => ?_) ?_)
  · cases hfind : s.aioStateList.find? (·.serial == serial) with
    | none => exact absurd (find?_eq_none.mp hfind st hst) (by simp [hserial])
    | some st' =>
        have hserial' : st'.serial = serial := by simpa using find?_some hfind
        obtain rfl := inj_on_of_nodup_map (formed_path h hp).serials hst
          (mem_of_find?_eq_some hfind) (hserial.trans hserial'.symm)
        rfl
  · refine hbuilds.imp (fun hb => ?_) id
    cases hfind : s.aioStateList.find? (·.serial == serial) with
    | none => simp
    | some st' =>
        exact hb.serves st' (mem_of_find?_eq_some hfind)
          (by simpa using find?_some hfind)

theorem abandonWrite_path (hp : Formed p) (h : Path p (s, .build held serial))
    (hbuilds : Builds s serial ∨ Wild s.log) :
    Ends (abandonWrite env serial) s (fun _ t => Path p (t, .calls held)) (Stopped p) := by
  have hdrop := dropState_path hp h hbuilds
  simp only [abandonWrite]
  refine deref_path h fun _ => ?_
  rw [ends_bind, ends_set]
  cases hfind : s.aioStateList.find? (·.serial == serial) with
  | none => exact stopped hdrop trivial
  | some st =>
      rw [hfind] at hdrop
      simp only [ends_bind, ends_pure]
      refine (aioStatePendingCancelAll_path st.openIds hdrop).imp fun _ t ht => ?_
      exact ht.tail (.dropEnd rfl (.inl rfl))

theorem aioStateSetDelayedNotify_path (h : Path p (s, m)) :
    Ends (aioStateSetDelayedNotify serial) s (fun _ t => Path p (t, m) ∧
      t.aioStateList = s.aioStateList) (Stopped p) := by
  simp only [aioStateSetDelayedNotify]
  refine deref_path h fun _ => ?_
  cases s.aioStateList.find? (·.serial == serial) with
  | none => exact ⟨h, rfl⟩
  | some st =>
      refine ⟨path_calm h (.tweak _ _ fun r => ?_), rfl⟩
      split
      · exact ⟨r.queued, true, rfl⟩
      · exact ⟨r.queued, r.delayedNotify, rfl⟩

theorem reportWrite_path (hcb : Behaves p callback) (h : Path p (s, .build held serial)) :
    Ends (reportWrite callback serial) s (fun _ t => Path p (t, .calls held)) (Stopped p) := by
  simp only [reportWrite]
  refine deref_path h fun _ => ?_
  cases hfind : s.aioStateList.find? (·.serial == serial) with
  | none => exact stopped h trivial
  | some st =>
      have hst := mem_of_find?_eq_some hfind
      have hserial : st.serial = serial := by simpa using find?_some hfind
      cases hpending : st.pendingReq with
      | nil =>
          simp only [hpending, ends_bind, ends_pure]
          exact aioStateInvokeAndDestroy_path hcb rfl h (.inl rfl) ⟨st, hst, hserial⟩
      | cons first rest =>
          simp only [hpending, ends_bind, ends_pure, ends_note]
          refine (aioStateSetDelayedNotify_path h).imp fun _ t ht => ?_
          obtain ⟨hpath, hstates⟩ := ht
          exact hpath.tail (.report rfl ⟨st, hstates ▸ hst, hserial, by simp [hpending]⟩)

theorem builds_of_idle (hlisted : Listed s serial)
    (h : ∀ st ∈ s.aioStateList, st.serial = serial → st.openIds = []) : Builds s serial := by
  refine ⟨hlisted, fun st hst hserial => ?_⟩
  rw [h st hst hserial]
  exact ⟨nodup_nil, fun _ hid => absurd hid not_mem_nil⟩

theorem withState_path (hp : Formed p) (ownerId : Int) (hasCb : Bool)
    (h : Path p (s, .calls held)) :
    Path p (s.withState ownerId hasCb, .build held s.nextState) ∧
      Listed (s.withState ownerId hasCb) s.nextState ∧
        ∀ st ∈ (s.withState ownerId hasCb).aioStateList, st.serial = s.nextState →
        st.openIds = [] := by
  refine ⟨h.tail (.stateNew ownerId hasCb (.inl rfl) rfl), ⟨_, mem_cons_self, rfl⟩,
    fun st hst hserial => ?_⟩
  rcases mem_cons.mp hst with rfl | hold
  · rfl
  · exact absurd hserial (Nat.ne_of_lt ((formed_path h hp).serialsLt st hold))

theorem aioStateNew_ends {ownerId : Int} {hasCb : Bool} {Q : Nat → EvKQFileMapped → Prop}
    {E : Fault → EvKQFileMapped → Prop} (hnew : Q s.nextState (s.withState ownerId hasCb))
    (hstop : E .useAfterFree s) : Ends (aioStateNew ownerId hasCb) s Q E := by
  simp only [aioStateNew, ends_bind, ends_deref, ends_set, ends_pure]
  exact ⟨fun _ => hnew, fun _ => hstop⟩

theorem aioWrite_path (hp : Formed p) (hcb : ∀ p', Path p p' → Behaves p' callback)
    (data : List UInt8) (offset : Nat) (ownerId : Int) (hasCb : Bool) :
    Behaves p (aioWrite env callback data offset ownerId hasCb) := by
  intro held s h
  simp only [aioWrite]
  refine deref_path h fun hfree => ?_
  refine assertThat_path h trivial fun _ => ?_
  rw [ends_bind, ends_note]
  have hnote := path_note h (.wrote data offset) rfl
  obtain ⟨hnew, hlisted, hidle⟩ := withState_path hp ownerId hasCb hnote
  rw [ends_bind]
  refine aioStateNew_ends ?_ (stopped hnote trivial)
  have hlog : Obs.wrote data offset ∈
      ((s.note (.wrote data offset)).withState ownerId hasCb).log := by
    simp [EvKQFileMapped.withState, EvKQFileMapped.note]
  rw [ends_bind]
  refine (writeParts_path (formed_path hnew hp) (fun p' hp' => hcb p' (hnew.trans hp')) hlog
    (builds_of_idle hlisted hidle)).mono (fun parts t ht => ?_) fun _ _ he => he.trans hnew
  obtain ⟨hpath, hkept⟩ := ht
  rw [ends_bind, ends_modify]
  have hquiet : Path p ({ t with curOffset :=
      if t.curOffset < offset + data.length then offset + data.length else t.curOffset },
      .build held s.nextState) := path_calm (hnew.trans hpath) .quiet
  rw [ends_ite]
  refine ⟨fun _ => abandonWrite_path hp hquiet ?_, fun _ => reportWrite_path (hcb p .refl) hquiet⟩
  exact hkept.imp (fun (hb : Builds t _) => builds_congr hb rfl rfl rfl) id

theorem aioAdd_path (hp : Formed p) (hcb : ∀ p', Path p p' → Behaves p' callback)
    (data : List UInt8) (ownerId : Int) (hasCb : Bool) :
    Behaves p (aioAdd env callback data ownerId hasCb) := by
  intro held s h
  simp only [aioAdd]
  refine deref_path h fun _ => ?_
  rw [ends_bind]
  refine (aioWrite_path hp hcb data s.curOffset ownerId hasCb held s h).imp fun _ t ht => ?_
  rw [ends_ite]
  exact ⟨fun _ => ht, fun _ => path_calm ht .quiet⟩

theorem aioWriteMemBufferAndDestroy_path (hp : Formed p)
    (hcb : ∀ p', Path p p' → Behaves p' callback) (data : List UInt8) (offset : Nat)
    (ownerId : Int) (hasCb : Bool) :
    Behaves p (aioWriteMemBufferAndDestroy env callback data offset ownerId hasCb) := by
  intro held s h
  simp only [aioWriteMemBufferAndDestroy]
  rw [ends_bind]
  refine (aioWrite_path hp hcb data offset ownerId hasCb held s h).imp fun id t ht => ?_
  rw [ends_ite]
  refine ⟨fun _ => ht, fun _ => ?_⟩
  rw [ends_bind]
  refine aioStateGetByAIOReqID_ends (fun _ _ _ => ht) (fun _ => stopped ht trivial) fun f hf => ?_
  rcases hf with rfl | rfl <;> exact stopped ht trivial

end Writes

/-! ## Reading -/

section Reads

variable {env : Nat → Answer} {callback : M Unit} {p : Point} {s t : EvKQFileMapped}
  {held serial : Nat} {r : EvAIOReq}

theorem recordRead_failed_path (hp : Formed p) (h : Path p (t, .build held serial))
    (hidle : (Listed t serial ∧ ∀ st ∈ t.aioStateList, st.serial = serial → st.openIds = []) ∨
      Wild t.log) :
    Ends (recordRead serial .failed) t (fun _ u => Path p (u, .calls held)) (Stopped p) := by
  simp only [recordRead]
  refine deref_path h fun _ => ?_
  simp only [ends_bind, ends_set, ends_pure]
  refine (dropState_path hp h (hidle.imp (fun hids => builds_of_idle hids.1 hids.2) id)).tail
    (.dropEnd rfl ?_)
  refine hidle.imp (fun hids => ?_) id
  cases hfind : t.aioStateList.find? (·.serial == serial) with
  | none => rfl
  | some st =>
      exact hids.2 st (mem_of_find?_eq_some hfind) (by simpa using find?_some hfind)

theorem recordRead_path (hp : Formed p) (h : Path p (s, .build held serial))
    (hfree : s.freed = false)
    (hidle : ∀ st ∈ s.aioStateList, st.serial = serial → st.openIds = [])
    (hlisted : Listed s serial) (hr : Submits s serial r)
    (hcb : r.finishCb = .readRawData) {status : Submitted} (hsub : Submission s r status t) :
    Ends (recordRead serial status) t (fun _ u => Path p (u, .calls held)) (Stopped p) := by
  rcases hsub.cases with rfl | rfl | ⟨n, hn⟩
  · obtain ⟨hpath, hstates, -, -, -⟩ := submission_failed h hsub
    refine recordRead_failed_path hp hpath (.inl ⟨?_, hstates ▸ hidle⟩)
    rw [Listed, hstates]
    exact hlisted
  · obtain ⟨hpath, -⟩ := submission_canceled h hsub
    exact hpath.tail (.leave rfl)
  · have hpending := recordPending_path false hfree h (.inr (.inr hcb)) (.inl hlisted) hr
      hsub (by rw [hcb]; rfl) hn
    have hdone : Ends (do
        lock
        aioStatePendingAdd serial n false
        note (.reported serial)
        return (n : Int)) t (fun _ u => Path p (u, .calls held)) (Stopped p) := by
      simp only [ends_bind, ends_pure, ends_note] at hpending ⊢
      refine hpending.imp (fun _ u hu => hu.imp (fun _ v hv => ?_))
      exact hv.1.tail (.report rfl (hv.2.2 hlisted))
    rcases hn with rfl | rfl <;> exact hdone

theorem aioReadToMemBuffer_path (hp : Formed p) (offset dataSz : Nat) (ownerId : Int)
    (hasCb : Bool) : Behaves p (aioReadToMemBuffer env offset dataSz ownerId hasCb) := by
  intro held s h
  obtain ⟨hnew, hlisted, hidle⟩ := withState_path hp ownerId hasCb h
  simp only [aioReadToMemBuffer]
  refine deref_path h fun hfree => ?_
  refine assertThat_path h trivial fun _ => ?_
  rw [ends_bind]
  refine aioStateNew_ends ?_ (stopped h trivial)
  refine assertThat_path hnew trivial fun hthreaded => ?_
  rw [ends_bind]
  have hmain : (s.withState ownerId hasCb).mainEngine = .thread := by
    have : (s.withState ownerId hasCb).threadedAio = true := hthreaded
    simp [EvKQFileMapped.mainEngine, this]
  have hr : Submits (s.withState ownerId hasCb) s.nextState
      { fd := s.dataFd, data := .target, size := dataSz, offset := offset
        finishCb := .readRawData, state := some s.nextState } :=
    ⟨rfl, rfl, rfl, rfl, fun q hq => .read hq.fields.1⟩
  refine threadAIOFileMb_ends ?_ (fun f t hf ht => ?_) (fun id hq => ?_) rfl
  · exact recordRead_path hp hnew hfree hidle hlisted hr rfl (.failed (.inr rfl))
  · have hpath : Path p (t, .build held s.nextState) := by
      rcases ht with rfl | rfl
      · exact hnew
      · exact path_tick hnew
    rcases hf with rfl | rfl <;> exact stopped hpath trivial
  · have hsubmit := recordRead_path hp hnew hfree hidle hlisted hr rfl
      (.issued hq hmain.symm (.inl rfl) (.inl rfl))
    rwa [submit_pending _ _ (by rfl)] at hsubmit

theorem aioRead_path (hp : Formed p) (hcb : ∀ p', Path p p' → Behaves p' callback)
    (offset dataSz : Nat) (ownerId : Int) (hasCb : Bool) :
    Behaves p (aioRead env callback offset dataSz ownerId hasCb) := by
  intro held s h
  obtain ⟨hnew, hlisted, hidle⟩ := withState_path hp ownerId hasCb h
  simp only [aioRead]
  refine deref_path h fun hfree => ?_
  refine assertThat_path h trivial fun _ => ?_
  rw [ends_bind]
  refine aioStateNew_ends ?_ (stopped h trivial)
  rw [ends_bind]
  refine fileRead_ends rfl (fun status t ht => ?_) (fun f t hf ht => ?_)
    (fun hthreaded id => ?_) rfl rfl
  · exact recordRead_path hp hnew hfree hidle hlisted
      ⟨rfl, rfl, rfl, rfl, fun q hq => .read hq.fields.1⟩ rfl ht
  · have hpath : Path p (t, .build held s.nextState) := by
      rcases ht with rfl | rfl
      · exact hnew
      · exact path_tick hnew
    rcases hf with rfl | rfl <;> exact stopped hpath trivial
  · refine (notified_build_path hnew hthreaded _ fun p' u hp' hu hwild => ?_).imp
      (fun _ t ht => ?_)
    · exact readRawDataFinishCB_path (hcb p' hp') hu (.inr ⟨rfl, hwild⟩) (by simp)
    · exact recordRead_failed_path hp ht.1 (.inr ht.2)

end Reads

/-! ## Opening -/

section Opening

variable {env : Nat → Answer} {p : Point} {s t : EvKQFileMapped} {m : Mode} {held : Nat}

/-- What `EvKQFileMappedOpenFiles` leaves of the store. -/
def Opening (s t : EvKQFileMapped) : Prop :=
  ∃ clock metaFd dataFd fdAux metaAuxFile opened dataFile, t = { s with
    clock := clock, metaFd := metaFd, dataFd := dataFd, fdAux := fdAux
    metaAuxFile := metaAuxFile, opened := opened, dataFile := dataFile }

theorem openFiles_path (h : Path p (s, m)) (hclosed : s.opened = false)
    (hrequest : s.closeRequest = false) (hwanted : s.closeWanted = false)
    (hbitmap : (s.bitmap = none ∧ s.aio = []) ∨ Called (fun c => c == .openMap) s.log) :
    Ends (openFiles env) s (fun _ t => Path p (t, m) ∧ Opening s t) (Stopped p) := by
  simp only [openFiles]
  refine deref_path h fun _ => ?_
  rw [ends_bind, ends_ask, ends_bind, ends_modify]
  have hreset : Path p ({ s.tick with metaFd := -1, dataFd := -1, fdAux := -1 }, m) :=
    path_calm h .quiet
  have hkept : Opening s { s.tick with metaFd := -1, dataFd := -1, fdAux := -1 } :=
    ⟨_, _, _, _, _, _, _, rfl⟩
  rw [ends_ite]
  refine ⟨fun _ => ⟨hreset, hkept⟩, fun _ => ?_⟩
  have hopen {u : EvKQFileMapped} (hu : Path p (u, m)) (hsu : Opening s u)
      (hclosed' : u.opened = false) :
      Path p ({ u with
        metaFd := (env s.clock).metaFd, dataFd := (env s.clock).dataFd, opened := true
        dataFile := if u.truncateFile then fun _ => none else u.dataFile }, m) := by
    obtain ⟨clock, metaFd, dataFd, fdAux, metaAuxFile, opened, dataFile, rfl⟩ := hsu
    refine hu.tail (.opens _ _ _ hclosed' hrequest hwanted hbitmap ?_)
    split
    · exact .inl rfl
    · exact .inr rfl
  rw [ends_ite]
  refine ⟨fun _ => ?_, fun _ => ?_⟩
  · rw [ends_ite]
    refine ⟨fun _ => ⟨hreset, hkept⟩, fun _ => ?_⟩
    simp only [ends_bind, ends_modify, ends_pure]
    have haux : Path p ({ s.tick with
        metaFd := -1, dataFd := -1, fdAux := (env s.clock).auxFd, metaAuxFile := true }, m) :=
      path_calm hreset .quiet
    exact ⟨hopen haux ⟨_, _, _, _, _, _, _, rfl⟩ hclosed, ⟨_, _, _, _, _, _, _, rfl⟩⟩
  · simp only [ends_bind, ends_modify, ends_pure]
    exact ⟨hopen hreset hkept hclosed, ⟨_, _, _, _, _, _, _, rfl⟩⟩

theorem openMap_path (h : Path p (s, .calls held))
    (hcall : Called (fun c => c == .openMap) s.log) :
    Ends (openMap env) s (fun _ t => Path p (t, .calls held)) (Stopped p) := by
  have hwithdraw := h.tail (.withdraw s _)
  simp only [openMap]
  refine deref_path h fun _ => ?_
  rw [ends_bind, ends_set, ends_ite]
  refine ⟨fun _ => hwithdraw, fun hopened => ?_⟩
  have hclosed : s.opened = false := by simpa using hopened
  rw [ends_ite]
  refine ⟨fun _ => ?_, fun hrequest => ?_⟩
  · have hreopen := hwithdraw.tail (.reopen hclosed)
    refine assertThat_path hwithdraw trivial fun _ => ?_
    refine assertThat_path hwithdraw trivial fun _ => ?_
    rw [ends_ite]
    refine ⟨fun _ => ?_, fun _ => ?_⟩
    · simp only [ends_bind, ends_assertThat, ends_modify, ends_pure]
      exact ⟨fun _ => hreopen, fun _ => stopped hwithdraw trivial⟩
    · simp only [ends_bind, ends_modify, ends_pure]
      exact hreopen
  · exact (openFiles_path hwithdraw hclosed (by simpa using hrequest) rfl (.inr hcall)).imp
      (fun _ _ ht => ht.1)

end Opening

/-! ## Calls -/

section Calls

variable {env : Nat → Answer} {p : Point} {s : EvKQFileMapped} {held : Nat}

theorem lock_path (h : Path p (s, .calls held)) :
    Ends (do
      lock
      modify fun s : EvKQFileMapped => { s with userLocks := s.userLocks + 1 }) s
      (fun _ t => Path p (t, .calls held)) (Stopped p) := by
  simp only [lock, ends_bind, ends_deref, ends_set, ends_modify]
  exact ⟨fun _ => h.tail (.userLock s _), fun _ => stopped h trivial⟩

theorem runCalls_behaves {call : UserCall → M Unit} (hcall : ∀ c, Behaves p (call c))
    (cs : List UserCall) : Behaves p (runCalls call cs) := by
  intro held s h
  induction cs generalizing s with
  | nil => exact h
  | cons c cs ih =>
      simp only [runCalls]
      rw [ends_bind]
      exact (hcall c held s h).imp fun _ t ht => ih t ht

theorem userCallback_behaves {call : UserCall → M Unit} (hcall : ∀ c, Behaves p (call c)) :
    Behaves p (userCallback env call) := by
  intro held s h
  simp only [userCallback]
  rw [ends_bind, ends_ask]
  exact runCalls_behaves hcall _ held _ (path_tick h)

theorem userCall_path (depth : Nat) :
    ∀ {p : Point}, Formed p → ∀ c, Behaves p (userCall env depth c) := by
  induction depth with
  | zero => exact fun {p} _ c held s h => stopped h trivial
  | succ depth ih =>
      intro p hp c held s h
      have hcb (p' : Point) (hp' : Path p p') :
          Behaves p' (userCallback env (userCall env depth)) :=
        userCallback_behaves fun c => ih (formed_path hp' hp) c
      have hnote := path_note h (.call c) rfl
      have hcalled {kind : UserCall → Bool} (hkind : kind c = true) :
          Called kind (s.note (.call c)).log :=
        ⟨c, hkind, mem_append_right _ (mem_singleton_self _)⟩
      have hdrop {α : Type} {x : M α} (hx : Ends x (s.note (.call c))
          (fun _ t => Path p (t, .calls held)) (Stopped p)) :
          Ends (do let _ ← x) (s.note (.call c)) (fun _ t => Path p (t, .calls held))
            (Stopped p) := by
        rw [ends_bind]
        exact hx
      simp only [userCall]
      rw [ends_bind, ends_note]
      cases c with
      | lock => exact lock_path hnote
      | unlock => exact unlock_user_path hnote (hcalled rfl)
      | clean => exact clean_path hnote (hcalled rfl)
      | destroy => exact destroy_path hnote (hcalled rfl)
      | openMap => exact hdrop (openMap_path hnote (hcalled rfl))
      | close => exact close_path hp held _ hnote
      | completed => exact hdrop (completed_path hp hnote (hcalled rfl))
      | metaAuxWrite auxMb => exact metaAuxWrite_path hp auxMb held _ hnote
      | aioReadToMemBuffer offset dataSz ownerId hasCb =>
          exact hdrop (aioReadToMemBuffer_path hp offset dataSz ownerId hasCb held _ hnote)
      | aioRead offset dataSz ownerId hasCb =>
          exact hdrop (aioRead_path hp hcb offset dataSz ownerId hasCb held _ hnote)
      | aioWrite data offset ownerId hasCb =>
          exact hdrop (aioWrite_path hp hcb data offset ownerId hasCb held _ hnote)
      | aioAdd data ownerId hasCb =>
          exact hdrop (aioAdd_path hp hcb data ownerId hasCb held _ hnote)
      | aioWriteMemBufferAndDestroy data offset ownerId hasCb =>
          exact hdrop (aioWriteMemBufferAndDestroy_path hp hcb data offset ownerId hasCb held _
            hnote)
      | checkLastBlock totalSz => exact hdrop (checkLastBlock_path totalSz hnote (hcalled rfl))
      | notifyFinishAdd aioreqId ownerId hasCb =>
          exact notifyFinishAdd_path aioreqId ownerId hasCb held _ hnote
      | notifyFinishCancelByOwner aioreqId ownerId =>
          exact notifyFinishCancelByOwner_path aioreqId ownerId held _ hnote
      | cancelByAIOReqID aioreqId =>
          exact aioStateCancelByAIOReqID_path aioreqId hnote (hcalled rfl)
      | cancelAllByOwner ownerId =>
          exact aioStateCancelAllByOwner_path ownerId hnote (hcalled rfl)

end Calls

/-! ## News about requests -/

section News

variable {env : Nat → Answer} {callback : M Unit} {p : Point} {s : EvKQFileMapped}
  {r : EvAIOReq}

theorem finishCallback_path (hp : Formed p) (hcb : Behaves p callback) {res : Result}
    (h : Path p (s, .finishing 1 (some r))) :
    Ends (finishCallback env callback r res) s (fun _ t => Path p (t, .idle)) (Stopped p) := by
  have hstate (hcb : r.finishCb.stateless = false) : r.state ≠ none := by
    intro hnone
    rw [((formed_path h hp).stateless r (.inr rfl)).mp hnone] at hcb
    cases hcb
  cases hfinish : r.finishCb with
  | writeMetaAuxData =>
      simp only [finishCallback, hfinish]
      exact writeMetaAuxDataFinishCB_path hfinish h
  | writeMetaRawData =>
      simp only [finishCallback, hfinish]
      exact writeMetaRawDataFinishCB_path hfinish h
  | writeRawData =>
      simp only [finishCallback, hfinish]
      exact writeRawDataFinishCB_path hp hcb hfinish (hstate (by rw [hfinish]; rfl)) h
        (.inl rfl) (by simp)
  | readMetaAuxData =>
      simp only [finishCallback, hfinish]
      exact readMetaAuxDataFinishCB_path hp hcb hfinish h
  | readMetaData =>
      simp only [finishCallback, hfinish]
      exact readMetaDataFinishCB_path hp hcb hfinish h
  | readRawData =>
      simp only [finishCallback, hfinish]
      exact readRawDataFinishCB_path hcb h (.inl rfl) (hstate (by rw [hfinish]; rfl))
  | genericUnlock =>
      simp only [finishCallback, hfinish]
      exact unlock_finish_path rfl (h.tail (.settled rfl hfinish))

theorem invokeCallBacks_path (hp : Formed p) (hcb : Behaves p callback) (res : Result)
    (h : Path p (s, .idle)) (hmem : r ∈ s.aio) :
    Ends (invokeCallBacks env callback r res) s (fun _ t => Path p (t, .idle)) (Stopped p) := by
  simp only [invokeCallBacks]
  rw [ends_ite]
  refine ⟨fun hcancelled => h.tail (.reap hmem hcancelled), fun hlive => ?_⟩
  rw [ends_bind, ends_modify]
  exact finishCallback_path hp hcb (h.tail (.settle hmem (by simpa using hlive)))

theorem discard_path (h : Path p (s, .idle)) (hmem : r ∈ s.aio) (hengine : r.engine = .kq) :
    Ends (discard r) s (fun _ t => Path p (t, .idle)) (Stopped p) := by
  simp only [discard]
  rw [ends_bind, ends_modify, ends_ite]
  refine ⟨fun hlive => ?_, fun hcancelled => ?_⟩
  · exact h.tail (.lose hmem (by simpa using hlive) hengine)
  · exact h.tail (.reap hmem (by simpa using hcancelled))

theorem finishCheck_path (hp : Formed p) (hcb : Behaves p callback) (reaped : Reaped)
    (h : Path p (s, .idle)) (hmem : r ∈ s.aio) (hengine : r.engine = .kq) :
    Ends (finishCheck env callback r reaped) s (fun _ t => Path p (t, .idle)) (Stopped p) := by
  cases reaped with
  | failed => exact invokeCallBacks_path hp hcb _ h hmem
  | canceled => exact discard_path h hmem hengine
  | done job =>
      simp only [finishCheck]
      rw [ends_ite]
      refine ⟨fun _ => invokeCallBacks_path hp hcb _ h hmem, fun _ => ?_⟩
      rw [ends_ite]
      refine ⟨fun _ => path_calm h (.tweak _ _ fun q => ?_),
        fun _ => discard_path h hmem hengine⟩
      split
      · exact ⟨false, q.delayedNotify, rfl⟩
      · exact ⟨q.queued, q.delayedNotify, rfl⟩

theorem handle_path (hp : Formed p) (depth : Nat) (e : Event) (h : Path p (s, .idle)) :
    Ends (handle env depth e) s (fun _ t => Path p (t, .idle)) (Stopped p) := by
  have hcb : Behaves p (userCallback env (userCall env depth)) :=
    userCallback_behaves fun c => userCall_path depth hp c
  cases e with
  | user c => exact userCall_path depth hp c 0 s h
  | perform engine id garbage =>
      simp only [handle]
      rw [ends_bind, ends_get]
      cases hfind : s.aio.find? fun r => r.key == (engine, id) with
      | none => exact h
      | some r =>
          have hkey : r.key = (engine, id) := by simpa using find?_some hfind
          obtain ⟨rfl, rfl⟩ : r.engine = engine ∧ r.id = id := by
            simpa [EvAIOReq.key] using hkey
          simp only
          rw [ends_ite]
          refine ⟨fun hnot => ?_, fun _ => h⟩
          exact path_calm h (.perform garbage (mem_of_find?_eq_some hfind)
            (by simpa using hnot))
  | jobFinish id res =>
      simp only [handle]
      rw [ends_bind, ends_get]
      cases hfind : s.aio.find? fun r => r.key == (Engine.thread, id) with
      | none => exact h
      | some r => exact invokeCallBacks_path hp hcb _ h (mem_of_find?_eq_some hfind)
  | finishCheck id reaped =>
      simp only [handle]
      rw [ends_bind, ends_get]
      cases hfind : s.aio.find? fun r => r.key == (Engine.kq, id) && r.queued with
      | none => exact h
      | some r =>
          have hr := find?_some hfind
          simp only [Bool.and_eq_true, beq_iff_eq] at hr
          exact finishCheck_path hp hcb reaped h (mem_of_find?_eq_some hfind)
            (congrArg Prod.fst hr.1)
  | notifyFinishJob id =>
      simp only [handle]
      rw [ends_bind, ends_get]
      cases hfind : s.aio.find? fun r => r.key == (Engine.kq, id) && !r.queued with
      | none => exact h
      | some r => exact invokeCallBacks_path hp hcb _ h (mem_of_find?_eq_some hfind)

end News

/-! ## Creation -/

section Creation

variable {env : Nat → Answer} {p : Point} {s t : EvKQFileMapped} {m : Mode} {serial : Nat}

theorem initMap_path (h : Path p (s, m)) (hclosed : s.opened = false)
    (hrequest : s.closeRequest = false) (hwanted : s.closeWanted = false)
    (hbitmap : s.bitmap = none) (haio : s.aio = []) :
    Ends (initMap env) s (fun _ t => Path p (t, m)) (Stopped p) := by
  simp only [initMap]
  rw [ends_bind]
  refine (openFiles_path h hclosed hrequest hwanted (.inl ⟨hbitmap, haio⟩)).imp
    (fun ok t ht => ?_)
  obtain ⟨hpath, clock, metaFd, dataFd, fdAux, metaAuxFile, opened, dataFile, rfl⟩ := ht
  rw [ends_ite]
  exact ⟨fun _ => path_calm hpath (.emptyMap hbitmap), fun _ => stopped hpath trivial⟩

theorem loadFail_path {Q : PUnit → EvKQFileMapped → Prop} (h : Path p (s, m))
    (hwhy : 0 < m.held ∨ s.aio = [] ∨ Obs.loadAborted ∈ s.log) (hdropped : m.dropped = none) :
    Ends loadFail s Q (Stopped p) := by
  simp only [loadFail]
  rw [ends_bind]
  refine (closeFiles_path h hwhy hdropped).imp fun _ t ht => ?_
  simp only [ends_bind, ends_modify, ends_throw]
  exact stopped (path_calm ht.1 .quiet) trivial

theorem pendingAdd_path {id : Nat} (keys : List (Engine × Nat)) (h : Path p (s, m))
    (hlisted : Listed s serial)
    (hpair : (∃ r, Pairs s m serial id r ∧ keys = m.unrecorded.erase r.key) ∨ Astray s.log) :
    Ends (aioStatePendingAdd serial id false) s (fun _ t =>
      Path p (t, { m with unrecorded := keys }) ∧ t.aio = s.aio ∧ t.log = s.log ∧
        t.aioStateList = (s.setState serial (.add id)).aioStateList) (Stopped p) := by
  refine aioStatePendingAdd_ends (fun hnew k => ⟨?_, rfl, rfl, rfl⟩) (fun st hst hid => ?_)
    fun f hf => ?_
  · exact path_calm (h.tail (.record (Int.natCast_nonneg id) (hnew (Int.natCast_nonneg id))
      (.inl hlisted) hpair)) .quiet
  · exact stopped h ⟨serial, id, ⟨st, hst, hid⟩,
      hpair.imp (fun ⟨r, hr, _⟩ => ⟨r, hr⟩) fun h => h⟩
  · rcases hf with rfl | rfl <;> exact stopped h trivial

/-- A read of a metadata file while the store loads. -/
def loadRead (fd : Int) (cb : FinishCB) (serial : Nat) : EvAIOReq :=
  { fd := fd, data := .target, size := -1, offset := 0, finishCb := cb, state := some serial }

theorem loadRead_ends {fd : Int} {cb : FinishCB} (h : Path p (s, m))
    (hsettling : m.settling = none) (hload : s.byLoad = true)
    (hcb : cb = .readMetaData ∨ cb = .readMetaAuxData)
    {Q : Option Nat → EvKQFileMapped → Prop} (hnone : Q none s.tick)
    (hsome : ∀ q : EvAIOReq, q.finishCb = cb → q.state = some serial → q.cancelled = false →
      Path p ((s.tick.push q).hold, { m with unrecorded := m.unrecorded ++ [q.key] }) →
      Q (some q.id) (s.tick.push q)) :
    Ends (threadAIOFileMb env (loadRead fd cb serial)) s Q (Stopped p) := by
  refine threadAIOFileMb_ends hnone (fun f t hf ht => ?_) (fun id hq => ?_) rfl
  · have hpath : Path p (t, m) := by
      rcases ht with rfl | rfl
      · exact h
      · exact path_tick h
    rcases hf with rfl | rfl <;> exact stopped hpath trivial
  · have hstateless : cb.stateless = false := by
      rcases hcb with rfl | rfl <;> rfl
    have hissue := issue_path h hsettling hq rfl (by simp [loadRead, hstateless]) (.load hcb hload)
    rw [submit_pending _ _ rfl, Mode.issue, if_neg (by simp [loadRead])] at hissue
    exact hsome _ rfl rfl rfl hissue

theorem loadState_path {metaId auxId : Nat} {q : EvAIOReq} {aux : Bool}
    {keys : List (Engine × Nat)} (ownerId : Int) (hasCb : Bool)
    (h : Path p (s, { Mode.idle with unrecorded := q.key :: keys }))
    (hq : q ∈ s.live) (hstate : q.state = some s.nextState) (hid : q.id = metaId)
    (haux : aux = true → ∃ o ∈ s.live, o.state = some s.nextState ∧ o.id = auxId ∧
      keys = [o.key]) :
    Ends (do
      let serial ← aioStateNew ownerId hasCb
      aioStatePendingAdd serial metaId false
      if !aux then
        note (.phantom serial)
      aioStatePendingAdd serial auxId false
      modify fun s => { s with loadAiostate := some serial, loading := true }
      note (.reported serial)) s (fun _ t => Path p (t, .idle)) (Stopped p) := by
  have hnew := h.tail (.stateNew ownerId hasCb (.inl rfl) rfl)
  have hlive {u : EvKQFileMapped} {o : EvAIOReq} (hu : u.aio = s.aio) (ho : o ∈ s.live) :
      o ∈ u.live := by
    simpa only [EvKQFileMapped.live, hu] using ho
  rw [ends_bind]
  refine aioStateNew_ends ?_ (stopped h trivial)
  rw [ends_bind]
  have hlisted : Listed (s.withState ownerId hasCb) s.nextState := ⟨_, mem_cons_self, rfl⟩
  have hpair : Pairs (s.withState ownerId hasCb)
      { Mode.idle with building := some s.nextState, unrecorded := q.key :: keys } s.nextState
      metaId q :=
    ⟨hlive rfl hq, hstate, by rw [hid], mem_cons_self⟩
  refine (pendingAdd_path _ hnew hlisted (.inl ⟨q, hpair, rfl⟩)).imp fun _ t ht => ?_
  obtain ⟨hpath, haio, hlog, hstates⟩ := ht
  rw [erase_cons_head] at hpath
  have hlisted' : Listed t s.nextState := by
    obtain ⟨st, hst, hserial, -⟩ := listed_add hstates hlisted
    exact ⟨st, hst, hserial⟩
  have hend {u v : EvKQFileMapped} (hv : Path p (v,
      { Mode.idle with building := some s.nextState, unrecorded := [] }))
      (hu : Listed u s.nextState)
      (hstates : v.aioStateList = (u.setState s.nextState (.add auxId)).aioStateList) :
      Path p ({ v with loadAiostate := some s.nextState, loading := true }.note
        (.reported s.nextState), .idle) := by
    have hquiet : Path p ({ v with loadAiostate := some s.nextState, loading := true },
        { Mode.idle with building := some s.nextState, unrecorded := [] }) := path_calm hv .quiet
    exact hquiet.tail (.report rfl (listed_add hstates hu))
  cases aux with
  | true =>
      obtain ⟨o, ho, hostate, hoid, rfl⟩ := haux rfl
      simp only [Bool.not_true, Bool.false_eq_true, if_false, ends_bind]
      have hpair' : Pairs t { Mode.idle with
          building := some s.nextState, unrecorded := [o.key] } s.nextState auxId o :=
        ⟨hlive haio ho, hostate, by rw [hoid], mem_singleton_self _⟩
      refine (pendingAdd_path _ hpath hlisted' (.inl ⟨o, hpair', rfl⟩)).imp fun _ u hu => ?_
      obtain ⟨hpath', -, -, hstates'⟩ := hu
      rw [erase_cons_head] at hpath'
      exact hend hpath' hlisted' hstates'
  | false =>
      simp only [Bool.not_false, if_true, ends_bind, ends_note]
      have hphantom := path_note hpath (.phantom s.nextState) rfl
      have hastray : Astray (t.note (.phantom s.nextState)).log :=
        .inr (.inr ⟨s.nextState, mem_append_right _ (mem_singleton_self _)⟩)
      refine (pendingAdd_path [] hphantom hlisted' (.inr hastray)).imp fun _ u hu => ?_
      obtain ⟨hpath', -, -, hstates'⟩ := hu
      exact hend hpath' hlisted' hstates'

theorem aioLoad_path (hload : s.byLoad = true) (hclosed : s.opened = false)
    (hrequest : s.closeRequest = false) (hwanted : s.closeWanted = false)
    (hbitmap : s.bitmap = none) (haio : s.aio = []) (hfree : s.freed = false)
    (ownerId : Int) (hasCb : Bool) (h : Path p (s, .idle)) :
    Ends (aioLoad env ownerId hasCb) s (fun _ t => Path p (t, .idle)) (Stopped p) := by
  simp only [aioLoad]
  rw [ends_bind]
  refine (openFiles_path h hclosed hrequest hwanted (.inl ⟨hbitmap, haio⟩)).imp
    (fun ok t ht => ?_)
  obtain ⟨hpath, hopening⟩ := ht
  have hempty : t.aio = [] := by
    obtain ⟨clock, metaFd, dataFd, fdAux, metaAuxFile, opened, dataFile, rfl⟩ := hopening
    exact haio
  have hload' : t.byLoad = true := by
    obtain ⟨clock, metaFd, dataFd, fdAux, metaAuxFile, opened, dataFile, rfl⟩ := hopening
    exact hload
  have hfree' : t.freed = false := by
    obtain ⟨clock, metaFd, dataFd, fdAux, metaAuxFile, opened, dataFile, rfl⟩ := hopening
    exact hfree
  rw [ends_ite]
  refine ⟨fun _ => ?_, fun _ => ?_⟩
  · rw [ends_bind]
    exact loadFail_path hpath (.inr (.inl hempty)) rfl
  · rw [ends_bind, ends_get, ends_bind]
    refine loadRead_ends hpath rfl hload' (.inl rfl) ?_
      fun q hfinish hstate hlive hq => ?_
    · exact loadFail_path (path_tick hpath) (.inr (.inl hempty)) rfl
    · rw [ends_bind, ends_lock (by exact hfree')]
      have hmem {u : EvKQFileMapped} {l : List EvAIOReq} (hu : u.aio = t.aio ++ [q] ++ l) :
          q ∈ u.live := mem_live.mpr ⟨by rw [hu]; simp, hlive⟩
      rw [ends_ite]
      refine ⟨fun haux => ?_, fun haux => ?_⟩
      · rw [ends_bind]
        refine loadRead_ends hq rfl hload' (.inr rfl) ?_
          fun o _ hostate holive ho => ?_
        · simp only [ends_bind, ends_modify]
          refine loadFail_path ((path_tick hq).tail (.abortLoad hload' rfl fun o ho => ?_))
            (.inr (.inr (mem_append_right _ (mem_singleton_self _)))) rfl
          have ho' : o ∈ t.aio ++ [q] := ho
          rw [hempty, nil_append, mem_singleton] at ho'
          rw [ho', hfinish]
          rfl
        · rw [ends_bind, ends_lock (by exact hfree'), ends_bind, ends_pure, haux]
          refine loadState_path ownerId hasCb ho
            (hmem (l := [o]) rfl) hstate rfl fun _ => ⟨o, ?_, hostate, rfl, rfl⟩
          exact mem_live.mpr ⟨mem_append_right _ (mem_singleton_self _), holive⟩
      · have hoff : t.metaAuxFile = false := by simpa using haux
        rw [ends_bind, ends_pure, hoff]
        exact loadState_path ownerId hasCb hq
          (hmem (l := []) (append_nil _).symm) hstate rfl (by simp)

theorem create_path (start : Start) :
    Ends (create env start) start.blank (fun _ t => Path (start.blank, .idle) (t, .idle))
      (Stopped (start.blank, .idle)) := by
  cases start with
  | init conf createdWithNew => exact initMap_path .refl rfl rfl rfl rfl rfl
  | load conf ownerId hasCb => exact aioLoad_path rfl rfl rfl rfl rfl rfl rfl ownerId hasCb .refl

end Creation

/-- **Every run is a path.**  So is the part of a run that an abort cut short. -/
theorem run_path (env : Nat → Answer) (depth : Nat) (start : Start) (evs : List Event) :
    Runs.Holds (fun s => Path (start.blank, .idle) (s, .idle)) (Stopped (start.blank, .idle))
      (runFrom env depth start evs) := by
  refine Runs.invariant_run (fun e s h => handle_path (formed_blank start) depth e h) ?_ evs
  rcases exec_of_ends (@create_path env start) with ⟨hnone, _, hpath⟩ | ⟨f, hsome, hstop⟩
  · simpa only [Runs.Holds, created, hnone] using hpath
  · simpa only [Runs.Holds, created, hsome] using hstop

end FileMapped
