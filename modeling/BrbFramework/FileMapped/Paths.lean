import BrbFramework.FileMapped.Formed

/-!
# Every handler is a path

Each handler is executed symbolically once, and what is kept of it is the path
of acts it takes: when it returns, and when it aborts, together with what the
fault tells about the point where it was raised. The statements carry the
start of the path along, so that a caller passes the path it has come so far.

User calls happen in the mode `.calls held`, also from inside a callback, and
end in the mode they began in.
-/

namespace FileMapped

open Relation Handler BrbData Machine List

/-- What a fault tells about the point where it was raised. -/
def Blame (f : Fault) (q : Point) : Prop :=
  match f with
  | .duplicateId => ∃ serial id, (∃ st ∈ q.1.aioStateList, id ∈ st.openIds) ∧
      ((∃ r, Pairs q.1 q.2 serial id r) ∨ Astray q.1.log)
  | .notFound => ∃ r : EvAIOReq, r.state ≠ none ∧ (q.2.settling = some r ∨ Wild q.1.log) ∧
      ∀ st ∈ q.1.aioStateList, st.hasOpen r.id = false
  | _ => True

/-- Where a handler may abort after the path that began at `p`. -/
def Stopped (p : Point) (f : Fault) (t : EvKQFileMapped) : Prop :=
  ∃ m, Path p (t, m) ∧ Blame f (t, m)

/-- The handler goes on from every point the path reaches, and comes back to the
mode of user calls. -/
def Behaves {α : Type} (p : Point) (x : M α) : Prop :=
  ∀ held s, Path p (s, .calls held) →
    Ends x s (fun _ t => Path p (t, .calls held)) (Stopped p)

section Rules

variable {env : Nat → Answer} {s : EvKQFileMapped}

@[simp] theorem ends_ask {Q : Answer → EvKQFileMapped → Prop}
    {E : Fault → EvKQFileMapped → Prop} : Ends (ask env) s Q E ↔ Q (env s.clock) s.tick := Iff.rfl

@[simp] theorem ends_note {Q : PUnit → EvKQFileMapped → Prop}
    {E : Fault → EvKQFileMapped → Prop} (o : Obs) :
    Ends (note o) s Q E ↔ Q PUnit.unit (s.note o) := Iff.rfl

@[simp] theorem ends_deref {Q : EvKQFileMapped → EvKQFileMapped → Prop}
    {E : Fault → EvKQFileMapped → Prop} :
    Ends deref s Q E ↔ (s.freed = false → Q s s) ∧ (s.freed = true → E .useAfterFree s) := by
  simp only [deref, ends_bind, ends_get, ends_assertThat, ends_pure, Bool.not_eq_true',
    Bool.not_eq_false']

end Rules

section Steps

variable {p : Point} {s t : EvKQFileMapped} {m : Mode}

theorem path_calm (h : Path p (s, m)) (hc : Calm m s t) : Path p (t, m) := h.tail (.calm hc)

theorem path_tick (h : Path p (s, m)) : Path p (s.tick, m) := path_calm h .quiet

theorem path_note (h : Path p (s, m)) (o : Obs) (ho : o.calm = true) : Path p (s.note o, m) :=
  path_calm h (.note s o ho)

theorem stopped {f : Fault} (h : Path p (s, m)) (hf : Blame f (s, m)) : Stopped p f s :=
  ⟨m, h, hf⟩

variable {α : Type} {Q : α → EvKQFileMapped → Prop}

theorem deref_path {f : EvKQFileMapped → M α} (h : Path p (s, m))
    (hf : s.freed = false → Ends (f s) s Q (Stopped p)) : Ends (deref >>= f) s Q (Stopped p) := by
  rw [ends_bind, ends_deref]
  exact ⟨hf, fun _ => stopped h trivial⟩

theorem assertThat_path {c : Bool} {fault : Fault} {f : PUnit → M α} (h : Path p (s, m))
    (hfault : Blame fault (s, m)) (hf : c = true → Ends (f ⟨⟩) s Q (Stopped p)) :
    Ends (assertThat c fault >>= f) s Q (Stopped p) := by
  rw [ends_bind, ends_assertThat]
  exact ⟨hf, fun _ => stopped h hfault⟩

end Steps

/-! ## Holds -/

section Holds

variable {p : Point} {s : EvKQFileMapped} {m : Mode} {held : Nat}

theorem internalClean_path (h : Path p (s, { m with dying := true })) (hcount : s.refCount < 0)
    (hm : Mode.Settled { m with dying := true }) :
    Ends internalClean s (fun _ t => Path p (t, { m with dying := false })) (Stopped p) := by
  simp only [internalClean, ends_bind, ends_deref, ends_assertThat, ends_modify]
  refine ⟨fun _ => ⟨fun _ => ?_, fun _ => stopped h trivial⟩, fun _ => stopped h trivial⟩
  exact h.tail (.clean rfl hcount hm)

theorem release_path (h : Path p (s, m)) (hm : m.Settled) (who : Holder)
    (free : EvKQFileMapped → Bool) (hheld : who ≠ .user → 0 < m.held)
    (huser : who = .user → Called (·.releases) s.log)
    (hmeta : ∀ cb, who = .finish cb → cb.writesMeta = true → Tried s) :
    Ends (release who free) s (fun _ t => Path p (t, m.back who false)) (Stopped p) := by
  have hback := h.tail (.back who hheld huser hmeta)
  simp only [release, ends_bind, ends_deref, ends_set]
  refine ⟨fun _ => ?_, fun _ => stopped h trivial⟩
  rw [ends_ite]
  refine ⟨fun hkept => ?_, fun hlast => ?_⟩
  · have hpos : decide (s.refCount ≤ 0) = false := by simpa using hkept
    rw [hpos] at hback
    exact hback
  · have hneg : decide (s.refCount ≤ 0) = true := by simpa using hlast
    rw [hneg] at hback
    simp only [ends_bind]
    have hcount : (s.giveBack who).refCount < 0 := by
      simp only [EvKQFileMapped.giveBack, EvKQFileMapped.note]
      omega
    refine (internalClean_path (m := m.back who true) hback hcount
      ⟨hm.aborted, hm.building, hm.settling⟩).imp fun _ t ht => ?_
    exact path_calm ht .quiet

theorem unlock_finish_path {cb : FinishCB} (hcb : cb.writesMeta = false)
    (h : Path p (s, .calls (held + 1))) :
    Ends (unlock (.finish cb)) s (fun _ t => Path p (t, .calls held)) (Stopped p) :=
  release_path h ⟨rfl, rfl, rfl⟩ _ _ (fun _ => Nat.succ_pos _) (by simp)
    (by rintro cb' hcb' hmeta; simp_all)

theorem unlock_user_path (h : Path p (s, .calls held)) (hcall : Called (·.releases) s.log) :
    Ends (unlock .user) s (fun _ t => Path p (t, .calls held)) (Stopped p) :=
  release_path h ⟨rfl, rfl, rfl⟩ _ _ (by simp) (fun _ => hcall) (by simp)

theorem clean_path (h : Path p (s, .calls held)) (hcall : Called (·.releases) s.log) :
    Ends clean s (fun _ t => Path p (t, .calls held)) (Stopped p) :=
  release_path h ⟨rfl, rfl, rfl⟩ _ _ (by simp) (fun _ => hcall) (by simp)

theorem destroy_path (h : Path p (s, .calls held)) (hcall : Called (·.releases) s.log) :
    Ends destroy s (fun _ t => Path p (t, .calls held)) (Stopped p) := by
  simp only [destroy, ends_bind, ends_deref, ends_set]
  refine ⟨fun _ => ?_, fun _ => stopped h trivial⟩
  exact release_path (path_calm h .quiet) ⟨rfl, rfl, rfl⟩ _ _ (by simp) (fun _ => hcall) (by simp)

end Holds

/-! ## Submissions -/

/-- `q` is the request `r` as an engine took it. -/
structure Taken (s : EvKQFileMapped) (r q : EvAIOReq) : Prop where
  fresh : ∀ o ∈ s.aio, o.key ≠ q.key
  same : ∃ e i u d, q = { r with engine := e, id := i, queued := u, performed := d }
  engine : q.engine = .kq → s.threadedAio = false
  done : q.queued = false → q.engine = .kq

/-- What a submission that did not call back leaves. -/
inductive Submission (s : EvKQFileMapped) (r : EvAIOReq) : Submitted → EvKQFileMapped → Prop
  | failed {t} (ht : t = s ∨ t = s.tick) : Submission s r .failed t
  | canceled {q} (hq : q.finishCb = r.finishCb) :
      Submission s r .canceled (s.tick.note (.canceledAtSubmit q))
  | issued {q status} {n : Nat} (hq : Taken s r q) (hmain : q.engine = s.mainEngine)
      (hstatus : status = .pending n ∨ (status = .finished n ∧ q.queued = false))
      (hn : n = q.id ∨ (n = 0 ∧ r.finishCb = .readRawData ∧ q.queued = false)) :
      Submission s r status (s.tick.submit q)
  | lost {q} {n : Nat} (hq : Taken s r q) (hthreaded : s.threadedAio = false) :
      Submission s r (.finished n) ((s.tick.execute q []).note (.lost q))

section Submit

variable {env : Nat → Answer} {s : EvKQFileMapped} {r : EvAIOReq}

theorem Taken.fields {q : EvAIOReq} (h : Taken s r q) :
    q.finishCb = r.finishCb ∧ q.data = r.data ∧ q.size = r.size ∧ q.offset = r.offset ∧
      q.state = r.state ∧ q.cancelled = r.cancelled := by
  obtain ⟨e, i, u, d, rfl⟩ := h.same
  exact ⟨rfl, rfl, rfl, rfl, rfl, rfl⟩

theorem submit_pending (s : EvKQFileMapped) (r : EvAIOReq) (h : r.performed = false) :
    s.submit r = s.push r := by
  unfold EvKQFileMapped.submit
  rw [h]
  rfl

theorem key_ne_of_any {engine : Engine} {slot : Nat}
    (h : ¬(s.aio.any fun q => q.key == (engine, slot)) = true) :
    ∀ o ∈ s.aio, o.key ≠ (engine, slot) := by
  intro o ho hkey
  exact h (any_eq_true.mpr ⟨o, ho, by simpa using hkey⟩)

theorem threadSubmit_ends {Q : Option Nat → EvKQFileMapped → Prop}
    {E : Fault → EvKQFileMapped → Prop} (hnone : Q none s.tick) (hzero : E .zeroSize s.tick)
    (hsome : ∀ id, Taken s r { r with engine := .thread, id := id } →
      Q (some id) (s.tick.push { r with engine := .thread, id := id }))
    (hqueued : r.queued = true) : Ends (threadSubmit env r) s Q E := by
  simp only [threadSubmit, ends_bind, ends_ask, ends_get]
  rw [ends_ite]
  refine ⟨fun _ => hnone, fun hany => ?_⟩
  simp only [ends_bind, ends_assertThat]
  refine ⟨fun _ => ?_, fun _ => hzero⟩
  rw [ends_ite]
  refine ⟨fun _ => hnone, fun _ => ?_⟩
  exact hsome _ ⟨key_ne_of_any (s := s.tick) hany, ⟨.thread, _, r.queued, r.performed, rfl⟩,
    by simp, by simp [hqueued]⟩

theorem threadAIOFile_ends {Q : Option Nat → EvKQFileMapped → Prop}
    {E : Fault → EvKQFileMapped → Prop} (hnone : ∀ t, t = s ∨ t = s.tick → Q none t)
    (hzero : E .zeroSize s.tick)
    (hsome : ∀ id, Taken s r { r with engine := .thread, id := id } →
      Q (some id) (s.tick.push { r with engine := .thread, id := id }))
    (hqueued : r.queued = true) : Ends (threadAIOFile env r) s Q E := by
  simp only [threadAIOFile]
  rw [ends_ite]
  exact ⟨fun _ => hnone s (.inl rfl),
    fun _ => threadSubmit_ends (hnone _ (.inr rfl)) hzero hsome hqueued⟩

theorem threadAIOFileMb_ends {Q : Option Nat → EvKQFileMapped → Prop}
    {E : Fault → EvKQFileMapped → Prop} (hnone : Q none s.tick)
    (hbad : ∀ f t, (f = .badDescriptor ∨ f = .zeroSize) → (t = s ∨ t = s.tick) → E f t)
    (hsome : ∀ id, Taken s r { r with engine := .thread, id := id } →
      Q (some id) (s.tick.push { r with engine := .thread, id := id }))
    (hqueued : r.queued = true) : Ends (threadAIOFileMb env r) s Q E := by
  simp only [threadAIOFileMb, ends_bind, ends_assertThat]
  refine ⟨fun _ => ⟨fun _ => ?_, fun _ => hbad _ _ (.inr rfl) (.inl rfl)⟩,
    fun _ => hbad _ _ (.inl rfl) (.inl rfl)⟩
  exact threadSubmit_ends hnone (hbad _ _ (.inr rfl) (.inr rfl)) hsome hqueued

theorem kqAIOFileWrite_ends {notify : EvAIOReq → M Unit}
    {Q : Submitted → EvKQFileMapped → Prop} {E : Fault → EvKQFileMapped → Prop}
    (hthreaded : s.threadedAio = false)
    (hQ : ∀ status t, Submission s r status t → Q status t) (hzero : E .zeroSize s.tick)
    (hnotify : ∀ id, Ends (notify { r with engine := .kq, id := id })
      ((s.tick.note (.failedNotified { r with engine := .kq, id := id })).enter)
      (fun _ t => Q .failed t) E)
    (hperformed : r.performed = false) :
    Ends (kqAIOFileWrite env notify r) s Q E := by
  have hmain : s.mainEngine = .kq := by simp [EvKQFileMapped.mainEngine, hthreaded]
  simp only [kqAIOFileWrite]
  rw [ends_ite]
  refine ⟨fun _ => hQ _ _ (.failed (.inl rfl)), fun _ => ?_⟩
  simp only [ends_bind, ends_ask, ends_get]
  rw [ends_ite]
  refine ⟨fun _ => hQ _ _ (.failed (.inr rfl)), fun hany => ?_⟩
  have hfresh := key_ne_of_any (s := s.tick) hany
  simp only [ends_bind, ends_assertThat]
  refine ⟨fun _ => ?_, fun _ => hzero⟩
  cases (env s.clock).kernel with
  | pending =>
      simp only [ends_bind, ends_modify, ends_pure]
      have hq : Taken s r { r with engine := .kq, id := (env s.clock).slot } :=
        ⟨hfresh, ⟨_, _, r.queued, r.performed, rfl⟩, fun _ => hthreaded, fun _ => rfl⟩
      have hsubmit := hQ _ _ (.issued hq hmain.symm (.inl rfl) (.inl rfl))
      rwa [submit_pending _ { r with engine := .kq, id := _ } hperformed] at hsubmit
  | refused =>
      simp only [ends_bind, ends_modify, ends_pure]
      exact hnotify _
  | canceled =>
      simp only [ends_bind, ends_note, ends_pure]
      exact hQ _ _ (.canceled (q := { r with engine := .kq, id := (env s.clock).slot }) rfl)
  | finished job =>
      cases job with
      | true =>
          simp only [ends_bind, ends_modify, ends_pure]
          exact hQ _ _ (.issued (q := { r with
              engine := .kq, id := (env s.clock).slot, queued := false, performed := true })
            ⟨hfresh, ⟨_, _, _, _, rfl⟩, fun _ => hthreaded, fun _ => rfl⟩ hmain.symm
            (.inr ⟨rfl, rfl⟩) (.inl rfl))
      | false =>
          simp only [ends_bind, ends_modify, ends_pure]
          exact hQ _ _ (.lost (q := { r with engine := .kq, id := (env s.clock).slot })
            ⟨hfresh, ⟨_, _, r.queued, r.performed, rfl⟩, fun _ => hthreaded, fun _ => rfl⟩
            hthreaded)

/-- The synchronous failure of a submission, as `fileWrite` and `fileRead` meet it. -/
abbrev Notifies (s : EvKQFileMapped) (r : EvAIOReq) (notify : EvAIOReq → M Unit)
    (Q : Submitted → EvKQFileMapped → Prop) (E : Fault → EvKQFileMapped → Prop) : Prop :=
  s.threadedAio = false → ∀ id, Ends (notify { r with engine := .kq, id := id })
    ((s.tick.note (.failedNotified { r with engine := .kq, id := id })).enter)
    (fun _ t => Q .failed t) E

theorem threaded_submission {Q : Submitted → EvKQFileMapped → Prop}
    {E : Fault → EvKQFileMapped → Prop} (hthreaded : s.threadedAio = true)
    (hQ : ∀ status t, Submission s r status t → Q status t) (hzero : E .zeroSize s.tick)
    (hqueued : r.queued = true) (hperformed : r.performed = false) :
    Ends (threadAIOFile env r) s (fun o t =>
      Q (match o with | none => .failed | some id => .pending id) t) E := by
  have hmain : s.mainEngine = .thread := by simp [EvKQFileMapped.mainEngine, hthreaded]
  refine threadAIOFile_ends (fun t ht => hQ _ _ (.failed ht)) hzero (fun id hq => ?_) hqueued
  have hsubmit := hQ _ _ (.issued hq hmain.symm (.inl rfl) (.inl rfl))
  rwa [submit_pending _ { r with engine := .thread, id := id } hperformed] at hsubmit

theorem fileWrite_ends {notify : EvAIOReq → M Unit}
    {Q : Submitted → EvKQFileMapped → Prop} {E : Fault → EvKQFileMapped → Prop}
    (hQ : ∀ status t, Submission s r status t → Q status t)
    (hstop : ∀ f t, (f = .zeroSize ∨ f = .useAfterFree) → (t = s ∨ t = s.tick) → E f t)
    (hnotify : Notifies s r notify Q E) (hqueued : r.queued = true)
    (hperformed : r.performed = false) : Ends (fileWrite env notify r) s Q E := by
  simp only [fileWrite, ends_bind, ends_deref]
  refine ⟨fun _ => ?_, fun _ => hstop _ _ (.inr rfl) (.inl rfl)⟩
  have hzero := hstop _ _ (.inl rfl) (.inr rfl)
  rw [ends_ite]
  refine ⟨fun hthreaded => ?_, fun hthreaded => ?_⟩
  · simp only [ends_bind]
    refine (threaded_submission hthreaded hQ hzero hqueued hperformed).imp fun o t ht => ?_
    cases o <;> exact ht
  · have hkernel : s.threadedAio = false := by simpa using hthreaded
    exact kqAIOFileWrite_ends hkernel hQ hzero (hnotify hkernel) hperformed

theorem fileRead_ends {notify : EvAIOReq → M Unit}
    {Q : Submitted → EvKQFileMapped → Prop} {E : Fault → EvKQFileMapped → Prop}
    (hcb : r.finishCb = .readRawData)
    (hQ : ∀ status t, Submission s r status t → Q status t)
    (hstop : ∀ f t, (f = .zeroSize ∨ f = .useAfterFree) → (t = s ∨ t = s.tick) → E f t)
    (hnotify : Notifies s r notify Q E) (hqueued : r.queued = true)
    (hperformed : r.performed = false) : Ends (fileRead env notify r) s Q E := by
  simp only [fileRead, ends_bind, ends_deref]
  refine ⟨fun _ => ?_, fun _ => hstop _ _ (.inr rfl) (.inl rfl)⟩
  have hzero := hstop _ _ (.inl rfl) (.inr rfl)
  rw [ends_ite]
  refine ⟨fun hthreaded => ?_, fun hthreaded => ?_⟩
  · simp only [ends_bind]
    refine (threaded_submission hthreaded hQ hzero hqueued hperformed).imp fun o t ht => ?_
    cases o <;> exact ht
  · have hkernel : s.threadedAio = false := by simpa using hthreaded
    simp only [kqAIOFileRead, ends_bind]
    refine kqAIOFileWrite_ends hkernel (fun status t ht => ?_) hzero (fun id => ?_) hperformed
    · cases ht with
      | failed ht => exact hQ _ _ (.failed ht)
      | canceled hq => exact hQ _ _ (.canceled hq)
      | issued hq hmain hstatus hn =>
          rcases hstatus with rfl | ⟨rfl, hdone⟩
          · exact hQ _ _ (.issued hq hmain (.inl rfl) hn)
          · exact hQ _ _ (.issued hq hmain (.inr ⟨rfl, hdone⟩) (.inr ⟨rfl, hcb, hdone⟩))
      | lost hq hthreaded => exact hQ _ _ (.lost hq hthreaded)
    · exact (hnotify hkernel id).imp fun _ t ht => ht

end Submit

/-! ## Pending lists -/

def Mode.build (held serial : Nat) : Mode := { held := held, building := some serial }

/-- The AIO state is on the list, and every open id has a request of its own. -/
structure Builds (s : EvKQFileMapped) (serial : Nat) : Prop where
  listed : Listed s serial
  serves : ∀ st ∈ s.aioStateList, st.serial = serial →
    st.openIds.Nodup ∧ ∀ id ∈ st.openIds, ∃ r ∈ s.live, s.Serves serial id r

/-- What a submission for an AIO state that is being filled needs. -/
structure Submits (s : EvKQFileMapped) (serial : Nat) (r : EvAIOReq) : Prop where
  live : r.cancelled = false
  queued : r.queued = true
  performed : r.performed = false
  state : r.state = some serial
  purpose : ∀ q, Taken s r q → Purpose s q

section Pending

variable {p : Point} {s t : EvKQFileMapped} {m : Mode} {r : EvAIOReq} {held serial : Nat}

theorem Purpose.tick (h : Purpose s r) : Purpose s.tick r := by
  cases h with
  | write hcb hsrc =>
      refine .write hcb ?_
      cases hsrc with
      | bytes l hslice hdata hsize halign => exact .bytes l hslice hdata hsize halign
      | page page hp hdata hsize blockIdx hoff hidx hfull =>
          exact .page page hp hdata hsize blockIdx hoff hidx hfull
  | complete hcb hlog => exact .complete hcb hlog
  | read hcb => exact .read hcb
  | load hcb hload => exact .load hcb hload

theorem issue_path {q : EvAIOReq} (h : Path p (s, m)) (hsettling : m.settling = none)
    (hq : Taken s r q) (hlive : r.cancelled = false)
    (hstateless : r.state = none ↔ r.finishCb.stateless = true)
    (hpurpose : Purpose s q) : Path p ((s.tick.submit q).hold, m.issue q) := by
  obtain ⟨hcb, -, -, -, hstate, hcancelled⟩ := hq.fields
  refine (path_tick h).tail (.issue ⟨hq.fresh, hcancelled.trans hlive, hq.engine, ?_⟩ hpurpose.tick
    hsettling)
  rw [hcb, hstate]
  exact hstateless

theorem ends_lock {Q : PUnit → EvKQFileMapped → Prop} {E : Fault → EvKQFileMapped → Prop}
    (hfree : s.freed = false) : Ends lock s Q E ↔ Q PUnit.unit s.hold := by
  simp [lock, hfree, EvKQFileMapped.hold]

theorem aioStateGetByAIOReqID_ends {id : Int}
    {Q : Option EvKQFileMappedAIOState → EvKQFileMapped → Prop}
    {E : Fault → EvKQFileMapped → Prop}
    (hsome : ∀ st ∈ s.aioStateList, st.hasOpen id = true → Q (some st) s)
    (hnone : (0 ≤ id → ∀ st ∈ s.aioStateList, st.hasOpen id = false) → Q none s)
    (hstop : ∀ f, f = .listLimit ∨ f = .useAfterFree → E f s) :
    Ends (aioStateGetByAIOReqID id) s Q E := by
  simp only [aioStateGetByAIOReqID, ends_bind, ends_deref]
  refine ⟨fun _ => ?_, fun _ => hstop _ (.inr rfl)⟩
  rw [ends_ite]
  refine ⟨fun hneg => hnone fun hpos => by omega, fun _ => ?_⟩
  cases hfind : (s.aioStateList.take 8092).find? (·.hasOpen id) with
  | some st =>
      exact hsome st (mem_of_mem_take (mem_of_find?_eq_some hfind))
        (by simpa using find?_some hfind)
  | none =>
      simp only [ends_bind, ends_assertThat, ends_pure]
      refine ⟨fun hlen => hnone fun _ st hst => ?_, fun _ => hstop _ (.inl rfl)⟩
      rw [take_of_length_le (by simpa using hlen)] at hfind
      simpa using find?_eq_none.mp hfind st hst

theorem aioStatePendingAdd_ends {id : Int} {write : Bool} {Q : PUnit → EvKQFileMapped → Prop}
    {E : Fault → EvKQFileMapped → Prop}
    (hadd : (0 ≤ id → ∀ st ∈ s.aioStateList, id ∉ st.openIds) → ∀ n : Int,
      Q PUnit.unit { s.setState serial (.add id) with pendingRawWrite := n })
    (hdup : ∀ st ∈ s.aioStateList, id ∈ st.openIds → E .duplicateId s)
    (hstop : ∀ f, f = .listLimit ∨ f = .useAfterFree → E f s) :
    Ends (aioStatePendingAdd serial id write) s Q E := by
  simp only [aioStatePendingAdd, ends_bind]
  refine aioStateGetByAIOReqID_ends (fun st hst hid => ?_) (fun hnone => ?_) hstop
  · exact hdup st hst (EvKQFileMappedAIOState.hasOpen_iff.mp hid)
  · have hnew : 0 ≤ id → ∀ st ∈ s.aioStateList, id ∉ st.openIds := by
      intro hpos st hst hmem
      have := hnone hpos st hst
      rw [EvKQFileMappedAIOState.hasOpen_iff.mpr hmem] at this
      cases this
    simp only [ends_bind, ends_modify]
    rw [ends_ite]
    exact ⟨fun _ => hadd hnew _, fun _ => hadd hnew s.pendingRawWrite⟩

theorem listed_add {u : EvKQFileMapped} {id : Int}
    (hstates : u.aioStateList = (s.setState serial (.add id)).aioStateList)
    (h : Listed s serial) :
    ∃ st ∈ u.aioStateList, st.serial = serial ∧ st.pendingReq ≠ [] := by
  obtain ⟨st, hst, hserial⟩ := h
  refine ⟨st.add id, ?_, hserial, by simp [EvKQFileMappedAIOState.add]⟩
  rw [hstates]
  exact mem_map.mpr ⟨st, hst, if_pos hserial⟩

theorem builds_add {q : EvAIOReq} (h : Builds s serial) (hq : Taken s r q)
    (hmain : q.engine = s.mainEngine) (hlive : r.cancelled = false)
    (hstate : r.state = some serial) {u : EvKQFileMapped}
    (hnew : ∀ st ∈ s.aioStateList, (q.id : Int) ∉ st.openIds)
    (haio : u.aio = s.aio ++ [q]) (hthreaded : u.threadedAio = s.threadedAio)
    (hstates : u.aioStateList = (s.setState serial (.add q.id)).aioStateList) :
    Builds u serial := by
  obtain ⟨-, -, -, -, hqstate, hcancelled⟩ := hq.fields
  have hmem {o : EvAIOReq} (ho : o ∈ s.live) : o ∈ u.live := by
    obtain ⟨ho, hlive⟩ := mem_live.mp ho
    exact mem_live.mpr ⟨haio ▸ mem_append_left _ ho, hlive⟩
  have hserves {o : EvAIOReq} {id : Int} (ho : s.Serves serial id o) : u.Serves serial id o := by
    obtain ⟨hstate, hid, hengine⟩ := ho
    refine ⟨hstate, hid, ?_⟩
    unfold EvKQFileMapped.mainEngine
    rw [hthreaded]
    exact hengine
  refine ⟨?_, fun st hst hserial => ?_⟩
  · obtain ⟨st, hst, hserial, -⟩ := listed_add hstates h.listed
    exact ⟨st, hst, hserial⟩
  rw [hstates] at hst
  rcases mem_setState hst with ⟨-, hne⟩ | ⟨st', hst', hserial', rfl⟩
  · exact absurd hserial hne
  · obtain ⟨hnodup, hids⟩ := h.serves st' hst' hserial'
    rw [EvKQFileMappedAIOState.add_openIds (Int.natCast_nonneg _)]
    refine ⟨nodup_append'.mpr ⟨hnodup, nodup_singleton _, ?_⟩, fun id hid => ?_⟩
    · refine disjoint_left.mpr fun id hid hid' => hnew st' hst' ?_
      rwa [← mem_singleton.mp hid']
    · rcases mem_append.mp hid with hold | hnew
      · obtain ⟨o, ho, hoserves⟩ := hids id hold
        exact ⟨o, hmem ho, hserves hoserves⟩
      · obtain rfl := mem_singleton.mp hnew
        refine ⟨q, mem_live.mpr ⟨by rw [haio]; simp, hcancelled.trans hlive⟩, ?_⟩
        exact hserves ⟨hqstate.trans hstate, rfl, hmain⟩

theorem recordPending_path {status : Submitted} {n : Nat} (write : Bool)
    (hfree : s.freed = false) (h : Path p (s, .build held serial))
    (hbuilds : Builds s serial ∨ Wild s.log ∨ r.finishCb = .readRawData)
    (hlisted : Listed s serial ∨ Wild s.log) (hr : Submits s serial r) (hsub : Submission s r status t)
    (hstateless : r.finishCb.stateless = false)
    (hstatus : status = .pending n ∨ status = .finished n) :
    Ends (do lock; aioStatePendingAdd serial n write) t
      (fun _ u => Path p (u, .build held serial) ∧
        (Builds u serial ∨ Wild u.log ∨ r.finishCb = .readRawData) ∧
        (Listed s serial →
          ∃ st ∈ u.aioStateList, st.serial = serial ∧ st.pendingReq ≠ [])) (Stopped p) := by
  cases hsub with
  | failed _ => simp at hstatus
  | canceled _ => simp at hstatus
  | @issued q _ n' hq hmain hstatus' hn =>
      obtain rfl : n = n' := by
        rcases hstatus with rfl | rfl
        · simpa using hstatus'
        · have hfinished := hstatus'.resolve_left (by simp)
          simpa using hfinished.1
      obtain ⟨hcb, -, -, -, hstate, hcancelled⟩ := hq.fields
      have hissue := issue_path h rfl hq hr.live (by simp [hr.state, hstateless])
        (hr.purpose q hq)
      have hgrow : Listed (s.tick.submit q).hold serial ∨ Astray (s.tick.submit q).hold.log :=
        hlisted.imp id fun hw => .inl (hw.mono (subset_append_left _ _))
      have hmode : (Mode.build held serial).issue q =
          { Mode.build held serial with unrecorded := [q.key] } := by
        unfold Mode.issue
        rw [if_neg (by rw [hstate, hr.state]; simp)]
        rfl
      rw [hmode] at hissue
      have hlive : q ∈ (s.tick.submit q).hold.live :=
        mem_live.mpr ⟨mem_append_right _ (mem_singleton_self q),
          hcancelled.trans hr.live⟩
      have hpair : (∃ o, Pairs (s.tick.submit q).hold { Mode.build held serial with
            unrecorded := [q.key] } serial n o ∧ [] = [q.key].erase o.key) ∨
          Astray (s.tick.submit q).hold.log := by
        by_cases hid : n = q.id
        · exact .inl ⟨q, ⟨hlive, hstate.trans hr.state, by rw [hid], mem_singleton_self _⟩,
            by simp⟩
        · obtain ⟨rfl, hread, hdone⟩ := hn.resolve_left hid
          refine .inr (.inr (.inl ⟨q, s.tick.aio, ?_, hcb.trans hread, hdone, Ne.symm hid⟩))
          exact mem_append_right _ (mem_singleton_self _)
      simp only [ends_bind]
      rw [ends_lock (by exact hfree)]
      refine aioStatePendingAdd_ends (fun hnew k => ⟨?_, ?_, listed_add rfl⟩)
        (fun st hst hid => ?_) fun f hf => ?_
      · refine path_calm (hissue.tail (.record (Int.natCast_nonneg n)
          (hnew (Int.natCast_nonneg n)) hgrow hpair)) .quiet
      · rcases hbuilds with hbuilds | hwild | hread
        · by_cases hid : n = q.id
          · subst hid
            exact .inl (builds_add hbuilds hq hmain hr.live hr.state
              (hnew (Int.natCast_nonneg _)) rfl rfl rfl)
          · exact .inr (.inr (hn.resolve_left hid).2.1)
        · exact .inr (.inl (hwild.mono (subset_append_left _ _)))
        · exact .inr (.inr hread)
      · refine stopped hissue ⟨serial, n, ⟨st, hst, hid⟩, ?_⟩
        exact hpair.imp (Exists.imp fun _ ho => ho.1) id
      · rcases hf with rfl | rfl <;> exact stopped hissue trivial
  | @lost q n' hq hthreaded =>
      obtain rfl : n' = n := by
        rcases hstatus with hstatus | hstatus
        · cases hstatus
        · simpa using hstatus
      have hwild : Wild ((s.tick.execute q []).note (.lost q)).log :=
        ⟨q, .inr (mem_append_right _ (mem_singleton_self _))⟩
      have hlost := path_calm (path_tick h) (.spend _ q hthreaded (hr.purpose q hq).tick)
      have hleak := hlost.tail (.leak ⟨q, .inl
        (mem_append_right _ (mem_singleton_self _))⟩)
      simp only [ends_bind]
      rw [ends_lock (by exact hfree)]
      refine aioStatePendingAdd_ends (fun hnew n => ⟨?_, .inr (.inl hwild), listed_add rfl⟩)
        (fun st hst hid => ?_) fun f hf => ?_
      · exact path_calm (hleak.tail (.record (Int.natCast_nonneg n')
          (hnew (Int.natCast_nonneg n')) (.inr (.inl hwild)) (.inr (.inl hwild)))) .quiet
      · exact stopped hleak ⟨serial, n', ⟨st, hst, hid⟩, .inr (.inl hwild)⟩
      · rcases hf with rfl | rfl <;> exact stopped hleak trivial

end Pending

/-! ## Metadata -/

section Metadata

variable {env : Nat → Answer} {p : Point} {s : EvKQFileMapped} {held : Nat}

theorem metaWrite_ends {cb : FinishCB} {fd : Int} {data : Data} {size : Int} {again : Bool}
    {Q : Bool → EvKQFileMapped → Prop} {E : Fault → EvKQFileMapped → Prop}
    (hrefused : Q false (s.tick.note (.metaRefused cb s.closeRequest again)))
    (hbad : ∀ f t, (f = .badDescriptor ∨ f = .zeroSize) → (t = s ∨ t = s.tick) → E f t)
    (hissued : ∀ q : EvAIOReq, q.finishCb = cb → q.data = data → q.engine = .thread →
      (cb.stateless = true → Fresh s.tick q) → Q true (s.tick.push q)) :
    Ends (metaWrite env cb fd data size again) s Q E := by
  simp only [metaWrite, ends_bind]
  refine threadAIOFileMb_ends ?_ hbad (fun id hq => ?_) rfl
  · simp only [ends_bind, ends_modify, ends_pure]
    exact hrefused
  · exact hissued _ rfl rfl rfl fun hcb => ⟨hq.fresh, rfl, hq.engine, by simp [hcb]⟩

theorem metaDataRawUpdate_path {closing : Bool}
    (h : Path p (s, { Mode.calls held with closing := closing })) :
    Ends (metaDataRawUpdate env) s (fun _ t =>
      Path p (t, { Mode.calls held with closing := closing }) ∧
        (t.metaRawWriting = true ∨
          Obs.metaRefused .writeMetaRawData s.closeRequest false ∈ t.log)) (Stopped p) := by
  simp only [metaDataRawUpdate, ends_bind, ends_deref, ends_note]
  refine ⟨fun hfree => ?_, fun _ => stopped h trivial⟩
  have hask := h.tail (.ask (.packed s.packMeta) rfl rfl)
  rw [ends_ite]
  refine ⟨fun hwriting => ?_, fun hwriting => ?_⟩
  · simp only [ends_bind, ends_modify, ends_pure]
    exact ⟨hask.tail (.coalesceRaw rfl hwriting rfl), .inl hwriting⟩
  · simp only [ends_bind]
    refine metaWrite_ends ?_ (fun f t hf ht => ?_) fun q hcb hdata hengine hfresh => ?_
    · simp only [Bool.false_eq_true, if_false, ends_pure]
      exact ⟨(path_tick hask).tail (.refuse _ _ _), .inr (mem_append_right _ (by
        simp [EvKQFileMapped.note]))⟩
    · rcases ht with rfl | rfl
      · exact stopped hask (by rcases hf with rfl | rfl <;> trivial)
      · exact stopped (path_tick hask) (by rcases hf with rfl | rfl <;> trivial)
    · simp only [if_true, ends_bind]
      rw [ends_lock (by exact hfree)]
      simp only [ends_modify, ends_pure]
      have hoff : s.metaRawWriting = false := by simpa using hwriting
      exact ⟨(path_tick hask).tail (.issueRaw (hfresh rfl) hcb hengine hdata rfl hoff),
        .inl trivial⟩

theorem metaDataAuxUpdate_path (hp : Formed p) {asked : Option Data}
    (h : Path p (s, { Mode.calls held with asked := asked }))
    (hneed : s.metaAuxNeedUpdate = true)
    (hasked : asked = none ∨ ∃ auxMb, asked = some (.aux auxMb) ∧ s.dataAuxMb = some auxMb) :
    Ends (metaDataAuxUpdate env) s (fun _ t => Path p (t, .calls held)) (Stopped p) := by
  obtain ⟨hoff, hwhy⟩ := (formed_path h hp).needUpdate hneed
  simp only [metaDataAuxUpdate, ends_bind, ends_deref]
  refine ⟨fun hfree => ?_, fun _ => stopped h trivial⟩
  simp only [hneed, Bool.not_true, Bool.false_eq_true, if_false]
  cases hmb : s.dataAuxMb with
  | none => exact stopped h trivial
  | some auxMb =>
      simp only [ends_bind, ends_assertThat, ends_modify]
      refine ⟨fun _ => ?_, fun _ => stopped h trivial⟩
      have htake := h.tail (.auxSlot none s.metaAuxNeedUpdate fun _ => ⟨hoff, hwhy⟩)
      refine metaWrite_ends ?_ (fun f t hf ht => ?_) fun q hcb hdata hengine hfresh => ?_
      · simp only [Bool.false_eq_true, if_false, ends_bind, ends_modify, ends_pure]
        refine ((path_tick htake).tail (.refuse _ _ _)).tail
          (.auxSlot (some auxMb) s.metaAuxNeedUpdate fun _ => ⟨hoff, .inr ?_⟩)
        exact ⟨_, _, _, mem_append_right _ (mem_singleton_self _)⟩
      · rcases ht with rfl | rfl
        · exact stopped htake (by rcases hf with rfl | rfl <;> trivial)
        · exact stopped (path_tick htake) (by rcases hf with rfl | rfl <;> trivial)
      · simp only [if_true, ends_bind]
        rw [ends_lock (by exact hfree)]
        simp only [ends_modify, ends_pure]
        refine (path_tick htake).tail (.issueAux (hfresh rfl) hcb hengine hdata ?_ hoff)
        rcases hasked with rfl | ⟨auxMb', rfl, hmb'⟩
        · refine .inr ⟨rfl, hwhy.resolve_left ?_⟩
          rintro ⟨auxMb', hasked⟩
          cases hasked
        · obtain rfl : auxMb = auxMb' := by simpa using hmb.symm.trans hmb'
          exact .inl rfl

theorem metaDataUpdateAll_path (hp : Formed p) {closing : Bool}
    (h : Path p (s, { Mode.calls held with closing := closing }))
    (hclosing : closing = true → s.closeRequest = true) :
    Ends (metaDataUpdateAll env) s (fun _ t => Path p (t, .calls held)) (Stopped p) := by
  simp only [metaDataUpdateAll, ends_bind]
  refine (metaDataRawUpdate_path h).imp fun _ t ht => ?_
  obtain ⟨hpath, hraw⟩ := ht
  have hcalls : Path p (t, .calls held) := by
    cases closing with
    | false => exact hpath
    | true =>
        refine hpath.tail (.closeAsked ?_ rfl)
        rw [hclosing rfl] at hraw
        exact hraw.elim (fun h => .inr (.inl h)) fun h => .inr (.inr ⟨false, h⟩)
  simp only [ends_deref]
  refine ⟨fun _ => ?_, fun _ => stopped hcalls trivial⟩
  rw [ends_ite]
  refine ⟨fun hneed => ?_, fun _ => hcalls⟩
  simp only [ends_bind, ends_pure]
  have hneed' : t.metaAuxNeedUpdate = true := by
    rw [Bool.and_eq_true] at hneed
    exact hneed.2
  exact metaDataAuxUpdate_path hp hcalls hneed' (.inl rfl)

theorem metaDataUpdateAll_behaves (hp : Formed p) : Behaves p (metaDataUpdateAll env) := by
  intro held s h
  have hcalls : Path p (s, { Mode.calls held with closing := false }) := h
  exact metaDataUpdateAll_path hp hcalls (by simp)

theorem metaAuxWrite_path (hp : Formed p) (auxMb : Option (List UInt8)) :
    Behaves p (metaAuxWrite env auxMb) := by
  intro held s h
  simp only [metaAuxWrite, ends_bind, ends_deref]
  refine ⟨fun _ => ?_, fun _ => stopped h trivial⟩
  cases auxMb with
  | none => exact h
  | some auxMb =>
      simp only [ends_bind, ends_note]
      have hask := h.tail (.ask (.aux auxMb) rfl rfl)
      rw [ends_ite]
      refine ⟨fun hwriting => hask.tail (.coalesceAux rfl hwriting rfl), fun hwriting => ?_⟩
      simp only [ends_bind, ends_modify, ends_pure]
      have hoff : s.metaAuxWriting = false := by simpa using hwriting
      have hslot := hask.tail (.auxSlot (some auxMb) true fun _ => ⟨hoff, .inl ⟨auxMb, rfl⟩⟩)
      exact metaDataAuxUpdate_path hp hslot rfl (.inr ⟨auxMb, rfl, rfl⟩)

theorem close_path (hp : Formed p) : Behaves p (close env) := by
  intro held s h
  simp only [close, ends_bind, ends_deref, ends_set]
  refine ⟨fun _ => ?_, fun _ => stopped h trivial⟩
  exact metaDataUpdateAll_path hp (h.tail (.close _ _)) fun _ => rfl

end Metadata

/-! ## AIO states -/

/-- A finish callback runs, and its request may wait to be checked off. -/
def Mode.finishing (held : Nat) (settling : Option EvAIOReq) : Mode :=
  { held := held, settling := settling }

/-- The request is the one that settles, or the log is wild. -/
def Finishes (s : EvKQFileMapped) (settling : Option EvAIOReq) (r : EvAIOReq) : Prop :=
  settling = some r ∨ (settling = none ∧ Wild s.log)

section States

variable {p : Point} {s : EvKQFileMapped} {held : Nat} {callback : M Unit}

theorem aioStateNotifyInvokeAll_path (hcb : Behaves p callback)
    (l : List EvKQFileMappedAIOStateNotify) :
    Behaves p (aioStateNotifyInvokeAll callback l) := by
  intro held s h
  induction l generalizing s with
  | nil => exact h
  | cons n l ih =>
      simp only [aioStateNotifyInvokeAll, ends_bind, ends_deref]
      refine ⟨fun _ => ?_, fun _ => stopped h trivial⟩
      rw [ends_ite]
      refine ⟨fun _ => ?_, fun _ => ih s h⟩
      rw [ends_bind]
      exact (hcb held s h).imp fun _ t ht => ih t ht

theorem aioStateInvokeAndDestroy_path (hcb : Behaves p callback) {m : Mode}
    (hm : { m with building := none, done := none } = Mode.calls held) (h : Path p (s, m))
    {serial : Nat} (hlast : m.done = none ∨ m.done = some serial) (hlisted : Listed s serial) :
    Ends (aioStateInvokeAndDestroy callback serial) s (fun _ t => Path p (t, .calls held))
      (Stopped p) := by
  have hsettling : m.settling = none := congrArg Mode.settling hm
  have hunrecorded : m.unrecorded = [] := congrArg Mode.unrecorded hm
  simp only [aioStateInvokeAndDestroy, ends_bind, ends_deref]
  refine ⟨fun _ => ?_, fun _ => stopped h trivial⟩
  cases hfind : s.aioStateList.find? (·.serial == serial) with
  | none =>
      obtain ⟨st, hst, hserial⟩ := hlisted
      exact absurd (find?_eq_none.mp hfind st hst) (by simp [hserial])
  | some st =>
      have hst := mem_of_find?_eq_some hfind
      obtain rfl : st.serial = serial := by simpa using find?_some hfind
      simp only [ends_bind, ends_assertThat, ends_set]
      refine ⟨fun hdone => ?_, fun _ => stopped h trivial⟩
      have hfinish := h.tail (.finish hst (by simpa using hdone) hsettling hunrecorded hlast)
      rw [hm] at hfinish
      have hnotify := aioStateNotifyInvokeAll_path hcb st.finishList
      rw [ends_ite]
      refine ⟨fun _ => ?_, fun _ => hnotify held _ hfinish⟩
      rw [ends_bind]
      exact (hcb held _ hfinish).imp fun _ t ht => hnotify held t ht

theorem aioStateCheckFinish_path (hcb : Behaves p callback) {r : EvAIOReq} {error : Bool}
    {settling : Option EvAIOReq} (h : Path p (s, .finishing held settling))
    (hr : Finishes s settling r) (hstate : r.state ≠ none) :
    Ends (aioStateCheckFinish callback r error) s (fun _ t => Path p (t, .calls held))
      (Stopped p) := by
  simp only [aioStateCheckFinish, ends_bind, ends_deref]
  refine ⟨fun _ => ?_, fun _ => stopped h trivial⟩
  cases hfind : s.aioStateList.find? (·.hasOpen r.id) with
  | none =>
      refine stopped h ⟨r, hstate, hr.imp id (·.2), fun st hst => ?_⟩
      simpa using find?_eq_none.mp hfind st hst
  | some st =>
      have hst := mem_of_find?_eq_some hfind
      have hid : st.hasOpen r.id = true := by simpa using find?_some hfind
      simp only [ends_bind, ends_assertThat, ends_set]
      refine ⟨fun _ => ?_, fun _ => stopped h trivial⟩
      have hretire := h.tail (.retire r error hst hid hstate hr rfl)
      refine ⟨fun _ => ?_, fun _ => stopped hretire trivial⟩
      rw [ends_ite]
      refine ⟨fun hlast => ?_, fun hmore => by rwa [Mode.retire, if_neg hmore] at hretire⟩
      rw [Mode.retire, if_pos hlast] at hretire
      have hlisted : Listed (s.setState st.serial (markDone r.id error)) st.serial := by
        have hmem := mem_map_of_mem (f := (·.serial)) hst
        rw [← setState_serials s st.serial (markDone r.id error) fun _ => rfl] at hmem
        exact mem_map.mp hmem
      rw [ends_ite]
      simp only [ends_assertThat, ends_modify, ends_bind]
      refine ⟨fun _ => ⟨fun _ => ?_, fun _ => stopped hretire trivial⟩, fun _ => ?_⟩
      · exact aioStateInvokeAndDestroy_path hcb rfl (path_calm hretire .quiet) (.inr rfl)
          hlisted
      · exact aioStateInvokeAndDestroy_path hcb rfl hretire (.inr rfl) hlisted

theorem mark_path {m : Mode} (h : Path p (s, m))
    (f : EvKQFileMappedAIOState → EvKQFileMappedAIOState)
    (hf : ∀ st, ∃ l c, f st = { st with finishList := l, cancelled := c } ∧
      (c = true → st.cancelled = true ∨ Called (·.cancels) s.log)) (serial : Nat) :
    Path p (s.setState serial f, m) := by
  refine h.tail (.mark _ fun st => ?_)
  split
  · exact hf st
  · exact ⟨st.finishList, st.cancelled, rfl, .inl⟩

theorem notifyFinishAdd_path (aioreqId ownerId : Int) (hasCb : Bool) :
    Behaves p (notifyFinishAdd aioreqId ownerId hasCb) := by
  intro held s h
  simp only [notifyFinishAdd, ends_bind]
  refine aioStateGetByAIOReqID_ends (fun st _ _ => ?_) (fun _ => h) fun f hf => ?_
  · rw [ends_ite]
    exact ⟨fun _ => mark_path h _ (fun st => ⟨_, st.cancelled, rfl, .inl⟩) _, fun _ => h⟩
  · rcases hf with rfl | rfl <;> exact stopped h trivial

theorem notifyFinishCancelByOwner_path (aioreqId ownerId : Int) :
    Behaves p (notifyFinishCancelByOwner aioreqId ownerId) := by
  intro held s h
  simp only [notifyFinishCancelByOwner, ends_bind]
  refine aioStateGetByAIOReqID_ends (fun st _ _ => ?_) (fun _ => h) fun f hf => ?_
  · exact mark_path h _ (fun st => ⟨_, st.cancelled, rfl, .inl⟩) _
  · rcases hf with rfl | rfl <;> exact stopped h trivial

theorem aioStateCancelByAIOReqID_path (aioreqId : Int) (h : Path p (s, .calls held))
    (hcall : Called (·.cancels) s.log) :
    Ends (aioStateCancelByAIOReqID aioreqId) s (fun _ t => Path p (t, .calls held))
      (Stopped p) := by
  simp only [aioStateCancelByAIOReqID, ends_bind]
  refine aioStateGetByAIOReqID_ends (fun st _ _ => ?_) (fun _ => h) fun f hf => ?_
  · exact mark_path h _ (fun st => ⟨st.finishList, true, rfl, fun _ => .inr hcall⟩) _
  · rcases hf with rfl | rfl <;> exact stopped h trivial

theorem aioStateCancelAllByOwner_path (ownerId : Int) (h : Path p (s, .calls held))
    (hcall : Called (·.cancels) s.log) :
    Ends (aioStateCancelAllByOwner ownerId) s (fun _ t => Path p (t, .calls held))
      (Stopped p) := by
  simp only [aioStateCancelAllByOwner, ends_bind, ends_deref, ends_assertThat, ends_set]
  refine ⟨fun _ => ⟨fun _ => h.tail (.mark _ fun st => ?_), fun _ => stopped h trivial⟩,
    fun _ => stopped h trivial⟩
  unfold cancelNotify
  split
  · exact ⟨_, true, rfl, fun _ => .inr hcall⟩
  · exact ⟨_, st.cancelled, rfl, .inl⟩

end States

/-! ## Pages that are complete -/

section Pages

variable {env : Nat → Answer} {p : Point} {s : EvKQFileMapped} {m : Mode} {held : Nat}

theorem bitSet_path (h : Path p (s, m)) {i : Int}
    (hbit : (∃ r, m.settling = some r ∧ Marks s.pageSz r i) ∨ Called (·.completes) s.log) :
    Ends (bitSet i) s (fun _ t => Path p (t, m) ∧ t.pageSz = s.pageSz) (Stopped p) := by
  simp only [bitSet, ends_bind, ends_deref]
  refine ⟨fun _ => ?_, fun _ => stopped h trivial⟩
  cases hb : s.bitmap with
  | none => exact ⟨h, rfl⟩
  | some b =>
      simp only [ends_bind, ends_assertThat, ends_set]
      refine ⟨fun hi => ⟨?_, trivial⟩, fun _ => stopped h trivial⟩
      exact path_calm h (.bit hb (by simpa using hi) hbit)

theorem int32_succ (n : Nat) : int32 (int32 n + 1) = int32 (n + 1 : Nat) := by
  unfold int32
  rw [Int.bmod_add_bmod]
  rfl

theorem markBlocks_path {r : EvAIOReq} {pageSz : Nat} (hr : m.settling = some r)
    (hcb : r.finishCb = .writeRawData) (count j : Nat) (hj : j + count ≤ r.size.toNat / pageSz)
    (h : Path p (s, m)) (hpage : s.pageSz = pageSz) :
    Ends (markBlocks ((r.offset + r.size.toNat) / pageSz)
      (int32 (r.offset / pageSz + j : Nat)) count) s (fun _ t => Path p (t, m)) (Stopped p) := by
  induction count generalizing j s with
  | zero => exact h
  | succ count ih =>
      simp only [markBlocks]
      rw [ends_ite]
      refine ⟨fun hlt => ?_, fun _ => h⟩
      have hmarks : Marks pageSz r (int32 (r.offset / pageSz + j : Nat)) :=
        ⟨hcb, hlt, j, by omega, rfl⟩
      have hbit : Marks s.pageSz r (int32 (r.offset / pageSz + j : Nat)) := by
        rw [hpage]
        exact hmarks
      simp only [ends_bind]
      refine (bitSet_path h (.inl ⟨r, hr, hbit⟩)).imp fun _ t ht => ?_
      obtain ⟨hpath, hpage'⟩ := ht
      simp only [ends_deref]
      refine ⟨fun _ => ?_, fun _ => stopped hpath trivial⟩
      have hnext : int32 (int32 (r.offset / pageSz + j : Nat) + 1) =
          int32 (r.offset / pageSz + (j + 1) : Nat) := by
        rw [← Nat.add_assoc]
        exact int32_succ (r.offset / pageSz + j)
      cases hget : t.partialGetByIdx (int32 (r.offset / pageSz + j : Nat)) with
      | none =>
          simp only
          rw [hnext]
          exact ih (j + 1) (by omega) hpath (hpage'.trans hpage)
      | some page =>
          have hmem := mem_of_find?_eq_some hget
          have hidx : int32 (r.offset / pageSz + j : Nat) = page.userInt := by
            simpa using find?_some hget
          simp only [ends_bind, partialDrop, ends_deref, ends_set]
          refine ⟨fun _ => ?_, fun _ => stopped hpath trivial⟩
          rw [hnext]
          refine ih (j + 1) (by omega) (path_calm hpath (.drop hmem hr ?_)) (hpage'.trans hpage)
          rw [hpage', hpage, ← hidx]
          exact hmarks

end Pages

/-! ## Completing the store -/

section Complete

variable {env : Nat → Answer} {p : Point} {s t : EvKQFileMapped} {held : Nat}

theorem notified_path (h : Path p (s, .calls held)) (hthreaded : s.threadedAio = false)
    (r : EvAIOReq) :
    Path p ((s.tick.note (.failedNotified r)).enter, .calls (held + 1)) :=
  (path_tick h).tail (.notified hthreaded)

/-- The write of a partial page when the store completes. -/
structure Completes (s : EvKQFileMapped) (r : EvAIOReq) : Prop where
  live : r.cancelled = false
  queued : r.queued = true
  performed : r.performed = false
  state : r.state = none
  finishCb : r.finishCb = .genericUnlock

theorem lock_bitSet_path {r : EvAIOReq} {status : Submitted} (h : Path p (s, .calls held))
    (hfree : s.freed = false) (hcall : Called (·.completes) s.log) (hr : Completes s r)
    (hsub : Submission s r status t) (hstatus : status ≠ .failed) (i : Int) :
    Ends (do lock; bitSet i) t (fun _ u => Path p (u, .calls held)) (Stopped p) := by
  have hgrow (o : Obs) : Called (·.completes) (s.log ++ [o]) :=
    hcall.mono (subset_append_left _ _)
  have hset {u : EvKQFileMapped} (hu : Path p (u, .calls held))
      (hcall : Called (·.completes) u.log) :
      Ends (bitSet i) u (fun _ u => Path p (u, .calls held)) (Stopped p) :=
    (bitSet_path hu (.inr hcall)).imp fun _ _ h => h.1
  cases hsub with
  | failed _ => exact absurd rfl hstatus
  | @canceled q hq =>
      simp only [ends_bind]
      rw [ends_lock (by exact hfree)]
      refine hset ((path_note (path_tick h) _ rfl).tail (.leak ⟨q, .inr ⟨?_, ?_⟩⟩)) (hgrow _)
      · exact mem_append_right _ (mem_singleton_self _)
      · exact hq.trans hr.finishCb
  | @issued q _ n hq hmain hstatus' hn =>
      obtain ⟨hcb, -, -, -, hstate, -⟩ := hq.fields
      have hissue := issue_path h rfl hq hr.live
        (by simp [hr.state, hr.finishCb, FinishCB.stateless]) (.complete (hcb.trans hr.finishCb) hcall)
      have hmode : (Mode.calls held).issue q = .calls held := if_pos (hstate.trans hr.state)
      rw [hmode] at hissue
      simp only [ends_bind]
      rw [ends_lock (by exact hfree)]
      exact hset hissue (hgrow _)
  | @lost q n hq hthreaded =>
      have hpurpose : Purpose s q := .complete (hq.fields.1.trans hr.finishCb) hcall
      simp only [ends_bind]
      rw [ends_lock (by exact hfree)]
      refine hset ((path_calm (path_tick h) (.spend _ q hthreaded hpurpose.tick)).tail
        (.leak ⟨q, .inl ?_⟩)) (hgrow _)
      exact mem_append_right _ (mem_singleton_self _)

theorem fileWrite_lock_path {r : EvAIOReq} {α : Type} {rest fail : M α}
    {Q : α → EvKQFileMapped → Prop} (h : Path p (s, .calls held)) (hfree : s.freed = false)
    (hcall : Called (·.completes) s.log) (hr : Completes s r) (i : Int)
    (hrest : ∀ t, Path p (t, .calls held) → Ends rest t Q (Stopped p))
    (hfail : ∀ t, Path p (t, .calls held) → Ends fail t Q (Stopped p)) :
    Ends (do
      match ← fileWrite env (fun _ => genericUnlockCB) r with
      | .failed => fail
      | _ => do
          lock
          bitSet i
          rest) s Q (Stopped p) := by
  simp only [ends_bind]
  refine fileWrite_ends (fun status t ht => ?_) (fun f t hf ht => ?_)
    (fun hthreaded id => ?_) hr.queued hr.performed
  · cases status with
    | failed =>
        cases ht with
        | failed ht =>
            rcases ht with rfl | rfl
            · exact hfail _ h
            · exact hfail _ (path_tick h)
        | issued _ _ hstatus _ => simp at hstatus
    | _ =>
        have hlock := lock_bitSet_path h hfree hcall hr ht (by simp) i
        simp only [ends_bind] at hlock ⊢
        exact hlock.imp (fun _ _ h => h.imp (fun _ _ h => hrest _ h))
  · have hpath : Path p (t, .calls held) := by
      rcases ht with rfl | rfl
      · exact h
      · exact path_tick h
    rcases hf with rfl | rfl <;> exact stopped hpath trivial
  · exact (unlock_finish_path rfl (notified_path h hthreaded _)).imp
      (fun _ t ht => hfail t ht)

theorem completed_path (hp : Formed p) (h : Path p (s, .calls held))
    (hcall : Called (·.completes) s.log) :
    Ends (completed env) s (fun _ t => Path p (t, .calls held)) (Stopped p) := by
  have hwants : Path p ({ s with wantsComplete := true }, .calls held) :=
    path_calm h (.wants s true fun _ => hcall)
  have hrest (t : EvKQFileMapped) (ht : Path p (t, .calls held)) :
      Ends (do
        modify fun s : EvKQFileMapped => { s with complete := true }
        metaDataUpdateAll env
        return true) t (fun _ t => Path p (t, .calls held)) (Stopped p) := by
    simp only [ends_bind, ends_modify, ends_pure]
    exact metaDataUpdateAll_behaves hp held _ (path_calm ht .quiet)
  simp only [completed]
  refine deref_path h fun hfree => ?_
  rw [ends_ite]
  refine ⟨fun _ => by simpa only [ends_bind, ends_modify, ends_pure] using hwants, fun _ => ?_⟩
  rw [ends_ite]
  refine ⟨fun _ => by simpa only [ends_bind, ends_modify, ends_pure] using hwants, fun _ => ?_⟩
  cases hlist : s.partialMbList with
  | nil => exact hrest s h
  | cons page pages =>
      simp only
      rw [ends_ite]
      refine ⟨fun _ => h, fun _ => ?_⟩
      exact fileWrite_lock_path h hfree hcall ⟨rfl, rfl, rfl, rfl, rfl⟩ _ hrest fun t ht => ht

theorem checkLastBlock_path (totalSz : Nat) (h : Path p (s, .calls held))
    (hcall : Called (·.completes) s.log) :
    Ends (checkLastBlock env totalSz) s (fun _ t => Path p (t, .calls held)) (Stopped p) := by
  simp only [checkLastBlock]
  refine deref_path h fun hfree => ?_
  cases s.partialGetByIdx (totalSz / s.pageSz : Nat) with
  | none => exact h
  | some page =>
      simp only
      rw [ends_ite]
      refine ⟨fun _ => h, fun _ => ?_⟩
      rw [ends_ite]
      refine ⟨fun _ => ?_, fun _ => h⟩
      exact fileWrite_lock_path h hfree hcall ⟨rfl, rfl, rfl, rfl, rfl⟩ _ (fun t ht => ht)
        fun t ht => ht

end Complete

/-! ## Finish callbacks -/

section Finish

variable {env : Nat → Answer} {callback : M Unit} {p : Point} {s : EvKQFileMapped} {held : Nat}
  {r : EvAIOReq} {settling : Option EvAIOReq}

theorem closeFiles_path {m : Mode} (h : Path p (s, m))
    (hwhy : 0 < m.held ∨ s.aio = [] ∨ Obs.loadAborted ∈ s.log) (hdropped : m.dropped = none) :
    Ends closeFiles s (fun _ t => Path p (t, m) ∧ Tried t) (Stopped p) := by
  simp only [closeFiles, ends_bind, ends_deref]
  refine ⟨fun _ => ?_, fun _ => stopped h trivial⟩
  rw [ends_ite]
  refine ⟨fun hcount => ⟨h, fun _ => .inl hcount⟩, fun hcount => ?_⟩
  rw [ends_ite]
  refine ⟨fun hraw => ⟨h, fun _ => .inr (.inl hraw)⟩, fun hraw => ?_⟩
  rw [ends_ite]
  refine ⟨fun hopened => ⟨h, fun _ => .inr (.inr (by simpa using hopened))⟩, fun _ => ?_⟩
  simp only [ends_set]
  refine ⟨h.tail (.closeFiles (by omega) (by simpa using hraw) hwhy hdropped), fun hrequest => ?_⟩
  cases hrequest

theorem tryClose_path (h : Path p (s, .calls (held + 1))) :
    Ends tryClose s (fun _ t => Path p (t, .calls (held + 1)) ∧ Tried t) (Stopped p) := by
  simp only [tryClose, ends_bind, ends_deref]
  refine ⟨fun _ => ?_, fun _ => stopped h trivial⟩
  rw [ends_ite]
  exact ⟨fun _ => closeFiles_path h (.inl (Nat.succ_pos held)) rfl,
    fun hrequest => ⟨h, fun htrue => absurd htrue hrequest⟩⟩

theorem close_unlock_path (h : Path p (s, .calls (held + 1))) (cb : FinishCB) :
    Ends (do tryClose; unlock (.finish cb)) s (fun _ t => Path p (t, .calls held))
      (Stopped p) := by
  simp only [ends_bind]
  refine (tryClose_path h).imp fun _ t ht => ?_
  exact release_path ht.1 ⟨rfl, rfl, rfl⟩ _ _ (fun _ => Nat.succ_pos held) (by simp) fun _ _ _ => ht.2

theorem reissue_path {d : Data} {fd size : Int}
    (h : Path p (s, { Mode.finishing (held + 1) (some r) with asked := some d }))
    (hcb : r.finishCb.writesMeta = true) (hdata : r.finishCb.carries d = true) :
    Ends (reissue env r.finishCb fd d size) s (fun _ t => Path p (t, .calls held))
      (Stopped p) := by
  simp only [reissue, ends_bind]
  refine metaWrite_ends ?_ (fun f t hf ht => ?_) fun q hqcb hqdata hengine hfresh => ?_
  · simp only [ends_modify]
    exact (path_tick h).tail (.refuseAgain rfl (Nat.succ_pos held))
  · rcases ht with rfl | rfl
    · exact stopped h (by rcases hf with rfl | rfl <;> trivial)
    · exact stopped (path_tick h) (by rcases hf with rfl | rfl <;> trivial)
  · simp only [ends_modify]
    have hstateless : r.finishCb.stateless = true := by
      cases hr : r.finishCb <;> simp_all [FinishCB.writesMeta, FinishCB.stateless]
    refine (path_tick h).tail (.reissue rfl hcb (hfresh hstateless) hqcb hengine ?_ ?_
      (Nat.succ_pos held))
    · rw [hqdata]
    · rw [hqdata, hqcb]
      exact hdata

theorem writeMetaRawDataFinishCB_path (hcb : r.finishCb = .writeMetaRawData)
    (h : Path p (s, .finishing (held + 1) (some r))) :
    Ends (writeMetaRawDataFinishCB env) s (fun _ t => Path p (t, .calls held)) (Stopped p) := by
  simp only [writeMetaRawDataFinishCB]
  refine deref_path h fun _ => ?_
  cases hraw : s.lastMbRaw with
  | none =>
      rw [ends_bind, ends_set]
      have hdone := close_unlock_path (h.tail (.rawDone rfl hcb hraw)) .writeMetaRawData
      rwa [hraw] at hdone
  | some packed =>
      rw [ends_bind, ends_set]
      have htake := h.tail (.takeRaw rfl hcb hraw rfl)
      rw [← hcb]
      exact reissue_path htake (by rw [hcb]; rfl) (by rw [hcb]; rfl)

theorem writeMetaAuxDataFinishCB_path (hcb : r.finishCb = .writeMetaAuxData)
    (h : Path p (s, .finishing (held + 1) (some r))) :
    Ends (writeMetaAuxDataFinishCB env) s (fun _ t => Path p (t, .calls held)) (Stopped p) := by
  simp only [writeMetaAuxDataFinishCB]
  refine deref_path h fun _ => ?_
  cases haux : s.lastMbAux with
  | none =>
      rw [ends_bind, ends_set]
      have hdone := close_unlock_path (h.tail (.auxDone rfl hcb haux)) .writeMetaAuxData
      rwa [haux] at hdone
  | some auxMb =>
      rw [ends_bind, ends_set]
      have htake := h.tail (.takeAux rfl hcb haux rfl)
      rw [← hcb]
      exact reissue_path htake (by rw [hcb]; rfl) (by rw [hcb]; rfl)

theorem checkFinish_unlock_path (hbehaves : Behaves p callback) {error : Bool} {cb : FinishCB}
    (h : Path p (s, .finishing (held + 1) settling)) (hr : Finishes s settling r)
    (hstate : r.state ≠ none) (hcb : cb.writesMeta = false) :
    Ends (do aioStateCheckFinish callback r error; unlock (.finish cb)) s
      (fun _ t => Path p (t, .calls held)) (Stopped p) := by
  simp only [ends_bind]
  refine (aioStateCheckFinish_path hbehaves h hr hstate).imp fun _ t ht => ?_
  exact unlock_finish_path hcb ht

theorem readRawDataFinishCB_path (hbehaves : Behaves p callback) {failed : Bool}
    (h : Path p (s, .finishing (held + 1) settling)) (hr : Finishes s settling r)
    (hstate : r.state ≠ none) :
    Ends (readRawDataFinishCB callback r failed) s (fun _ t => Path p (t, .calls held))
      (Stopped p) := by
  simp only [readRawDataFinishCB]
  exact deref_path h fun _ => checkFinish_unlock_path hbehaves h hr hstate rfl

theorem readMetaDataFinishCB_path (hp : Formed p) (hbehaves : Behaves p callback) {res : Result}
    (hcb : r.finishCb = .readMetaData) (h : Path p (s, .finishing (held + 1) (some r))) :
    Ends (readMetaDataFinishCB callback r res) s (fun _ t => Path p (t, .calls held))
      (Stopped p) := by
  have hformed := formed_path h hp
  have hload : s.byLoad = true := hformed.load r (.inr rfl) (.inl hcb)
  have hstate : r.state ≠ none := fun hnone => by
    have hstateless := (hformed.stateless r (.inr rfl)).mp hnone
    rw [hcb] at hstateless
    cases hstateless
  simp only [readMetaDataFinishCB]
  refine deref_path h fun _ => ?_
  refine assertThat_path h trivial fun _ => ?_
  refine assertThat_path h trivial fun _ => ?_
  rw [ends_ite]
  refine ⟨fun _ => checkFinish_unlock_path hbehaves h (.inl rfl) hstate rfl, fun _ => ?_⟩
  cases res.main with
  | none =>
      rw [ends_bind, ends_set]
      exact checkFinish_unlock_path hbehaves
        (path_calm h (.loaded hload rfl hcb res.bitmap s.pageSz)) (.inl rfl) hstate rfl
  | some main =>
      rw [ends_bind, ends_set]
      exact checkFinish_unlock_path hbehaves
        (path_calm (path_calm h (.loaded hload rfl hcb res.bitmap main.pageSz)) .quiet)
        (.inl rfl) hstate rfl

theorem readMetaAuxDataFinishCB_path (hp : Formed p) (hbehaves : Behaves p callback)
    {res : Result} (hcb : r.finishCb = .readMetaAuxData)
    (h : Path p (s, .finishing (held + 1) (some r))) :
    Ends (readMetaAuxDataFinishCB callback r res) s (fun _ t => Path p (t, .calls held))
      (Stopped p) := by
  have hformed := formed_path h hp
  have hstate : r.state ≠ none := fun hnone => by
    have hstateless := (hformed.stateless r (.inr rfl)).mp hnone
    rw [hcb] at hstateless
    cases hstateless
  simp only [readMetaAuxDataFinishCB]
  refine deref_path h fun _ => ?_
  refine assertThat_path h trivial fun _ => ?_
  refine assertThat_path h trivial fun _ => ?_
  rw [ends_ite]
  refine ⟨fun _ => checkFinish_unlock_path hbehaves h (.inl rfl) hstate rfl, fun _ => ?_⟩
  rw [ends_bind, ends_set]
  exact checkFinish_unlock_path hbehaves
    (h.tail (.auxSlot (some res.aux) s.metaAuxNeedUpdate hformed.needUpdate)) (.inl rfl)
    hstate rfl

theorem writeRawDataFinishCB_path (hp : Formed p) (hbehaves : Behaves p callback)
    {failed : Bool} (hcb : r.finishCb = .writeRawData) (hstate : r.state ≠ none)
    (h : Path p (s, .finishing (held + 1) settling)) (hr : Finishes s settling r)
    (hfailed : settling = none → failed = true) :
    Ends (writeRawDataFinishCB env callback r failed) s (fun _ t => Path p (t, .calls held))
      (Stopped p) := by
  simp only [writeRawDataFinishCB]
  refine deref_path h fun _ => ?_
  rw [ends_bind, ends_set]
  have hcount : Path p ({ s with pendingRawWrite := s.pendingRawWrite - 1 },
      .finishing (held + 1) settling) := path_calm h .quiet
  rw [ends_ite]
  refine ⟨fun _ => checkFinish_unlock_path hbehaves hcount hr hstate rfl, fun hok => ?_⟩
  have hsettling : settling = some r := by
    refine hr.resolve_right fun hnone => hok ?_
    rw [hfailed hnone.1]
    rfl
  subst hsettling
  rw [ends_bind]
  have hmark := markBlocks_path rfl hcb (r.size.toNat / s.pageSz) 0 (Nat.zero_add _).le hcount rfl
  refine hmark.imp fun _ t ht => ?_
  rw [ends_bind]
  refine (aioStateCheckFinish_path hbehaves ht (.inl rfl) hstate).imp fun _ u hu => ?_
  refine deref_path hu fun _ => ?_
  rw [ends_ite]
  refine ⟨fun _ => ?_, fun _ => unlock_finish_path rfl hu⟩
  rw [ends_ite]
  refine ⟨fun hwants => ?_, fun _ => ?_⟩
  · simp only [ends_bind, ends_modify]
    have hcall := (formed_path hu hp).wants hwants
    refine (completed_path hp hu hcall).imp fun _ v hv => ?_
    exact unlock_finish_path rfl (path_calm hv (.wants v false (by simp)))
  · rw [ends_bind]
    refine (metaDataUpdateAll_behaves hp _ _ hu).imp fun _ v hv => ?_
    exact unlock_finish_path rfl hv

end Finish

/-! ## How a write is cut -/

theorem cut_trail {pageSz offset dataSz : Nat} :
    (cut pageSz offset dataSz).trail =
      min (if offset % pageSz > 0 then pageSz - offset % pageSz else 0) dataSz := by
  simp only [cut]
  split <;> split <;> omega

/-- The parts lie one behind another, and each begins where its block says. -/
structure Cuts (pageSz offset dataSz : Nat) (c : Cut) : Prop where
  inside : c.trail + c.finish ≤ dataSz
  finish : c.finish < pageSz
  aligned : 0 < dataSz - (c.trail + c.finish) → c.begin * pageSz = offset + c.trail
  trail : 0 < c.trail → c.lower * pageSz + c.relative = offset ∧ 0 < c.relative ∧
    c.relative + c.trail ≤ pageSz
  head : 0 < c.finish → c.higher * pageSz = offset + (dataSz - c.finish)

theorem cuts_cut {pageSz offset dataSz : Nat} (hpage : 0 < pageSz) :
    Cuts pageSz offset dataSz (cut pageSz offset dataSz) := by
  have hdiv : offset / pageSz * pageSz + offset % pageSz = offset := Nat.div_add_mod' offset pageSz
  have hmod : offset % pageSz < pageSz := Nat.mod_lt _ hpage
  have htrail := @cut_trail pageSz offset dataSz
  have hfinish : (cut pageSz offset dataSz).finish =
      (dataSz - (cut pageSz offset dataSz).trail) % pageSz := rfl
  have hle : (cut pageSz offset dataSz).finish ≤ dataSz - (cut pageSz offset dataSz).trail :=
    hfinish ▸ Nat.mod_le _ _
  have hlt : (cut pageSz offset dataSz).finish < pageSz := hfinish ▸ Nat.mod_lt _ hpage
  have hbegin : (cut pageSz offset dataSz).begin =
      if (cut pageSz offset dataSz).trail > 0 then offset / pageSz + 1 else offset / pageSz := rfl
  have hshort : (cut pageSz offset dataSz).trail = dataSz →
      (cut pageSz offset dataSz).finish = 0 := by
    intro h
    rw [hfinish, h, Nat.sub_self, Nat.zero_mod]
  -- Where the last page border is, unless the write ends before the first one.
  have hborder : (cut pageSz offset dataSz).trail < dataSz →
      (offset + (cut pageSz offset dataSz).trail) % pageSz = 0 := by
    intro h
    split at htrail
    · have : offset + (cut pageSz offset dataSz).trail = (offset / pageSz + 1) * pageSz := by
        rw [Nat.add_mul]
        omega
      rw [this]
      exact Nat.mul_mod_left _ _
    · have : offset + (cut pageSz offset dataSz).trail = offset / pageSz * pageSz := by omega
      rw [this]
      exact Nat.mul_mod_left _ _
  refine ⟨by omega, hlt, fun h => ?_, fun h => ?_, fun h => ?_⟩
  · rw [hbegin]
    split at htrail
    · rw [if_pos (by omega), Nat.add_mul]
      omega
    · rw [if_neg (by omega)]
      omega
  · refine ⟨hdiv, ?_, ?_⟩
    · change 0 < offset % pageSz
      split at htrail <;> omega
    · change offset % pageSz + _ ≤ _
      split at htrail <;> omega
  · have hlong : (cut pageSz offset dataSz).trail < dataSz := by
      by_contra hnot
      have := hshort (by omega)
      omega
    have hb := hborder hlong
    change (offset + dataSz) / pageSz * pageSz = _
    have hsplit : offset + dataSz = (offset + (cut pageSz offset dataSz).trail) +
        (dataSz - (cut pageSz offset dataSz).trail) := by omega
    have hmod' : (offset + dataSz) % pageSz = (cut pageSz offset dataSz).finish := by
      rw [hsplit, Nat.add_mod, hb, Nat.zero_add, Nat.mod_mod, hfinish]
    have hdm := Nat.div_add_mod' (offset + dataSz) pageSz
    omega

/-! ## Reads and writes -/

section Writes

variable {env : Nat → Answer} {callback : M Unit} {p : Point} {s t : EvKQFileMapped}
  {held serial : Nat} {r : EvAIOReq}

theorem Stopped.trans {q : Point} {f : Fault} (h : Path p q) (hs : Stopped q f t) :
    Stopped p f t := by
  obtain ⟨m, hpath, hblame⟩ := hs
  exact ⟨m, h.trans hpath, hblame⟩

/-- A submission fails while an AIO state is being filled: its finish callback runs at
once, and the log stays wild. -/
theorem notified_build_path {x : M Unit} (h : Path p (s, .build held serial))
    (hthreaded : s.threadedAio = false) (q : EvAIOReq)
    (hx : ∀ p' u, Path p p' → Path p' (u, .finishing (held + 1) none) → Wild u.log →
      Ends x u (fun _ t => Path p' (t, .calls held)) (Stopped p')) :
    Ends x ((s.tick.note (.failedNotified q)).enter)
      (fun _ t => Path p (t, .build held serial) ∧ Wild t.log) (Stopped p) := by
  have hwild : Wild ((s.tick.note (.failedNotified q)).enter).log :=
    ⟨q, .inl (mem_append_right _ (mem_singleton_self _))⟩
  have henter : Path p ((s.tick.note (.failedNotified q)).enter, .calls (held + 1)) :=
    ((path_tick h).tail (.notified hthreaded)).tail (.forget none (.inl hwild))
  refine (hx _ _ henter .refl hwild).mono (fun _ t ht => ?_) fun _ _ he => he.trans henter
  have hend : Wild t.log := hwild.mono (path_log ht).subset
  exact ⟨(henter.trans ht).tail (.forget (some serial) (.inl hend)), hend⟩

theorem submission_failed (h : Path p (s, .build held serial)) (hsub : Submission s r .failed t) :
    Path p (t, .build held serial) ∧ t.aioStateList = s.aioStateList ∧ t.aio = s.aio ∧
      t.threadedAio = s.threadedAio ∧ t.log = s.log := by
  cases hsub with
  | failed ht =>
      rcases ht with rfl | rfl
      · exact ⟨h, rfl, rfl, rfl, rfl⟩
      · exact ⟨path_tick h, rfl, rfl, rfl, rfl⟩
  | issued _ _ hstatus _ => simp at hstatus

theorem builds_congr (h : Builds s serial) (hstates : t.aioStateList = s.aioStateList)
    (haio : t.aio = s.aio) (hthreaded : t.threadedAio = s.threadedAio) : Builds t serial := by
  refine ⟨by rw [Listed, hstates]; exact h.listed, fun st hst hserial => ?_⟩
  rw [hstates] at hst
  obtain ⟨hnodup, hids⟩ := h.serves st hst hserial
  refine ⟨hnodup, fun id hid => ?_⟩
  obtain ⟨q, hq, hserves⟩ := hids id hid
  refine ⟨q, by simpa only [EvKQFileMapped.live, haio] using hq, ?_⟩
  simpa only [EvKQFileMapped.Serves, EvKQFileMapped.mainEngine, hthreaded] using hserves

theorem Submission.cases {status : Submitted} (h : Submission s r status t) :
    status = .failed ∨ status = .canceled ∨
      ∃ n : Nat, status = .pending n ∨ status = .finished n := by
  cases h with
  | failed _ => exact .inl rfl
  | canceled _ => exact .inr (.inl rfl)
  | issued _ _ hstatus _ => exact .inr (.inr ⟨_, hstatus.imp id (·.1)⟩)
  | lost _ _ => exact .inr (.inr ⟨_, .inr rfl⟩)

theorem submission_canceled (h : Path p (s, .build held serial))
    (hsub : Submission s r .canceled t) :
    Path p (t, .build held serial) ∧ t.aioStateList = s.aioStateList ∧ t.aio = s.aio ∧
      t.threadedAio = s.threadedAio ∧ s.log ⊆ t.log := by
  cases hsub with
  | canceled _ =>
      exact ⟨path_note (path_tick h) _ rfl, rfl, rfl, rfl, subset_append_left _ _⟩
  | issued _ _ hstatus _ => simp at hstatus

theorem write_path (hp : Formed p) (hcb : ∀ p', Path p p' → Behaves p' callback)
    (hfree : s.freed = false) (h : Path p (s, .build held serial))
    (hbuilds : Builds s serial ∨ Wild s.log) (hr : Submits s serial r)
    (hwrite : r.finishCb = .writeRawData) :
    Ends (fileWrite env (fun r => writeRawDataFinishCB env callback r true) r >>=
        recordWrite serial) s
      (fun _ t => Path p (t, .build held serial) ∧ (Builds t serial ∨ Wild t.log))
      (Stopped p) := by
  rw [ends_bind]
  refine fileWrite_ends (fun status t ht => ?_) (fun f t hf ht => ?_)
    (fun hthreaded id => ?_) hr.queued hr.performed
  · rcases ht.cases with rfl | rfl | ⟨n, hn⟩
    · obtain ⟨hpath, hstates, haio, hthreaded, hlog⟩ := submission_failed h ht
      exact ⟨hpath, hbuilds.imp (fun hb => builds_congr hb hstates haio hthreaded) fun hw =>
        hlog ▸ hw⟩
    · obtain ⟨hpath, hstates, haio, hthreaded, hlog⟩ := submission_canceled h ht
      exact ⟨hpath, hbuilds.imp (fun hb => builds_congr hb hstates haio hthreaded) fun hw =>
        hw.mono hlog⟩
    · have hpending := recordPending_path true hfree h (hbuilds.imp id .inl)
        (hbuilds.imp Builds.listed id) hr ht (by rw [hwrite]; rfl) hn
      have hdone : Ends (do lock; aioStatePendingAdd serial n true; return true) t
          (fun _ u => Path p (u, .build held serial) ∧ (Builds u serial ∨ Wild u.log))
          (Stopped p) := by
        simp only [ends_bind, ends_pure] at hpending ⊢
        refine hpending.imp (fun _ u hu => hu.imp (fun _ v hv => ⟨hv.1, ?_⟩))
        exact hv.2.1.imp id fun hv => hv.resolve_right (by simp [hwrite])
      rcases hn with rfl | rfl <;> exact hdone
  · have hpath : Path p (t, .build held serial) := by
      rcases ht with rfl | rfl
      · exact h
      · exact path_tick h
    rcases hf with rfl | rfl <;> exact stopped hpath trivial
  · refine (notified_build_path h hthreaded _ fun p' u hp' hu hwild => ?_).imp fun _ t ht => ?_
    · exact writeRawDataFinishCB_path (formed_path hp' hp) (hcb p' hp') hwrite
        (by simp [hr.state]) hu (.inr ⟨rfl, hwild⟩) fun _ => rfl
    · exact ⟨ht.1, .inr ht.2⟩

theorem alignedWrite_path (hp : Formed p) (hcb : ∀ p', Path p p' → Behaves p' callback)
    {data : Data} {dataSz blockIdx : Nat} (h : Path p (s, .build held serial))
    (hbuilds : Builds s serial ∨ Wild s.log)
    (hsrc : ∀ q : EvAIOReq, q.data = data → q.size = dataSz → q.offset = blockIdx * s.pageSz →
      Sourced s q) :
    Ends (alignedWrite env callback serial data dataSz blockIdx) s
      (fun _ t => Path p (t, .build held serial) ∧ (Builds t serial ∨ Wild t.log))
      (Stopped p) := by
  simp only [alignedWrite]
  refine deref_path h fun hfree => ?_
  refine assertThat_path h trivial fun _ => ?_
  refine write_path hp hcb hfree h hbuilds ⟨rfl, rfl, rfl, rfl, fun q hq => ?_⟩ rfl
  obtain ⟨hfinish, hdata, hsize, hoffset, -, -⟩ := hq.fields
  exact .write hfinish (hsrc q hdata hsize hoffset)

theorem Slice.mono {log log' : List Obs} {off : Nat} {bytes : List UInt8}
    (h : Slice log off bytes) (hsub : log ⊆ log') : Slice log' off bytes := by
  obtain ⟨data, offset, k, hlog, h⟩ := h
  exact ⟨data, offset, k, hsub hlog, h⟩

theorem partialPage_ends (hp : Formed p) (h : Path p (s, .build held serial))
    (hwrote : ∃ data offset, Obs.wrote data offset ∈ s.log) {blockIdx dataSz relOffset : Nat}
    {Q : Option PagePart → EvKQFileMapped → Prop}
    {E : Fault → EvKQFileMapped → Prop} (hnone : Q none s)
    (hstop : E .useAfterFree s)
    (hsome : ∀ (u : EvKQFileMapped) (page : PagePart) (userLong : Nat),
      Path p (u, .build held serial) → page ∈ u.partialMbList →
      page.userInt = int32 blockIdx → Placed u.log page dataSz relOffset userLong →
      u.aioStateList = s.aioStateList → u.aio = s.aio → u.threadedAio = s.threadedAio →
      u.pageSz = s.pageSz → u.byLoad = s.byLoad → u.freed = s.freed → s.log ⊆ u.log →
      Q (some { page with userLong := userLong, userInt := int32 blockIdx }) u) :
    Ends (partialPage blockIdx dataSz relOffset) s Q E := by
  simp only [partialPage]
  rw [ends_bind, ends_deref]
  refine ⟨fun _ => ?_, fun _ => hstop⟩
  cases hget : s.partialGetByIdx blockIdx with
  | some page =>
      have hmem := mem_of_find?_eq_some hget
      have hidx : (blockIdx : Int) = page.userInt := by simpa using find?_some hget
      have hwrap : page.userInt = int32 blockIdx := by
        rw [hidx]
        exact ((formed_path h hp).pages page hmem).symm
      simp only
      rw [ends_ite]
      refine ⟨fun _ => hnone, fun hskip => ?_⟩
      rw [ends_bind, ends_note, ends_pure]
      have hnote := path_note h (.merged relOffset page.buf.getSize) rfl
      exact hsome _ page _ hnote hmem hwrap
        (.merged (by simpa using hskip) (mem_append_right _ (mem_singleton_self _)))
        rfl rfl rfl rfl rfl rfl (subset_append_left _ _)
  | none =>
      simp only
      rw [ends_bind, ends_set, ends_pure]
      exact hsome _ { mb := s.nextMb, userInt := int32 blockIdx, userLong := relOffset
                      buf := .new s.pageSz } relOffset
        (path_calm h (.page s blockIdx relOffset hwrote)) (mem_cons_self) rfl (.first rfl rfl)
        rfl rfl rfl rfl rfl rfl (fun _ h => h)

theorem store_mb (page : PagePart) (userLong blockIdx relOffset : Nat) (data : List UInt8) :
    (page.store userLong blockIdx relOffset data).mb = page.mb := by
  unfold PagePart.store
  rfl

theorem store_buf (page : PagePart) (userLong blockIdx relOffset : Nat) (data : List UInt8) :
    (page.store userLong blockIdx relOffset data).buf = page.buf.offsetWrite relOffset data := by
  unfold PagePart.store
  rfl

theorem store_userInt (page : PagePart) (userLong blockIdx relOffset : Nat) (data : List UInt8) :
    (page.store userLong blockIdx relOffset data).userInt = int32 blockIdx := by
  unfold PagePart.store
  generalize int32 (blockIdx : Int) = idx
  rfl

theorem partialDataProcess_path (hp : Formed p)
    (hcb : ∀ p', Path p p' → Behaves p' callback) {data : List UInt8} {blockIdx relOffset : Nat}
    (h : Path p (s, .build held serial)) (hbuilds : Builds s serial ∨ Wild s.log)
    (hwrote : ∃ data offset, Obs.wrote data offset ∈ s.log)
    (hslice : Plain s → Slice s.log (blockIdx * s.pageSz + relOffset) data)
    (hfit : Plain s → relOffset + data.length ≤ s.pageSz)
    (hshort : Plain s → data.length < s.pageSz) (hne : data ≠ []) :
    Ends (partialDataProcess env callback serial data blockIdx relOffset) s
      (fun _ t => Path p (t, .build held serial) ∧ (Builds t serial ∨ Wild t.log))
      (Stopped p) := by
  simp only [partialDataProcess]
  refine deref_path h fun hfree => ?_
  rw [ends_ite]
  refine ⟨fun _ => ⟨h, hbuilds⟩, fun _ => ?_⟩
  rw [ends_bind]
  refine partialPage_ends hp h hwrote ⟨h, hbuilds⟩ (stopped h trivial) fun u page userLong hu hmem hidx
    hplace hstates haio hthreaded hpage hload hfreed hlog => ?_
  have hplain (hu : Plain u) : Plain s := ⟨hload ▸ hu.1, hpage ▸ hu.2⟩
  have hstore := path_calm hu (.store hmem hidx
    (fun hu => by rw [hpage]; exact (hslice (hplain hu)).mono hlog)
    (fun hu => by rw [hpage]; exact hfit (hplain hu)) hne hplace)
  have hbuilds' : Builds u serial ∨ Wild u.log :=
    hbuilds.imp (fun hb => builds_congr hb hstates haio hthreaded) fun hw => hw.mono hlog
  simp only [storePiece]
  rw [ends_bind, ends_modify]
  have hkept : Builds ({ u with partialMbList := u.partialMbList.map fun (q : PagePart) =>
      if q.mb = page.mb then page.store userLong blockIdx relOffset data else q }.note
        (.stored page.mb u.aio)) serial ∨ Wild (u.log ++ [Obs.stored page.mb u.aio]) :=
    hbuilds'.imp (fun (hb : Builds u serial) => builds_congr hb rfl rfl rfl)
      fun (hw : Wild u.log) => hw.mono (subset_append_left _ _)
  have hin : page.store userLong blockIdx relOffset data ∈
      u.partialMbList.map fun (q : PagePart) =>
        if q.mb = page.mb then page.store userLong blockIdx relOffset data else q :=
    mem_map.mpr ⟨page, hmem, if_pos rfl⟩
  rw [ends_ite]
  refine ⟨fun hfull => ?_, fun _ => ?_⟩
  · refine alignedWrite_path hp hcb hstore hkept fun q hdata hsize hoffset => ?_
    refine .page (page.store userLong blockIdx relOffset data) hin ?_ ?_ blockIdx hoffset
      (store_userInt _ _ _ _ _) ?_
    · rw [store_mb, store_buf]
      exact hdata
    · rw [hsize]
      exact congrArg _ hpage.symm
    · exact hpage.symm ▸ hfull
  · refine write_path hp hcb (hfreed.trans hfree) hstore hkept
      ⟨rfl, rfl, rfl, rfl, fun q hq => ?_⟩ rfl
    obtain ⟨hfinish, hdata, hsize, hoffset, -, -⟩ := hq.fields
    refine .write hfinish (.bytes data (fun hu => ?_) hdata hsize fun hu => .inr ?_)
    · rw [hoffset]
      exact (hslice (hplain hu)).mono fun _ ho => mem_append_left _ (hlog ho)
    · exact hpage.symm ▸ hshort (hplain hu)

theorem Act.pageSz {p q : Point} (h : Act p q) (hload : p.1.byLoad = false) :
    q.1.pageSz = p.1.pageSz := by
  cases h with
  | calm h =>
      cases h with
      | loaded hb _ _ => exact Bool.noConfusion (hb.symm.trans hload)
      | _ => rfl
  | cancel _ ht => rcases ht with ⟨n, rfl, -⟩ | ⟨rfl, -⟩ <;> rfl
  | _ => rfl

theorem path_plain {p q : Point} (h : Path p q) (hq : Plain q.1) :
    Plain p.1 ∧ q.1.pageSz = p.1.pageSz := by
  induction h with
  | refl => exact ⟨hq, rfl⟩
  | @tail a b hab hact ih =>
      have hload : a.1.byLoad = false := hact.const.2.symm.trans hq.1
      have hpage := hact.pageSz hload
      obtain ⟨hplain, hsame⟩ := ih ⟨hload, hpage ▸ hq.2⟩
      exact ⟨hplain, hpage.trans hsame⟩

theorem alignedPart_path (hp : Formed p) (hcb : ∀ p', Path p p' → Behaves p' callback)
    {data : List UInt8} {blockIdx : Nat} (h : Path p (s, .build held serial))
    (hbuilds : Builds s serial ∨ Wild s.log)
    (hslice : data ≠ [] → Plain s → Slice s.log (blockIdx * s.pageSz) data) :
    Ends (alignedPart env callback serial data blockIdx) s
      (fun _ t => Path p (t, .build held serial) ∧ (Builds t serial ∨ Wild t.log))
      (Stopped p) := by
  simp only [alignedPart]
  rw [ends_ite]
  refine ⟨fun hpos => ?_, fun _ => ⟨h, hbuilds⟩⟩
  refine alignedWrite_path hp hcb h hbuilds fun q hdata hsize hoffset => ?_
  refine .bytes data (fun hplain => ?_) hdata hsize fun _ => .inl ?_
  · rw [hoffset]
    exact hslice (length_pos_iff.mp hpos) hplain
  · rw [hoffset]
    exact Nat.mul_mod_left _ _

theorem partialPart_path (hp : Formed p) (hcb : ∀ p', Path p p' → Behaves p' callback)
    {data : List UInt8} {blockIdx relOffset : Nat} (h : Path p (s, .build held serial))
    (hbuilds : Builds s serial ∨ Wild s.log)
    (hwrote : ∃ data offset, Obs.wrote data offset ∈ s.log)
    (hpiece : data ≠ [] → Plain s → Slice s.log (blockIdx * s.pageSz + relOffset) data ∧
      relOffset + data.length ≤ s.pageSz ∧ data.length < s.pageSz) :
    Ends (partialPart env callback serial data blockIdx relOffset) s
      (fun _ t => Path p (t, .build held serial) ∧ (Builds t serial ∨ Wild t.log))
      (Stopped p) := by
  simp only [partialPart]
  rw [ends_ite]
  refine ⟨fun hpos => ?_, fun _ => ⟨h, hbuilds⟩⟩
  have hne := length_pos_iff.mp hpos
  exact partialDataProcess_path hp hcb h hbuilds hwrote (fun hplain => (hpiece hne hplain).1)
    (fun hplain => (hpiece hne hplain).2.1) (fun hplain => (hpiece hne hplain).2.2) hne

theorem writeParts_path (hp : Formed (s, .build held serial))
    (hcb : ∀ p', Path (s, .build held serial) p' → Behaves p' callback) {data : List UInt8}
    {offset : Nat} (hlog : Obs.wrote data offset ∈ s.log) (hbuilds : Builds s serial) :
    Ends (writeParts env callback serial data (cut s.pageSz offset data.length)) s
      (fun _ t => Path (s, .build held serial) (t, .build held serial) ∧
        (Builds t serial ∨ Wild t.log)) (Stopped (s, .build held serial)) := by
  generalize hc : cut s.pageSz offset data.length = c
  have hcuts (hplain : 0 < s.pageSz) : Cuts s.pageSz offset data.length c :=
    hc ▸ cuts_cut hplain
  have hslice {t : EvKQFileMapped} {l : List UInt8} {off k : Nat}
      (ht : Path (s, .build held serial) (t, .build held serial))
      (hk : k + l.length ≤ data.length) (hl : l = (data.drop k).take l.length)
      (hoff : off = offset + k) : Slice t.log off l :=
    ⟨data, offset, k, (path_log ht).subset hlog, hk, hl, hoff⟩
  have hwrote {t : EvKQFileMapped} (ht : Path (s, .build held serial) (t, .build held serial)) :
      ∃ data offset, Obs.wrote data offset ∈ t.log := ⟨data, offset, (path_log ht).subset hlog⟩
  simp only [writeParts]
  rw [ends_bind]
  refine (alignedPart_path hp hcb .refl (.inl hbuilds) fun hne hplain => ?_).imp
    (fun aligned t ht => ?_)
  · obtain ⟨hin, -, halign, -, -⟩ := hcuts hplain.2
    have hlen : ((data.drop c.trail).take (data.length - (c.trail + c.finish))).length =
        data.length - (c.trail + c.finish) := by
      rw [length_take, length_drop]
      omega
    have hpos := length_pos_iff.mpr hne
    exact hslice .refl (by rw [hlen]; omega) (by rw [hlen]) (halign (by omega))
  obtain ⟨hpath, hkept⟩ := ht
  rw [ends_bind]
  refine (partialPart_path hp hcb hpath hkept (hwrote hpath) fun hne hplain => ?_).imp
    (fun trail u hu => ?_)
  · obtain ⟨hplain', hpage⟩ := path_plain hpath hplain
    obtain ⟨hin, -, -, htrail, -⟩ := hcuts hplain'.2
    have hlen : (data.take c.trail).length = c.trail := by
      rw [length_take]
      omega
    have hpos := length_pos_iff.mpr hne
    obtain ⟨hoff, hrel, hfit⟩ := htrail (by omega)
    have hpage' : t.pageSz = s.pageSz := hpage
    refine ⟨hslice (k := 0) hpath (by rw [hlen]; omega) (by rw [hlen, drop_zero]) ?_,
      by omega, by omega⟩
    rw [hpage', hoff]
    rfl
  obtain ⟨hpath, hkept⟩ := hu
  rw [ends_bind]
  refine (partialPart_path hp hcb hpath hkept (hwrote hpath) fun hne hplain => ?_).imp
    (fun head v hv => hv)
  obtain ⟨hplain', hpage⟩ := path_plain hpath hplain
  obtain ⟨hin, hlt, -, -, hhead⟩ := hcuts hplain'.2
  have hlen : (data.drop (c.trail + (data.length - (c.trail + c.finish)))).length = c.finish := by
    rw [length_drop]
    omega
  have hpos := length_pos_iff.mpr hne
  have hoff := hhead (by omega)
  have hpage' : u.pageSz = s.pageSz := hpage
  refine ⟨hslice (k := c.trail + (data.length - (c.trail + c.finish))) hpath
    (by rw [hlen]; omega) (take_of_length_le (Nat.le_refl _)).symm ?_, by omega, by omega⟩
  rw [hpage', hoff]
  omega

end Writes

end FileMapped
