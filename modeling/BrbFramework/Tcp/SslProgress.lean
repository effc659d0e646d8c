import BrbFramework.Tcp.SslConn
import Mathlib.Data.List.Basic

/-!
# Both handlers of a TLS connection keep an event

`Safe` is what a handler needs: an event that runs it, or to be running, or nothing to
do. A handler that returns has left itself safe, whatever it found; what it must not
take away is the safety of the other one, and the only way to do that is to take an
event that the other one could not spare.
-/

namespace Tcp.SslConn

open Handler Tcp.SslConn.CommEvTCPServerConn List

def Obs.stranded : Obs → Bool
  | .replaced _ stranded | .cancelled _ stranded | .empty _ stranded => stranded

/-- Some event was taken from a handler that could not spare it. -/
def Stranded (log : List Obs) : Prop := ∃ o ∈ log, o.stranded = true

/-- The connection is not one that progress is claimed of. -/
def Excused (c : CommEvTCPServerConn) : Prop :=
  Stranded c.log ∨ c.sslShutingDown = true ∨ c.closed = true

/-- The handler has nothing to do, or is running, or is armed. -/
def Kept (h : EventCB) (c : CommEvTCPServerConn) : Prop :=
  c.needs h = true → h ∈ c.running ∨ c.armed h = true

def Safe (h : EventCB) (c : CommEvTCPServerConn) : Prop := Excused c ∨ Kept h c

structure Grows (s t : CommEvTCPServerConn) : Prop where
  log : s.log <+: t.log
  shutting : s.sslShutingDown = true → t.sslShutingDown = true
  closed : s.closed = true → t.closed = true
  running : t.running = s.running

/-- A step that leaves every handler as safe as it was. -/
structure Serves (s t : CommEvTCPServerConn) : Prop where
  grows : Grows s t
  safe : ∀ h, Safe h s → Safe h t

/-- A step after which `h` is safe, and the other handler as safe as it was. -/
structure Feeds (h : EventCB) (s t : CommEvTCPServerConn) : Prop where
  grows : Grows s t
  self : Safe h t
  other : ∀ h', h' ≠ h → Safe h' s → Safe h' t

section Facts

variable {s t u : CommEvTCPServerConn} {h : EventCB}

theorem Grows.refl (s : CommEvTCPServerConn) : Grows s s := ⟨prefix_refl _, id, id, rfl⟩

theorem Grows.trans (h₁ : Grows s t) (h₂ : Grows t u) : Grows s u :=
  ⟨h₁.log.trans h₂.log, fun hs => h₂.shutting (h₁.shutting hs),
    fun hs => h₂.closed (h₁.closed hs), h₂.running.trans h₁.running⟩

theorem Grows.excused (h : Grows s t) (hs : Excused s) : Excused t := by
  rcases hs with ⟨o, ho, hstranded⟩ | hs | hs
  · exact .inl ⟨o, h.log.subset ho, hstranded⟩
  · exact .inr (.inl (h.shutting hs))
  · exact .inr (.inr (h.closed hs))

theorem Serves.refl (s : CommEvTCPServerConn) : Serves s s := ⟨.refl s, fun _ => id⟩

theorem Serves.trans (h₁ : Serves s t) (h₂ : Serves t u) : Serves s u :=
  ⟨h₁.grows.trans h₂.grows, fun h hs => h₂.safe h (h₁.safe h hs)⟩

theorem Feeds.serves (hf : Feeds h s t) : Serves s t :=
  ⟨hf.grows, fun h' hs => by
    by_cases heq : h' = h
    · exact heq ▸ hf.self
    · exact hf.other h' heq hs⟩

theorem Feeds.of_other (hf : Feeds h t u) (hgrows : Grows s t)
    (hother : ∀ h', h' ≠ h → Safe h' s → Safe h' t) : Feeds h s u :=
  ⟨hgrows.trans hf.grows, hf.self, fun h' hne hs => hf.other h' hne (hother h' hne hs)⟩

theorem ends_of_feeds {x : M Unit} (hgrows : Grows s t)
    (hother : ∀ h', h' ≠ h → Safe h' s → Safe h' t)
    (hx : Ends x t (fun _ u => Feeds h t u) fun _ _ => True) :
    Ends x t (fun _ u => Serves s u) fun _ _ => True :=
  hx.imp (fun _ _ hu => (hu.of_other hgrows hother).serves)

theorem Safe.of_eq (hgrows : Grows s t) (hread : t.readEvent = s.readEvent)
    (hwrite : t.writeEvent = s.writeEvent) (hneeds : t.needs h = s.needs h) (hs : Safe h s) :
    Safe h t := by
  rcases hs with hs | hs
  · exact .inl (hgrows.excused hs)
  · refine .inr fun hn => ?_
    rw [hneeds] at hn
    rw [hgrows.running, armed, hread, hwrite]
    exact hs hn

theorem Safe.of_shutting (hs : s.sslShutingDown = true) : Safe h s := .inl (.inr (.inl hs))

theorem armed_iff (c : CommEvTCPServerConn) (h : EventCB) (dir : Dir) :
    c.armed h = true ↔ c.event dir = some h ∨ c.event dir.other = some h := by
  cases dir with
  | read => simp [armed, event, Dir.other]
  | write => simp [armed, event, Dir.other, or_comm]

section Taking

variable {o : EventCB → Bool → Obs} {e : Option EventCB} {dir : Dir}

@[simp] theorem withEvent_log : (s.withEvent e dir).log = s.log := by cases dir <;> rfl

@[simp] theorem withEvent_running : (s.withEvent e dir).running = s.running := by cases dir <;> rfl

@[simp] theorem withEvent_shutting :
    (s.withEvent e dir).sslShutingDown = s.sslShutingDown := by cases dir <;> rfl

@[simp] theorem withEvent_closed : (s.withEvent e dir).closed = s.closed := by cases dir <;> rfl

@[simp] theorem withEvent_needs : (s.withEvent e dir).needs h = s.needs h := by
  cases dir <;> cases h <;> rfl

@[simp] theorem withEvent_event : (s.withEvent e dir).event dir = e := by cases dir <;> rfl

@[simp] theorem withEvent_event_other :
    (s.withEvent e dir).event dir.other = s.event dir.other := by cases dir <;> rfl

/-- An event is taken for `e`, and this is logged. -/
def take (s : CommEvTCPServerConn) (o : EventCB → Bool → Obs) (e : Option EventCB) (dir : Dir) :
    CommEvTCPServerConn :=
  { s with log := s.log ++ s.taken o e dir }.withEvent e dir

theorem take_grows : Grows s (take s o e dir) :=
  ⟨by simp [take], fun hs => by simpa [take] using hs, fun hs => by simpa [take] using hs,
    by simp [take]⟩

@[simp] theorem take_running : (take s o e dir).running = s.running := by simp [take]

@[simp] theorem take_needs : (take s o e dir).needs h = s.needs h := by
  cases dir <;> cases h <;> rfl

@[simp] theorem take_event_other : (take s o e dir).event dir.other = s.event dir.other := by
  cases dir <;> rfl

theorem take_safe (ho : ∀ h stranded, (o h stranded).stranded = stranded) (he : e ≠ some h)
    (hs : Safe h s) : Safe h (take s o e dir) := by
  rcases hs with hs | hs
  · exact .inl (take_grows.excused hs)
  · by_cases hold : s.event dir = some h
    · have htaken : s.taken o e dir = [o h (s.strandedBy h dir)] := by
        rw [taken, hold]
        exact if_neg (Ne.symm he)
      cases hstranded : s.strandedBy h dir with
      | true =>
          refine .inl (.inl ⟨o h (s.strandedBy h dir), ?_, by rw [ho, hstranded]⟩)
          rw [take, withEvent_log, htaken]
          exact mem_append_right _ mem_cons_self
      | false =>
          refine .inr fun hn => ?_
          rw [take_needs] at hn
          rw [take_running, armed_iff _ h dir, take_event_other]
          by_contra hno
          rw [not_or, not_or] at hno
          simp [strandedBy, hn, hno.1, hno.2.2] at hstranded
    · refine .inr fun hn => ?_
      rw [take_needs] at hn
      rw [take_running, armed_iff _ h dir, take_event_other]
      have hkept := hs hn
      rw [armed_iff _ h dir] at hkept
      exact hkept.imp_right fun harmed => .inr (harmed.resolve_left hold)

theorem take_self (h : EventCB) : Safe h (take s o (some h) dir) := by
  refine .inr fun _ => .inr ?_
  rw [armed_iff _ h dir]
  exact .inl withEvent_event

theorem setEvent_feeds {E : Fault → CommEvTCPServerConn → Prop} (h : EventCB) (dir : Dir) :
    Ends (setEvent dir h) s (fun _ t => Feeds h s t) E :=
  ⟨take_grows, take_self h, fun _ hne hs =>
    take_safe (fun _ _ => rfl) (fun heq => hne (Option.some.inj heq).symm) hs⟩

end Taking

end Facts

section Handlers

variable {env : Env} {s : CommEvTCPServerConn} {read finish : Nat → M Unit}

def Harmless (callback : M Unit) : Prop :=
  ∀ s, Ends callback s (fun _ t => Serves s t) fun _ _ => True

theorem within_ends {callback : M Unit} (hcb : Harmless callback) (h : EventCB) :
    Ends (within h callback) s
      (fun _ t => Grows s t ∧ ∀ h', h' ≠ h → Safe h' s → Safe h' t) fun _ _ => True := by
  simp only [within, ends_bind, ends_modify]
  refine (hcb { s with running := h :: s.running }).imp fun _ t ht => ?_
  have hrunning : t.running = h :: s.running := ht.grows.running
  refine ⟨⟨ht.grows.log, ht.grows.shutting, ht.grows.closed, by rw [hrunning]; rfl⟩,
    fun h' hne hs => ?_⟩
  have hpushed : Safe h' { s with running := h :: s.running } := by
    rcases hs with hs | hs
    · exact .inl hs
    · exact .inr fun hn => (hs hn).imp_left (mem_cons_of_mem _)
  rcases ht.safe h' hpushed with hx | hk
  · exact .inl hx
  · refine .inr fun hn => (hk hn).imp_left fun hin => ?_
    rw [hrunning, mem_cons] at hin
    rw [hrunning]
    exact hin.resolve_left hne

theorem eventSSLWrite_feeds (hfinish : ∀ id, Harmless (finish id)) {size : Int} (hsize : 0 < size) :
    Ends (eventSSLWrite env finish size) s (fun _ t => Feeds .sslWrite s t) fun _ _ => True := by
  simp only [eventSSLWrite, ends_bind, ends_get, ends_ite, ends_pure]
  refine ⟨fun hno => absurd hno (by omega), fun _ => ?_⟩
  cases hq : s.writeQueue with
  | nil =>
      simp only [ends_modify]
      have hgrows : Grows s { s with pendingWrite := false } := ⟨prefix_refl _, id, id, rfl⟩
      refine ⟨hgrows, .inr fun hn => ?_, fun h' hne hs => hs.of_eq hgrows rfl rfl ?_⟩
      · simp [needs, hq] at hn
      · cases h' <;> simp [needs]
  | cons req rest =>
      simp only [ends_bind, ends_modify, ends_get]
      obtain ⟨p, hp⟩ : ∃ p : CommEvTCPServerConn,
          { s with writeQueue := rest, sslWrites := s.sslWrites + 1 } = p := ⟨_, rfl⟩
      rw [hp]
      have hgrowsP : Grows s p := by
        rw [← hp]
        exact ⟨prefix_refl _, id, id, rfl⟩
      -- the queue is of no concern to the other handler
      have hotherP : ∀ t : CommEvTCPServerConn, Grows s t → t.readEvent = s.readEvent →
          t.writeEvent = s.writeEvent → t.readHandler = s.readHandler →
          ∀ h', h' ≠ .sslWrite → Safe h' s → Safe h' t := by
        intro t hgrows hread hwrite hhandler h' hne hs
        refine hs.of_eq hgrows hread hwrite ?_
        cases h' with
        | sslRead => exact hhandler
        | sslWrite => exact absurd rfl hne
      have hagain : ∀ (dir : Dir) (t : CommEvTCPServerConn), Grows s t →
          (∀ h', h' ≠ .sslWrite → Safe h' s → Safe h' t) →
          Ends (setEvent dir .sslWrite) t (fun _ u => Feeds .sslWrite s u) fun _ _ => True :=
        fun dir t hgrows hsafe => (setEvent_feeds .sslWrite dir).imp
          (fun _ u hu => hu.of_other hgrows hsafe)
      have hback : ∀ dir, Ends (setEvent dir .sslWrite)
          { p with writeQueue := req :: p.writeQueue, pendingWrite := true }
          (fun _ u => Feeds .sslWrite s u) fun _ _ => True := fun dir => by
        have hgrows : Grows s { p with writeQueue := req :: p.writeQueue, pendingWrite := true } :=
          hgrowsP.trans ⟨prefix_refl _, id, id, rfl⟩
        refine hagain dir _ hgrows (hotherP _ hgrows ?_ ?_ ?_) <;> rw [← hp]
      cases env.sslWrite (s.sslWrites + 1 - 1) with
      | wantRead =>
          simp only [ends_bind, ends_modify]
          exact hback .read
      | wantWrite =>
          simp only [ends_bind, ends_modify]
          exact hback .write
      | zeroReturn =>
          simp only [ends_bind, ends_modify]
          exact hback .write
      | fatal =>
          simp only [sslShutdownBegin, ends_bind, ends_modify]
          exact ⟨hgrowsP.trans ⟨prefix_refl _, fun _ => rfl, id, rfl⟩, .of_shutting rfl,
            fun _ _ _ => .of_shutting rfl⟩
      | success =>
          -- from the callback on
          have hrest : ∀ t : CommEvTCPServerConn, Grows s t →
              (∀ h', h' ≠ .sslWrite → Safe h' s → Safe h' t) →
              Ends (do
                if !(← get).writeQueue.isEmpty then
                  modify fun c => { c with pendingWrite := true }
                  setEvent .write .sslWrite
                else
                  modify fun c => { c with pendingWrite := false }
                  if (← get).closeRequest then sslShutdownBegin : M Unit) t
                (fun _ u => Feeds .sslWrite s u) fun _ _ => True := by
            intro t hgrows hsafe
            have hpending : ∀ b, Grows s { t with pendingWrite := b } := fun b =>
              hgrows.trans ⟨prefix_refl _, id, id, rfl⟩
            have hsafeB : ∀ b h', h' ≠ .sslWrite → Safe h' s → Safe h' { t with pendingWrite := b } := by
              intro b h' hne hs
              refine (hsafe h' hne hs).of_eq ⟨prefix_refl _, id, id, rfl⟩ rfl rfl ?_
              cases h' <;> simp [needs]
            simp only [ends_bind, ends_get, ends_ite, ends_modify, ends_pure, sslShutdownBegin]
            refine ⟨fun _ => hagain .write _ (hpending true) (hsafeB true), fun hempty =>
              ⟨fun _ => ?_, fun _ => ⟨hpending false, .inr fun hn => ?_, hsafeB false⟩⟩⟩
            · exact ⟨(hpending false).trans ⟨prefix_refl _, fun _ => rfl, id, rfl⟩,
                .of_shutting rfl, fun _ _ _ => .of_shutting rfl⟩
            · exact absurd hn hempty
          have hsafeP : ∀ h', h' ≠ .sslWrite → Safe h' s → Safe h' p := by
            refine hotherP p hgrowsP ?_ ?_ ?_ <;> rw [← hp]
          simp only [ends_bind, ends_get, ends_ite, ends_pure] at hrest ⊢
          refine ⟨fun _ => ?_, fun _ => hrest p hgrowsP hsafeP⟩
          refine (within_ends (hfinish req.id) .sslWrite).imp fun _ t ht => ?_
          exact hrest t (hgrowsP.trans ht.1) fun h' hne hs => ht.2 h' hne (hsafeP h' hne hs)

theorem eventSSLRead_feeds (hread : ∀ n, Harmless (read n)) {size : Int} (hsize : 0 < size) :
    Ends (eventSSLRead env read size) s (fun _ t => Feeds .sslRead s t) fun _ _ => True := by
  simp only [eventSSLRead, ends_bind, ends_get, ends_ite, ends_pure, ends_modify]
  refine ⟨fun hno => absurd hno (by omega), fun _ => ?_⟩
  obtain ⟨p, hp⟩ : ∃ p : CommEvTCPServerConn, { s with sslReads := s.sslReads + 1 } = p := ⟨_, rfl⟩
  rw [hp]
  have hserves : Serves s p := by
    have hgrows : Grows s p := by
      rw [← hp]
      exact ⟨prefix_refl _, id, id, rfl⟩
    refine ⟨hgrows, fun h hs => hs.of_eq hgrows ?_ ?_ ?_⟩ <;> rw [← hp]
    cases h <;> rfl
  have hagain : ∀ (dir : Dir) (t : CommEvTCPServerConn), Grows s t →
      (∀ h', h' ≠ .sslRead → Safe h' s → Safe h' t) →
      Ends (setEvent dir .sslRead) t (fun _ u => Feeds .sslRead s u) fun _ _ => True :=
    fun dir t hgrows hsafe => (setEvent_feeds .sslRead dir).imp
      (fun _ u hu => hu.of_other hgrows hsafe)
  cases env.sslRead (s.sslReads + 1 - 1) with
  | wantRead => exact hagain .read p hserves.grows fun h' _ => hserves.safe h'
  | wantWrite => exact hagain .write p hserves.grows fun h' _ => hserves.safe h'
  | zeroReturn => exact hagain .read p hserves.grows fun h' _ => hserves.safe h'
  | fatal =>
      simp only [sslShutdownBegin, ends_modify]
      exact ⟨hserves.grows.trans ⟨prefix_refl _, fun _ => rfl, id, rfl⟩, .of_shutting rfl,
        fun _ _ _ => .of_shutting rfl⟩
  | success =>
      -- from the callback on
      have hrest : ∀ t : CommEvTCPServerConn, Grows s t →
          (∀ h', h' ≠ .sslRead → Safe h' s → Safe h' t) →
          Ends (do
            let c ← get
            if !c.closed && c.readHandler then setEvent .read .sslRead : M Unit) t
            (fun _ u => Feeds .sslRead s u) fun _ _ => True := by
        intro t hgrows hsafe
        simp only [ends_bind, ends_get, ends_ite, ends_pure]
        refine ⟨fun _ => hagain .read t hgrows hsafe, fun hno => ⟨hgrows, ?_, hsafe⟩⟩
        cases hclosed : t.closed with
        | true => exact .inl (.inr (.inr hclosed))
        | false => exact .inr fun hn => absurd (by simpa [hclosed, needs] using hn) hno
      simp only [ends_bind, ends_get, ends_ite, ends_pure] at hrest ⊢
      refine ⟨fun _ => ?_, fun _ => hrest p hserves.grows fun h' _ => hserves.safe h'⟩
      refine (within_ends (hread _) .sslRead).imp fun _ t ht => ?_
      exact hrest t (hserves.grows.trans ht.1) fun h' hne hs => ht.2 h' hne (hserves.safe h' hs)

theorem kickConnWriteQueue_feeds (hfinish : ∀ id, Harmless (finish id)) :
    Ends (kickConnWriteQueue env finish) s (fun _ t => Feeds .sslWrite s t) fun _ _ => True := by
  simp only [kickConnWriteQueue, ends_bind, ends_get, ends_ite]
  exact ⟨fun _ => setEvent_feeds .sslWrite .write,
    fun _ => eventSSLWrite_feeds hfinish (by decide)⟩

theorem sslShutdownBegin_serves :
    Ends sslShutdownBegin s (fun _ t => Serves s t) fun _ _ => True :=
  ⟨⟨prefix_refl _, fun _ => rfl, id, rfl⟩, fun _ _ => .of_shutting rfl⟩

theorem userOp_serves {cbs : Callbacks} (hread : ∀ n, Harmless (cbs.read n))
    (hfinish : ∀ id, Harmless (cbs.finish id)) (op : UserOp) :
    Ends (userOp env cbs op) s (fun _ t => Serves s t) fun _ _ => True := by
  have hfeeds : ∀ {h : EventCB} {x : M Unit}, Ends x s (fun _ u => Feeds h s u) (fun _ _ => True) →
      Ends x s (fun _ u => Serves s u) fun _ _ => True := fun hx =>
    ends_of_feeds (.refl s) (fun _ _ => id) hx
  cases op with
  | aioWrite size hasFinishCb =>
      simp only [userOp, aioWrite, ends_bind, ends_get, ends_ite, ends_pure, ends_modify,
        ends_assertThat]
      refine ⟨fun _ => .refl s, fun _ => ⟨fun _ => .refl s, fun _ => ⟨fun _ => .refl s, fun _ =>
        ⟨fun _ => ?_, fun _ => trivial⟩⟩⟩⟩
      have hgrows : Grows s { s with
          writeQueue := s.writeQueue ++ [⟨s.created, size, hasFinishCb⟩]
          created := s.created + 1 } := ⟨prefix_refl _, id, id, rfl⟩
      refine ends_of_feeds hgrows (fun h' hne hs => hs.of_eq hgrows rfl rfl ?_)
        (kickConnWriteQueue_feeds hfinish)
      cases h' with
      | sslRead => rfl
      | sslWrite => exact absurd rfl hne
  | setReadEvent handler =>
      simp only [userOp, ends_bind, ends_modify, ends_ite, ends_pure]
      have hgrows : Grows s { s with readHandler := handler } := ⟨prefix_refl _, id, id, rfl⟩
      have hother : ∀ h', h' ≠ .sslRead → Safe h' s → Safe h' { s with readHandler := handler } := by
        intro h' hne hs
        refine hs.of_eq hgrows rfl rfl ?_
        cases h' with
        | sslRead => exact absurd rfl hne
        | sslWrite => rfl
      refine ⟨fun _ => ends_of_feeds hgrows hother (setEvent_feeds .sslRead .read), fun hno =>
        Feeds.serves (h := .sslRead) ⟨hgrows, .inr fun hn => absurd hn hno, hother⟩⟩
  | cancelReadEvent =>
      simp only [userOp, deleteReadEvent, ends_bind, ends_modify]
      have hgrows : Grows s { s with readHandler := false } := ⟨prefix_refl _, id, id, rfl⟩
      obtain ⟨p, hp⟩ : ∃ p : CommEvTCPServerConn, { s with readHandler := false } = p := ⟨_, rfl⟩
      rw [hp] at hgrows
      have htake : Feeds .sslRead p (take p .cancelled none .read) := by
        refine ⟨take_grows, .inr fun hn => ?_, fun h' _ hs => take_safe (fun _ _ => rfl) (by simp) hs⟩
        rw [take_needs, ← hp] at hn
        cases hn
      have hserves : Serves s (take p .cancelled none .read) := by
        refine (htake.of_other hgrows fun h' hne hs => hs.of_eq hgrows ?_ ?_ ?_).serves <;> rw [← hp]
        cases h' with
        | sslRead => exact absurd rfl hne
        | sslWrite => rfl
      rw [← hp] at hserves
      exact hserves
  | readReschedule => exact hfeeds (setEvent_feeds .sslRead .read)
  | kickReadPending readSz =>
      by_cases hsize : 0 < readSz
      · exact hfeeds (eventSSLRead_feeds hread hsize)
      · have hno : readSz ≤ 0 := by omega
        simp only [userOp, eventSSLRead, hno, if_true, ends_pure]
        exact .refl s
  | kickWriteQueue => exact hfeeds (kickConnWriteQueue_feeds hfinish)
  | closeRequest =>
      simp only [userOp, closeRequest, ends_bind, ends_modify, ends_get, ends_ite, ends_pure]
      have hclose : Serves s { s with closeRequest := true } :=
        ⟨⟨prefix_refl _, id, id, rfl⟩, fun h hs =>
          hs.of_eq ⟨prefix_refl _, id, id, rfl⟩ rfl rfl (by cases h <;> rfl)⟩
      exact ⟨fun _ => sslShutdownBegin_serves.imp (fun _ t ht => hclose.trans ht),
        fun _ => hclose⟩
  | close => exact sslShutdownBegin_serves

theorem userOps_serves {cbs : Callbacks} (hread : ∀ n, Harmless (cbs.read n))
    (hfinish : ∀ id, Harmless (cbs.finish id)) (ops : List UserOp) :
    Harmless (userOps env cbs ops) := by
  induction ops with
  | nil => exact fun s => .refl s
  | cons op ops ih =>
      intro s
      simp only [userOps, ends_bind]
      refine (userOp_serves hread hfinish op).imp fun _ t ht => ?_
      exact (ih t).imp fun _ _ hu => ht.trans hu

theorem callbacks_harmless (env : Env) (depth : Nat) :
    (∀ n, Harmless ((callbacks env depth).read n)) ∧
      ∀ id, Harmless ((callbacks env depth).finish id) := by
  induction depth with
  | zero => exact ⟨fun _ _ => trivial, fun _ _ => trivial⟩
  | succ depth ih =>
      exact ⟨fun n => userOps_serves ih.1 ih.2 _, fun id => userOps_serves ih.1 ih.2 _⟩

theorem eventInvoke_serves {cbs : Callbacks} (hread : ∀ n, Harmless (cbs.read n))
    (hfinish : ∀ id, Harmless (cbs.finish id)) (dir : Dir) (size : Int) :
    Ends (eventInvoke env cbs dir size) s (fun _ t => Serves s t) fun _ _ => True := by
  simp only [eventInvoke, ends_bind, ends_get]
  cases hold : s.event dir with
  | none => exact .refl s
  | some h =>
      simp only [ends_bind, ends_modify]
      by_cases hsize : size ≤ 0
      · simp only [hsize, if_true]
        have htake : Serves s (take s .empty none dir) :=
          ⟨take_grows, fun _ hs => take_safe (fun _ _ => rfl) (by simp) hs⟩
        cases h with
        | sslRead =>
            simp only [eventSSLRead, hsize, if_true, ends_pure]
            exact htake
        | sslWrite =>
            simp only [eventSSLWrite, hsize, if_true, ends_pure]
            exact htake
      · simp only [hsize, if_false, append_nil]
        have hsize : 0 < size := by omega
        have hgrows : Grows s (s.withEvent none dir) :=
          ⟨by simp, fun hs => by simpa using hs, fun hs => by simpa using hs, by simp⟩
        -- the other handler is armed for the other direction
        have hother : ∀ h', h' ≠ h → Safe h' s → Safe h' (s.withEvent none dir) := by
          intro h' hne hs
          rcases hs with hs | hs
          · exact .inl (hgrows.excused hs)
          · refine .inr fun hn => ?_
            rw [withEvent_needs] at hn
            have hkept := hs hn
            rw [withEvent_running, armed_iff _ h' dir, withEvent_event_other]
            rw [armed_iff _ h' dir, hold] at hkept
            exact hkept.imp_right fun harmed =>
              .inr (harmed.resolve_left fun heq => hne (Option.some.inj heq).symm)
        cases h with
        | sslRead =>
            exact ends_of_feeds hgrows hother (eventSSLRead_feeds hread hsize)
        | sslWrite =>
            exact ends_of_feeds hgrows hother (eventSSLWrite_feeds hfinish hsize)

theorem accepted_serves {cbs : Callbacks} (hread : ∀ n, Harmless (cbs.read n))
    (hfinish : ∀ id, Harmless (cbs.finish id)) :
    Ends (accepted env cbs) s (fun _ t => Serves s t) fun _ _ => True := by
  simp only [accepted, ends_bind, ends_modify]
  have hmark : Serves s { s with established := true } :=
    ⟨⟨prefix_refl _, id, id, rfl⟩, fun h hs =>
      hs.of_eq ⟨prefix_refl _, id, id, rfl⟩ rfl rfl (by cases h <;> rfl)⟩
  refine (userOps_serves hread hfinish env.onAccept _).imp fun _ t ht => ?_
  have hgrows : Grows t { t with readHandler := env.defaultRead } := ⟨prefix_refl _, id, id, rfl⟩
  refine (ends_of_feeds hgrows (fun h' hne hs => ?_) (setEvent_feeds .sslRead .read)).imp
    (fun _ u hu => (hmark.trans ht).trans hu)
  refine hs.of_eq hgrows rfl rfl ?_
  cases h' with
  | sslRead => exact absurd rfl hne
  | sslWrite => rfl

theorem handle_serves (env : Env) (depth : Nat) (ev : Event) (s : CommEvTCPServerConn) :
    Ends (handle env depth ev) s (fun _ t => Serves s t) fun _ _ => True := by
  obtain ⟨hread, hfinish⟩ := callbacks_harmless env depth
  simp only [handle, ends_bind, ends_get, ends_ite, ends_pure]
  refine ⟨fun _ => .refl s, fun _ => ?_⟩
  cases ev with
  | accepted =>
      simp only [ends_ite, ends_pure]
      exact ⟨fun _ => accepted_serves hread hfinish, fun _ => .refl s⟩
  | io dir size =>
      simp only [ends_ite, ends_pure]
      exact ⟨fun _ => eventInvoke_serves hread hfinish dir size, fun _ => .refl s⟩
  | user op =>
      simp only [ends_ite, ends_pure]
      exact ⟨fun _ => userOp_serves hread hfinish op, fun _ => .refl s⟩
  | eof =>
      simp only [ends_modify]
      exact ⟨⟨prefix_refl _, id, fun _ => rfl, rfl⟩, fun _ _ => .inl (.inr (.inr rfl))⟩

end Handlers

/-- OpenSSL makes the first write wait for the other direction, and answers the first
read with `read`. -/
def renegotiate (write read : SslResult) : Env where
  sslRead n := if n = 0 then read else .success
  sslWrite n := if n = 0 then write else .success
  slotLeft _ := true
  defaultRead := true
  onAccept := []
  onRead _ := []
  onFinish _ := []

/-- A request waits for the write event, which a read takes. -/
def readTakesWrite : Config :=
  runFrom (renegotiate .wantWrite .wantWrite) 4 0 true [.user (.aioWrite 10 false), .io .read 100]

def writeTakesRead : Config :=
  runFrom (renegotiate .wantRead .success) 4 0 true [.user (.aioWrite 10 false)]

end Tcp.SslConn
