import BrbFramework.Lib.Handler

/-!
# Runs of an event loop

A single-threaded event loop takes one event at a time. Its configuration is
the state between events and the fault that stopped it, if one did: after a
failed assertion the process is gone and no later event has an effect.

A property of the states between events is proved once for one event, with
`Handler.Ends`, and `invariant_run` carries it to every run. The property of
the stopped configurations is separate, since an aborted handler leaves a state
that no boundary invariant needs to describe.
-/

namespace Runs

open Handler List

variable {ε σ ι : Type}

/-- The state between two events, and the fault that ended the run, if any. -/
structure Config (ε σ : Type) where
  state : σ
  fault : Option ε

/-- A configuration whose run has not been stopped. -/
def Config.live (s : σ) : Config ε σ := ⟨s, none⟩

/-- One event. A stopped configuration ignores it. -/
def step (handle : ι → EStateM ε σ PUnit) (c : Config ε σ) (e : ι) : Config ε σ :=
  match c.fault with
  | some _ => c
  | none => ⟨(exec (handle e) c.state).1, (exec (handle e) c.state).2⟩

/-- A finite sequence of events. -/
def run (handle : ι → EStateM ε σ PUnit) (c : Config ε σ) (evs : List ι) :
    Config ε σ :=
  evs.foldl (step handle) c

@[simp] theorem run_nil (handle : ι → EStateM ε σ PUnit) (c : Config ε σ) :
    run handle c [] = c := rfl

@[simp] theorem run_cons (handle : ι → EStateM ε σ PUnit) (c : Config ε σ)
    (e : ι) (evs : List ι) :
    run handle c (e :: evs) = run handle (step handle c e) evs := rfl

theorem run_append (handle : ι → EStateM ε σ PUnit) (c : Config ε σ)
    (evs evs' : List ι) :
    run handle c (evs ++ evs') = run handle (run handle c evs) evs' :=
  foldl_append

/-- `I` describes a live configuration and `A` a stopped one. -/
def Holds (I : σ → Prop) (A : ε → σ → Prop) (c : Config ε σ) : Prop :=
  match c.fault with
  | none => I c.state
  | some f => A f c.state

theorem Holds.mono {I J : σ → Prop} {A B : ε → σ → Prop} {c : Config ε σ} (hc : Holds I A c)
    (hI : ∀ s, I s → J s) (hA : ∀ f s, A f s → B f s) : Holds J B c := by
  unfold Holds at hc ⊢
  cases hf : c.fault with
  | none => exact hI c.state (by simpa [hf] using hc)
  | some f => exact hA f c.state (by simpa [hf] using hc)

theorem Holds.imp {I J : σ → Prop} {A : ε → σ → Prop} {c : Config ε σ} (hc : Holds I A c)
    (hI : ∀ s, I s → J s) : Holds J A c :=
  hc.mono hI fun _ _ hA => hA

/-- What holds of stopped configurations too holds of the state. -/
theorem Holds.always {I : σ → Prop} {c : Config ε σ} (hc : Holds I (fun _ => I) c) : I c.state := by
  unfold Holds at hc
  split at hc
  · exact hc
  · exact hc

/-- Where no stopped configuration has what it is to have, no run was stopped. -/
theorem Holds.safe {I : σ → Prop} {c : Config ε σ} (hc : Holds I (fun _ _ => False) c) :
    c.fault = none ∧ I c.state := by
  unfold Holds at hc
  split at hc
  case h_1 hnone => exact ⟨hnone, hc⟩
  case h_2 => exact hc.elim

/-- The faults of the stopped configurations, apart from what holds of all. -/
theorem Holds.faults {I : σ → Prop} {A : ε → σ → Prop} {B : ε → Prop} {c : Config ε σ}
    (hc : Holds I A c) (hA : ∀ f s, A f s → B f ∧ I s) :
    (∀ f, c.fault = some f → B f) ∧ I c.state := by
  unfold Holds at hc
  split at hc
  case h_1 hnone =>
    refine ⟨fun f hf => ?_, hc⟩
    exact nomatch hnone.symm.trans hf
  case h_2 f hsome =>
    obtain ⟨hB, hI⟩ := hA f c.state hc
    refine ⟨fun g hg => ?_, hI⟩
    obtain rfl := Option.some.inj (hsome.symm.trans hg)
    exact hB

theorem Holds.of_live {I : σ → Prop} {A : ε → σ → Prop} {c : Config ε σ} (hc : Holds I A c)
    (hlive : c.fault = none) : I c.state := by
  unfold Holds at hc
  rwa [hlive] at hc

theorem Holds.of_stopped {I : σ → Prop} {A : ε → σ → Prop} {c : Config ε σ} (hc : Holds I A c)
    {f : ε} (hstopped : c.fault = some f) : A f c.state := by
  unfold Holds at hc
  rwa [hstopped] at hc

/-- Every event of a run meets `P` in the state it finds. -/
def Meets (handle : ι → EStateM ε σ PUnit) (P : σ → ι → Prop) :
    Config ε σ → List ι → Prop
  | _, [] => True
  | c, e :: evs => (c.fault.isNone = true → P c.state e) ∧ Meets handle P (step handle c e) evs

instance instDecidableMeets (handle : ι → EStateM ε σ PUnit) (P : σ → ι → Prop)
    [∀ s e, Decidable (P s e)] : ∀ (c : Config ε σ) (evs : List ι), Decidable (Meets handle P c evs)
  | _, [] => isTrue trivial
  | c, e :: evs =>
      have := instDecidableMeets handle P (step handle c e) evs
      inferInstanceAs (Decidable (_ ∧ _))

/-- A condition that no state enters is met along every run whose events meet it. -/
theorem meets_of_forall {handle : ι → EStateM ε σ PUnit} {P : ι → Prop} {c : Config ε σ}
    {evs : List ι} (hall : ∀ e ∈ evs, P e) : Meets handle (fun _ => P) c evs := by
  induction evs generalizing c with
  | nil => trivial
  | cons e evs ih =>
      obtain ⟨he, hrest⟩ := forall_mem_cons.mp hall
      exact ⟨fun _ => he, ih hrest⟩

theorem meets_append {handle : ι → EStateM ε σ PUnit} {P : σ → ι → Prop} {c : Config ε σ}
    {evs evs' : List ι} :
    Meets handle P c (evs ++ evs') ↔
      Meets handle P c evs ∧ Meets handle P (run handle c evs) evs' := by
  induction evs generalizing c with
  | nil => exact (and_iff_right trivial).symm
  | cons e evs ih => simp only [cons_append, Meets, ih, run_cons, and_assoc]

theorem Meets.and {handle : ι → EStateM ε σ PUnit} {P Q : σ → ι → Prop} {c : Config ε σ}
    {evs : List ι} (h : Meets handle P c evs) (h' : Meets handle Q c evs) :
    Meets handle (fun s e => P s e ∧ Q s e) c evs := by
  induction evs generalizing c with
  | nil => trivial
  | cons e evs ih => exact ⟨fun hlive => ⟨h.1 hlive, h'.1 hlive⟩, ih h.2 h'.2⟩

/-- A condition on the events alone is met beside the other. -/
theorem Meets.and_forall {handle : ι → EStateM ε σ PUnit} {P : σ → ι → Prop} {Q : ι → Prop}
    {c : Config ε σ} {evs : List ι} (h : Meets handle P c evs) (hall : ∀ e ∈ evs, Q e) :
    Meets handle (fun s e => P s e ∧ Q e) c evs :=
  h.and (meets_of_forall hall)

/-- Every event of a run ends, and does `R` to the state it finds. -/
def Does (handle : ι → EStateM ε σ PUnit) (R : σ → ι → σ → Prop) : List ι → σ → Prop
  | [], _ => True
  | e :: evs, s => Ends (handle e) s (fun _ t => R s e t ∧ Does handle R evs t) fun _ _ => False

section Invariant

variable {handle : ι → EStateM ε σ PUnit} {I : σ → Prop} {A : ε → σ → Prop}

/-- An event whose handler does not abort. -/
theorem step_live {s t : σ} {e : ι} (h : Ends (handle e) s (fun _ s' => s' = t) fun _ _ => False) :
    step handle (.live s) e = .live t := by
  rcases exec_of_ends h with ⟨hnone, _, hstate⟩ | ⟨_, _, hfalse⟩
  · simp only [step, Config.live, hnone, hstate]
  · exact hfalse.elim

/-- One event leaves what its handler's lemma says. -/
theorem holds_step_of {J : σ → Prop} {c : Config ε σ} (hc : Holds I A c) (e : ι)
    (hstep : c.fault.isNone = true → I c.state → Ends (handle e) c.state (fun _ => J) A) :
    Holds J A (step handle c e) := by
  unfold step
  cases hf : c.fault with
  | some f => simpa [Holds, hf] using hc
  | none =>
      have hI : I c.state := by simpa [Holds, hf] using hc
      rcases exec_of_ends (hstep (by simp [hf]) hI) with ⟨hnone, _, hpost⟩ | ⟨f, hsome, hpost⟩
      · simpa [Holds, hnone] using hpost
      · simpa [Holds, hsome] using hpost

/-- One event keeps what its handler's lemma keeps. -/
theorem holds_step {c : Config ε σ} (hc : Holds I A c) (e : ι)
    (hstep : c.fault.isNone = true → I c.state → Ends (handle e) c.state (fun _ => I) A) :
    Holds I A (step handle c e) :=
  holds_step_of hc e hstep

/-- Run induction for the runs whose events all meet `P`. -/
theorem invariant_run_of {P : σ → ι → Prop}
    (hstep : ∀ e s, I s → P s e → Ends (handle e) s (fun _ => I) A)
    {c : Config ε σ} (hc : Holds I A c) (evs : List ι) (hmeets : Meets handle P c evs) :
    Holds I A (run handle c evs) := by
  induction evs generalizing c with
  | nil => exact hc
  | cons e evs ih =>
      obtain ⟨hP, hrest⟩ := hmeets
      exact ih (holds_step hc e fun hlive hI => hstep e c.state hI (hP hlive)) hrest

/-- Where one event that meets `P` does `R`, every event of a run does whose
events all meet `P`. -/
theorem does_of_meets {P : σ → ι → Prop} {R : σ → ι → σ → Prop}
    (hstep : ∀ e s, I s → P s e → Ends (handle e) s (fun _ t => I t ∧ R s e t) fun _ _ => False)
    {s : σ} (hs : I s) (evs : List ι) (hmeets : Meets handle P (.live s) evs) :
    Does handle R evs s := by
  induction evs generalizing s with
  | nil => trivial
  | cons e evs ih =>
      obtain ⟨hP, hrest⟩ := hmeets
      have hends := hstep e s hs (hP rfl)
      unfold Does
      unfold Ends at hends ⊢
      simp only [step, Config.live, exec] at hrest
      cases hx : handle e s with
      | ok a t =>
          rw [hx] at hends hrest
          exact ⟨hends.2, ih hends.1 hrest⟩
      | error f t =>
          rw [hx] at hends
          exact hends.elim

/-- Every event of a run meets `P` in the states of the specification and of the
program that it finds. -/
def MeetsAlong {α : Type} (handle : ι → EStateM ε σ PUnit) (spec : α → ι → α)
    (P : α → σ → ι → Prop) : α → Config ε σ → List ι → Prop
  | _, _, [] => True
  | a, c, e :: evs =>
      (c.fault.isNone = true → P a c.state e) ∧
        MeetsAlong handle spec P (spec a e) (step handle c e) evs

instance instDecidableMeetsAlong {α : Type} (handle : ι → EStateM ε σ PUnit) (spec : α → ι → α)
    (P : α → σ → ι → Prop) [∀ a s e, Decidable (P a s e)] :
    ∀ (a : α) (c : Config ε σ) (evs : List ι), Decidable (MeetsAlong handle spec P a c evs)
  | _, _, [] => isTrue trivial
  | a, c, e :: evs =>
      have := instDecidableMeetsAlong handle spec P (spec a e) (step handle c e) evs
      inferInstanceAs (Decidable (_ ∧ _))

/-- A condition that no state enters is met along every run whose events meet it. -/
theorem meetsAlong_of_forall {α : Type} {spec : α → ι → α} {P : ι → Prop} {a : α}
    {c : Config ε σ} {evs : List ι} (hall : ∀ e ∈ evs, P e) :
    MeetsAlong handle spec (fun _ _ => P) a c evs := by
  induction evs generalizing a c with
  | nil => trivial
  | cons e evs ih =>
      obtain ⟨he, hrest⟩ := forall_mem_cons.mp hall
      exact ⟨fun _ => he, ih hrest⟩

/-- **Refinement along a run.**  If each event that meets `P` takes related states to
related states, a run of such events does. -/
theorem refines_run {α : Type} {spec : α → ι → α} {R : α → σ → Prop} {P : α → σ → ι → Prop}
    (hstep : ∀ e a s, R a s → P a s e → Ends (handle e) s (fun _ => R (spec a e)) A)
    {a : α} {c : Config ε σ} (hc : Holds (R a) A c) (evs : List ι)
    (hmeets : MeetsAlong handle spec P a c evs) :
    Holds (R (evs.foldl spec a)) A (run handle c evs) := by
  induction evs generalizing a c with
  | nil => exact hc
  | cons e evs ih =>
      obtain ⟨hP, hrest⟩ := hmeets
      apply ih
      · exact holds_step_of hc e fun hlive hR => hstep e a c.state hR (hP hlive)
      · exact hrest

/-- Every event meets `P` in the state of the specification that it finds. -/
def Allowed {α : Type} (spec : α → ι → α) (P : α → ι → Prop) : α → List ι → Prop
  | _, [] => True
  | a, e :: evs => P a e ∧ Allowed spec P (spec a e) evs

instance instDecidableAllowed {α : Type} (spec : α → ι → α) (P : α → ι → Prop)
    [∀ a e, Decidable (P a e)] : ∀ (a : α) (evs : List ι), Decidable (Allowed spec P a evs)
  | _, [] => isTrue trivial
  | a, e :: evs =>
      have := instDecidableAllowed spec P (spec a e) evs
      inferInstanceAs (Decidable (_ ∧ _))

/-- What is met along the specification is met along the run. -/
theorem Allowed.meetsAlong {α : Type} {spec : α → ι → α} {P : α → ι → Prop} {a : α}
    {c : Config ε σ} {evs : List ι} (h : Allowed spec P a evs) :
    MeetsAlong handle spec (fun a _ => P a) a c evs := by
  induction evs generalizing a c with
  | nil => trivial
  | cons e evs ih => exact ⟨fun _ => h.1, ih h.2⟩

/-- If an event keeps the program related to its specification where it meets `P`, and
spoils `G` where it does not, then `G` holds all along the runs whose events meet `P`. -/
theorem always_iff_allowed {α : Type} {spec : α → ι → α} {R : α → σ → Prop} {P : α → ι → Prop}
    {G : α → Config ε σ → Prop} (hgood : ∀ a s, R a s → G a (.live s))
    (hstep : ∀ e a s, R a s → P a e → Ends (handle e) s (fun _ => R (spec a e)) fun _ _ => False)
    (hspoil : ∀ e a s, R a s → ¬P a e → ¬G (spec a e) (step handle (.live s) e))
    {a : α} {s : σ} (hs : R a s) (evs : List ι) :
    (∀ evs', evs' <+: evs → G (evs'.foldl spec a) (run handle (.live s) evs')) ↔
      Allowed spec P a evs := by
  induction evs generalizing a s with
  | nil =>
      refine iff_of_true (fun evs' hpre => ?_) trivial
      obtain rfl := prefix_nil.1 hpre
      exact hgood a s hs
  | cons e evs ih =>
      by_cases hP : P a e
      · have hnext := holds_step_of (A := fun _ _ => False) (c := .live s) hs e fun _ h =>
          hstep e a s h hP
        obtain ⟨t, hlive, hR⟩ : ∃ t, step handle (.live s) e = .live t ∧ R (spec a e) t := by
          obtain ⟨hnone, hR⟩ := hnext.safe
          refine ⟨_, ?_, hR⟩
          generalize step handle (.live s) e = c at hnone
          cases c
          cases hnone
          rfl
        rw [Allowed, and_iff_right hP, ← ih hR]
        constructor
        · intro h evs' hpre
          have hcons := h (e :: evs') (cons_prefix_cons.2 ⟨rfl, hpre⟩)
          rwa [foldl_cons, run_cons, hlive] at hcons
        · intro h evs' hpre
          cases evs' with
          | nil => exact hgood a s hs
          | cons e' evs' =>
              obtain ⟨rfl, hrest⟩ := cons_prefix_cons.1 hpre
              rw [foldl_cons, run_cons, hlive]
              exact h evs' hrest
      · refine iff_of_false (fun h => ?_) fun h => hP h.1
        exact hspoil e a s hs hP (h [e] (cons_prefix_cons.2 ⟨rfl, nil_prefix⟩))

/-- **Run induction.**  What one event preserves holds after every run. -/
theorem invariant_run (hstep : ∀ e s, I s → Ends (handle e) s (fun _ => I) A)
    {c : Config ε σ} (hc : Holds I A c) (evs : List ι) :
    Holds I A (run handle c evs) := by
  induction evs generalizing c with
  | nil => exact hc
  | cons e evs ih => exact ih (holds_step hc e fun _ => hstep e c.state)

end Invariant

end Runs
