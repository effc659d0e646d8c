import Mathlib.Algebra.GroupWithZero.Nat
import BrbFramework.Lib.Runs

/-!
# Working off an agenda

A run works off an agenda, item by item and in its order, and notes what it does. An item
may leave the agenda undone, but only in a state that `Lost` describes. What every step
does to the agenda is shown once, and the two theorems below carry it to the run: nothing is
done twice or out of turn, and what is not done has been lost somewhere.

The steps are paid for by a budget, which some of them may raise; this bounds the number of
those that only spend.
-/

namespace Runs

open Handler List

variable {ε σ ι α : Type} {handle : ι → EStateM ε σ PUnit}

/-- What the events of a run note. -/
def notes (handle : ι → EStateM ε σ PUnit) (note : σ → ι → List α) :
    Config ε σ → List ι → List α
  | _, [] => []
  | c, e :: evs =>
      (if c.fault.isNone then note c.state e else []) ++ notes handle note (step handle c e) evs

/-- What is done of the agenda `l` between two states, and what is left of it. -/
structure WorksOff (Lost : α → σ → Prop) (done l left : List α) (s t : σ) : Prop where
  inOrder : List.Sublist (done ++ left) l
  rest : ∀ x ∈ l, x ∈ done ∨ x ∈ left ∨ Lost x s ∨ Lost x t

theorem WorksOff.refl (Lost : α → σ → Prop) (l : List α) (s t : σ) : WorksOff Lost [] l l s t where
  inOrder := List.Sublist.refl l
  rest _ hx := .inr (.inl hx)

/-- Two parts of an agenda of which nothing is done. -/
theorem WorksOff.append {Lost : α → σ → Prop} {l left m rest : List α} {s t : σ}
    (h : WorksOff Lost [] l left s t) (h' : WorksOff Lost [] m rest s t) :
    WorksOff Lost [] (l ++ m) (left ++ rest) s t where
  inOrder := h.inOrder.append h'.inOrder
  rest x hx := by
    rcases mem_append.1 hx with hx | hx
    · exact (h.rest x hx).imp_right (Or.imp_left (mem_append_left rest))
    · exact (h'.rest x hx).imp_right (Or.imp_left (mem_append_right left))

theorem run_stopped {c : Config ε σ} {f : ε} (hstopped : c.fault = some f) (evs : List ι) :
    run handle c evs = c := by
  induction evs with
  | nil => rfl
  | cons e evs ih =>
      have hstep : step handle c e = c := by simp only [step, hstopped]
      rw [run_cons, hstep]
      exact ih

/-- The notes of a stopped run do not go on. -/
theorem notes_stopped {note : σ → ι → List α} {c : Config ε σ} {f : ε}
    (hstopped : c.fault = some f) (evs : List ι) : notes handle note c evs = [] := by
  induction evs with
  | nil => rfl
  | cons e evs ih =>
      have hstep : step handle c e = c := by simp only [step, hstopped]
      simp only [notes, hstopped, hstep, ih, append_nil]
      rfl

/-- An event goes on to a state, or stops in one. -/
theorem step_cases {s : σ} {e : ι} {Q E : σ → Prop}
    (h : Ends (handle e) s (fun _ => Q) fun _ => E) :
    (∃ t, step handle (.live s) e = .live t ∧ Q t) ∨
      ∃ f t, step handle (.live s) e = ⟨t, some f⟩ ∧ E t := by
  rcases exec_of_ends h with ⟨hnone, _, hQ⟩ | ⟨f, hsome, hE⟩
  · exact .inl ⟨_, by simp only [step, Config.live, hnone], hQ⟩
  · exact .inr ⟨f, _, by simp only [step, Config.live, hsome], hE⟩

section Agenda

variable {I : σ → Prop} {P : σ → ι → Prop} {agenda : σ → List α} {note : σ → ι → List α}
  {Lost : α → σ → Prop}
  (hstep : ∀ e s, I s → P s e →
    Ends (handle e) s (fun _ t => I t ∧ WorksOff Lost (note s e) (agenda s) (agenda t) s t)
      fun _ _ => List.Sublist (note s e) (agenda s))

include hstep

/-- **Nothing is done twice or out of turn**: what a run notes is a part of the agenda, in
its order. -/
theorem notes_sublist {s : σ} (hs : I s) (evs : List ι) (hmeets : Meets handle P (.live s) evs) :
    List.Sublist (notes handle note (.live s) evs) (agenda s) := by
  induction evs generalizing s with
  | nil => exact nil_sublist _
  | cons e evs ih =>
      obtain ⟨hP, hrest⟩ := hmeets
      change List.Sublist (note s e ++ notes handle note (step handle (.live s) e) evs) (agenda s)
      rcases step_cases (hstep e s hs (hP rfl)) with ⟨t, ht, hI, hworks⟩ | ⟨f, t, ht, hnote⟩
      · rw [ht] at hrest ⊢
        exact ((ih hI hrest).append_left (note s e)).trans hworks.inOrder
      · rw [ht, notes_stopped rfl, append_nil]
        exact hnote

/-- **What is not done is lost somewhere.** -/
theorem notes_or_lost {s : σ} (hs : I s) (evs : List ι) (hmeets : Meets handle P (.live s) evs)
    (hlive : (run handle (.live s) evs).fault = none) :
    ∀ x ∈ agenda s, x ∈ notes handle note (.live s) evs ∨
      x ∈ agenda (run handle (.live s) evs).state ∨
        ∃ evs', evs' <+: evs ∧ Lost x (run handle (.live s) evs').state := by
  induction evs generalizing s with
  | nil => exact fun x hx => .inr (.inl hx)
  | cons e evs ih =>
      obtain ⟨hP, hrest⟩ := hmeets
      intro x hx
      change x ∈ note s e ++ notes handle note (step handle (.live s) e) evs ∨ _
      rw [run_cons] at hlive ⊢
      rcases step_cases (hstep e s hs (hP rfl)) with ⟨t, ht, hI, hworks⟩ | ⟨f, t, ht, -⟩
      · have hlater : ∀ evs', run handle (.live s) (e :: evs') = run handle (.live t) evs' := by
          intro evs'
          rw [run_cons, ht]
        rw [ht] at hrest hlive ⊢
        rcases hworks.rest x hx with hdone | hleft | hlost | hlost
        · exact .inl (mem_append_left _ hdone)
        · rcases ih hI hrest hlive x hleft with hnoted | hleft | ⟨evs', hpre, hlost⟩
          · exact .inl (mem_append_right _ hnoted)
          · exact .inr (.inl hleft)
          · rw [← hlater] at hlost
            exact .inr (.inr ⟨e :: evs', cons_prefix_cons.2 ⟨rfl, hpre⟩, hlost⟩)
        · exact .inr (.inr ⟨[], nil_prefix, hlost⟩)
        · have hfirst : Lost x (run handle (.live s) [e]).state := by
            rw [hlater]
            exact hlost
          exact .inr (.inr ⟨[e], cons_prefix_cons.2 ⟨rfl, nil_prefix⟩, hfirst⟩)
      · rw [ht, run_stopped rfl] at hlive
        cases hlive

end Agenda

/-- **The budget pays for every step.** -/
theorem budget_run {I : σ → Prop} {P : σ → ι → Prop} {budget : σ → Nat} {cost gain : ι → Nat}
    (hstep : ∀ e s, I s → P s e →
      Ends (handle e) s (fun _ t => I t ∧ cost e + budget t ≤ budget s + gain e) fun _ _ => True)
    {s : σ} (hs : I s) (evs : List ι) (hmeets : Meets handle P (.live s) evs)
    (hlive : (run handle (.live s) evs).fault = none) :
    (evs.map cost).sum ≤ budget s + (evs.map gain).sum := by
  induction evs generalizing s with
  | nil => exact Nat.zero_le _
  | cons e evs ih =>
      obtain ⟨hP, hrest⟩ := hmeets
      rw [run_cons] at hlive
      rcases step_cases (hstep e s hs (hP rfl)) with ⟨t, ht, hI, hpaid⟩ | ⟨f, t, ht, -⟩
      · rw [ht] at hrest hlive
        have hlater := ih hI hrest hlive
        simp only [map_cons, sum_cons]
        omega
      · rw [ht, run_stopped rfl] at hlive
        cases hlive

end Runs
