import Mathlib.Logic.Relation

/-!
# Handlers that may abort

An event handler of a single-threaded program runs to its end, or stops in the
middle on a failed assertion; either way it leaves a state behind. `EStateM`
is that shape. `Ends x s Q E` says where the handler `x` ends when it starts
in `s`: with a result and a state in `Q`, or aborted with a fault and a state
in `E`.

The equations below push `Ends` through a `do` block, so that a handler is
executed symbolically by `simp only` and stops at the calls of other handlers,
where `Ends.mono` brings in the lemma about the callee.
-/

namespace Handler

universe u

variable {ε σ α β : Type u}

/-- Where the handler `x` ends when it is started in the state `s`. -/
def Ends (x : EStateM ε σ α) (s : σ) (Q : α → σ → Prop) (E : ε → σ → Prop) : Prop :=
  match x s with
  | .ok a s' => Q a s'
  | .error e s' => E e s'

instance (x : EStateM ε σ α) (s : σ) (Q : α → σ → Prop) (E : ε → σ → Prop)
    [∀ a t, Decidable (Q a t)] [∀ e t, Decidable (E e t)] : Decidable (Ends x s Q E) :=
  match h : x s with
  | .ok a t => decidable_of_iff (Q a t) (by simp [Ends, h])
  | .error e t => decidable_of_iff (E e t) (by simp [Ends, h])

/-- Abort with `f` unless `c` holds. -/
def assertThat (c : Bool) (f : ε) : EStateM ε σ PUnit :=
  if c then pure PUnit.unit else throw f

/-- A handler of a part of the state. -/
def within {τ : Type u} (part : σ → τ) (put : σ → τ → σ) (x : EStateM ε τ α) :
    EStateM ε σ α := fun s =>
  match x (part s) with
  | .ok a t => .ok a (put s t)
  | .error e t => .error e (put s t)

section Rules

variable {Q : α → σ → Prop} {E : ε → σ → Prop} {s : σ}

@[simp] theorem ends_pure (a : α) :
    Ends (pure a : EStateM ε σ α) s Q E ↔ Q a s := Iff.rfl

@[simp] theorem ends_throw (e : ε) :
    Ends (throw e : EStateM ε σ α) s Q E ↔ E e s := Iff.rfl

@[simp] theorem ends_bind {R : β → σ → Prop} (x : EStateM ε σ α)
    (f : α → EStateM ε σ β) :
    Ends (x >>= f) s R E ↔ Ends x s (fun a s' => Ends (f a) s' R E) E := by
  unfold Ends
  change (match EStateM.bind x f s with
    | .ok a s' => R a s'
    | .error e s' => E e s') ↔ _
  unfold EStateM.bind
  cases x s <;> rfl

@[simp] theorem ends_map {R : β → σ → Prop} (f : α → β) (x : EStateM ε σ α) :
    Ends (f <$> x) s R E ↔ Ends x s (fun a s' => R (f a) s') E := by
  unfold Ends
  change (match EStateM.map f x s with
    | .ok a s' => R a s'
    | .error e s' => E e s') ↔ _
  unfold EStateM.map
  cases x s <;> rfl

@[simp] theorem ends_get {R : σ → σ → Prop} :
    Ends (get : EStateM ε σ σ) s R E ↔ R s s := Iff.rfl

@[simp] theorem ends_set {R : PUnit → σ → Prop} (t : σ) :
    Ends (set t : EStateM ε σ PUnit) s R E ↔ R PUnit.unit t := Iff.rfl

@[simp] theorem ends_modify {R : PUnit → σ → Prop} (f : σ → σ) :
    Ends (modify f : EStateM ε σ PUnit) s R E ↔ R PUnit.unit (f s) := Iff.rfl

@[simp] theorem ends_modifyGet (f : σ → α × σ) :
    Ends (modifyGet f : EStateM ε σ α) s Q E ↔ Q (f s).1 (f s).2 := Iff.rfl

theorem ends_ite {c : Prop} [Decidable c] (x y : EStateM ε σ α) :
    Ends (if c then x else y) s Q E ↔
      (c → Ends x s Q E) ∧ (¬c → Ends y s Q E) := by
  by_cases h : c <;> simp [h]

@[simp] theorem ends_assertThat {R : PUnit → σ → Prop} (c : Bool) (f : ε) :
    Ends (assertThat c f : EStateM ε σ PUnit) s R E ↔
      (c = true → R PUnit.unit s) ∧ (c = false → E f s) := by
  cases c <;> simp [assertThat]

@[simp] theorem ends_within {τ : Type u} (part : σ → τ) (put : σ → τ → σ)
    (x : EStateM ε τ α) :
    Ends (within part put x) s Q E ↔
      Ends x (part s) (fun a t => Q a (put s t)) fun e t => E e (put s t) := by
  unfold Ends within
  cases x (part s) <;> rfl

/-- Weakening of both outcomes: the rule that uses a callee's lemma. -/
theorem Ends.mono {x : EStateM ε σ α} {Q' : α → σ → Prop} {E' : ε → σ → Prop}
    (h : Ends x s Q E) (hQ : ∀ a s', Q a s' → Q' a s')
    (hE : ∀ e s', E e s' → E' e s') : Ends x s Q' E' := by
  unfold Ends at h ⊢
  cases hx : x s with
  | ok a s' => exact hQ a s' (by simpa [hx] using h)
  | error e s' => exact hE e s' (by simpa [hx] using h)

/-- The rule where only what is said of the results is weakened. -/
theorem Ends.imp {x : EStateM ε σ α} {Q' : α → σ → Prop} (h : Ends x s Q E)
    (hQ : ∀ a s', Q a s' → Q' a s') : Ends x s Q' E :=
  h.mono hQ fun _ _ he => he

/-- The rule for a callee that does not abort. -/
theorem Ends.total {x : EStateM ε σ α} {Q' : α → σ → Prop}
    (h : Ends x s Q fun _ _ => False) (hQ : ∀ a s', Q a s' → Q' a s') : Ends x s Q' E :=
  h.mono hQ fun _ _ hfalse => hfalse.elim

/-- Two lemmas about one handler. -/
theorem Ends.and {x : EStateM ε σ α} {Q' : α → σ → Prop} {E' : ε → σ → Prop}
    (h : Ends x s Q E) (h' : Ends x s Q' E') :
    Ends x s (fun a t => Q a t ∧ Q' a t) fun e t => E e t ∧ E' e t := by
  unfold Ends at h h' ⊢
  cases hx : x s with
  | ok a t => exact ⟨by simpa [hx] using h, by simpa [hx] using h'⟩
  | error e t => exact ⟨by simpa [hx] using h, by simpa [hx] using h'⟩

/-- A handler that does not abort, and in whose outcomes `Q` comes to `P`. -/
theorem ends_iff {P : Prop} {x : EStateM ε σ α}
    (h : Ends x s (fun a t => Q a t ↔ P) fun _ _ => False) :
    Ends x s Q (fun _ _ => False) ↔ P := by
  unfold Ends at h ⊢
  cases hx : x s with
  | ok a t => simpa [hx] using h
  | error e t => simp [hx] at h

/-- The same of a handler that aborts only where `P` fails. -/
theorem ends_total_iff {P : Prop} {x : EStateM ε σ α}
    (h : Ends x s (fun a t => Q a t ↔ P) fun _ _ => ¬ P) :
    Ends x s Q (fun _ _ => False) ↔ P := by
  unfold Ends at h ⊢
  cases hx : x s with
  | ok a t => simpa [hx] using h
  | error e t => simpa [hx] using h

/-- The same of a handler that may abort, about what holds if it does not. -/
theorem ends_partial_iff {P : Prop} {x : EStateM ε σ α}
    (h : Ends x s (fun a t => Q a t ↔ P) fun _ _ => P) :
    Ends x s Q (fun _ _ => True) ↔ P := by
  unfold Ends at h ⊢
  cases hx : x s with
  | ok a t => simpa [hx] using h
  | error e t => simpa [hx] using h

/-- A handler that does not abort returns. -/
theorem Ends.returns {x : EStateM ε σ α} (h : Ends x s Q fun _ _ => False) :
    ∃ a t, x s = .ok a t ∧ Q a t := by
  unfold Ends at h
  cases hx : x s with
  | ok a t =>
      rw [hx] at h
      exact ⟨a, t, rfl, h⟩
  | error e t =>
      rw [hx] at h
      exact h.elim

/-- A handler ends somewhere. -/
theorem not_ends_false {x : EStateM ε σ α} :
    ¬ Ends x s (fun _ _ => False) fun _ _ => False := by
  unfold Ends
  cases x s <;> exact id

end Rules

/-- The state a handler leaves, and the fault if it aborted. -/
def exec (x : EStateM ε σ α) (s : σ) : σ × Option ε :=
  match x s with
  | .ok _ s' => (s', none)
  | .error e s' => (s', some e)

/-- What a handler's lemma says about the state it leaves. -/
theorem exec_of_ends {x : EStateM ε σ α} {s : σ} {Q : α → σ → Prop}
    {E : ε → σ → Prop} (h : Ends x s Q E) :
    ((exec x s).2 = none ∧ ∃ a, Q a (exec x s).1) ∨
      ∃ e, (exec x s).2 = some e ∧ E e (exec x s).1 := by
  unfold Ends at h
  unfold exec
  cases hx : x s with
  | ok a s' => exact Or.inl ⟨rfl, a, by simpa [hx] using h⟩
  | error e s' => exact Or.inr ⟨e, rfl, by simpa [hx] using h⟩

/-- A handler is followed by what comes after the state it was seen to leave. -/
theorem ends_of_exec {x : EStateM ε σ PUnit} {s t : σ} {Q : PUnit → σ → Prop}
    {E : ε → σ → Prop} (h : exec x s = (t, none)) : Ends x s Q E ↔ Q PUnit.unit t := by
  unfold exec at h
  unfold Ends
  cases hx : x s with
  | ok a s' =>
      simp only [hx, Prod.mk.injEq] at h
      simp [h.1]
  | error e s' => simp [hx] at h

end Handler
