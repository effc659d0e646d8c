import BrbFramework.Lib.Handler
import Mathlib.Order.Defs.Unbundled

/-!
# Handlers that move along a preorder

`Along R x` says that wherever the handler `x` ends, returned or aborted, the
state it leaves is related by `R` to the one it found. Where `R` is a preorder
this goes through the control structures, so that it is shown for a handler by
following its text, and once for each write in it.
-/

namespace Handler

universe u

variable {ε σ α β : Type u} {R : σ → σ → Prop} {s : σ}

/-- The handler `x` leaves a state that `R` relates to the one it found. -/
def Along (R : σ → σ → Prop) (x : EStateM ε σ α) : Prop :=
  ∀ s, Ends x s (fun _ t => R s t) fun _ t => R s t

theorem along_modify {f : σ → σ} (h : ∀ s, R s (f s)) :
    Along R (modify f : EStateM ε σ PUnit) := h

theorem along_modifyGet {f : σ → α × σ} (h : ∀ s, R s (f s).2) :
    Along R (modifyGet f : EStateM ε σ α) := h

theorem Along.ite {c : Prop} [Decidable c] {x y : EStateM ε σ α} (hx : Along R x)
    (hy : Along R y) : Along R (if c then x else y) := by
  split
  · exact hx
  · exact hy

/-- The state is read, and what follows may depend on it. -/
theorem along_get_bind {f : σ → EStateM ε σ α} (h : ∀ t, Along R (f t)) :
    Along R (get >>= f) :=
  fun s => h s s

section Preorder

variable [IsPreorder σ R]

theorem along_pure (a : α) : Along R (pure a : EStateM ε σ α) := fun s => refl_of R s

theorem along_throw (e : ε) : Along R (throw e : EStateM ε σ α) := fun s => refl_of R s

theorem along_assertThat (c : Bool) (f : ε) :
    Along R (assertThat c f : EStateM ε σ PUnit) :=
  Along.ite (along_pure _) (along_throw _)

theorem Along.bind {x : EStateM ε σ α} {f : α → EStateM ε σ β} (hx : Along R x)
    (hf : ∀ a, Along R (f a)) : Along R (x >>= f) := by
  intro s
  rw [ends_bind]
  refine (hx s).mono (fun a t hst => ?_) fun _ _ hst => hst
  exact (hf a t).mono (fun _ _ htu => trans_of R hst htu) fun _ _ htu => trans_of R hst htu

end Preorder

end Handler
