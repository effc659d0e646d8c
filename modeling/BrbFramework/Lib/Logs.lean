import Mathlib.Data.List.Basic

/-!
# The order of what is noted in a log

A log only grows at its end, so what it says about the order of two notes is kept if the
note at the end is the one that may come last. `lastOf f` is what the last note that `f`
reads says.
-/

namespace Logs

open List

variable {α : Type} {log l : List α} {a b : α}

/-- No `b` comes before an `a`. -/
def Before (log : List α) (a b : α) : Prop := ∀ l r, log = l ++ a :: r → b ∉ l

theorem Before.append (h : Before log a b) (hl : a ∈ l → b ∉ log ∧ b ∉ l) :
    Before (log ++ l) a b := by
  intro l₁ r heq
  rcases append_eq_append_iff.1 heq with ⟨c, rfl, rfl⟩ | ⟨c, rfl, hc⟩
  · obtain ⟨hlog, hl⟩ := hl (by simp)
    simp only [mem_append, not_or] at hl ⊢
    exact ⟨hlog, hl.1⟩
  · cases c with
    | nil =>
        obtain ⟨hlog, -⟩ := hl (by rw [← nil_append l, ← hc]; exact mem_cons_self)
        rwa [append_nil] at hlog
    | cons o c =>
        obtain ⟨rfl, rfl⟩ := List.cons.inj hc
        exact h l₁ c rfl

/-- The end of the log is not about `a`. -/
theorem Before.append_of_notMem (h : Before log a b) (ha : a ∉ l) : Before (log ++ l) a b :=
  h.append fun hin => absurd hin ha

theorem before_nil : Before ([] : List α) a b := by
  intro l r heq
  simp at heq

/-- Between two `a`s there is a `b`. -/
def Separated (log : List α) (a b : α) : Prop :=
  ∀ l mid r, log = l ++ a :: (mid ++ a :: r) → b ∈ mid

/-- After every `a` there is a `b`. -/
def Settled (log : List α) (a b : α) : Prop := ∀ l r, log = l ++ a :: r → b ∈ r

theorem separated_nil : Separated ([] : List α) a b := by
  intro l mid r heq
  simp at heq

theorem settled_nil : Settled ([] : List α) a b := by
  intro l r heq
  simp at heq

/-- A log that goes on with one note is the log so far up to any `c` that is not that note. -/
theorem eq_append_of_concat {c : α} {r : List α} (heq : log ++ [a] = l ++ c :: r) :
    (r = [] ∧ c = a ∧ log = l) ∨ ∃ r', r = r' ++ [a] ∧ log = l ++ c :: r' := by
  rcases eq_nil_or_concat r with rfl | ⟨r', d, rfl⟩
  · obtain ⟨hlog, hca⟩ := append_inj' heq rfl
    exact .inl ⟨rfl, by simpa [eq_comm] using hca, hlog⟩
  · rw [concat_eq_append] at heq ⊢
    have hsplit : log ++ [a] = (l ++ c :: r') ++ [d] := by simpa using heq
    obtain ⟨hlog, had⟩ := append_inj' hsplit rfl
    exact .inr ⟨r', by simpa [eq_comm] using had, hlog⟩

/-- A settled log may go on with any note. -/
theorem Separated.concat {c : α} (h : Separated log a b) (hc : c = a → Settled log a b) :
    Separated (log ++ [c]) a b := by
  intro l mid r heq
  have heq' : log ++ [c] = (l ++ a :: mid) ++ a :: r := by simpa using heq
  rcases eq_append_of_concat heq' with ⟨-, rfl, hlog⟩ | ⟨r', rfl, hlog⟩
  · exact hc rfl l mid hlog
  · exact h l mid r' (by simpa using hlog)

/-- A note that is not `a` leaves the log settled. -/
theorem Settled.concat {c : α} (h : Settled log a b) (hc : c ≠ a) : Settled (log ++ [c]) a b := by
  intro l r heq
  rcases eq_append_of_concat heq with ⟨-, rfl, -⟩ | ⟨r', rfl, hlog⟩
  · exact absurd rfl hc
  · exact mem_append_left _ (h l r' hlog)

/-- A `b` settles the log. -/
theorem settled_concat (hne : b ≠ a) : Settled (log ++ [b]) a b := by
  intro l r heq
  rcases eq_append_of_concat heq with ⟨-, rfl, -⟩ | ⟨r', rfl, -⟩
  · exact absurd rfl hne
  · simp

variable {β : Type} {f : α → Option β}

/-- What the last of the notes that `f` reads says. -/
def lastOf (f : α → Option β) (log : List α) : Option β := (log.filterMap f).getLast?

@[simp] theorem lastOf_nil : lastOf f [] = none := rfl

theorem lastOf_append : lastOf f (log ++ l) = (lastOf f l).or (lastOf f log) := by
  simp only [lastOf, filterMap_append, getLast?_append]

/-- A note that `f` does not read changes nothing. -/
theorem lastOf_append_of_none (h : ∀ a ∈ l, f a = none) : lastOf f (log ++ l) = lastOf f log := by
  have hnil : l.filterMap f = [] := filterMap_eq_nil_iff.mpr h
  rw [lastOf_append, lastOf, hnil, getLast?_nil, Option.none_or]

theorem lastOf_concat {b : β} (h : f a = some b) : lastOf f (log ++ [a]) = some b := by
  simp [lastOf, h]

end Logs
