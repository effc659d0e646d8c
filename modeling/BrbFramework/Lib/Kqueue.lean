import Mathlib.Logic.Function.Basic

/-!
# A kernel queue of events

A kernel keeps a filter for some of the identifiers. A process sends it a list of changes,
which are made in their order: `add` registers a filter or replaces one, `delete` removes
it, `enable` and `disable` keep it registered, as does `touch`, for the rest. A change of a filter
that is not registered is refused and makes no difference. A filter that is registered and enabled may fire, and
one that was added with `oneshot` is removed by that.

Each registration carries a tag, which comes back with its events.
-/

namespace Kqueue

open List Function

variable {ι τ : Type} [DecidableEq ι]

structure Filter (τ : Type) where
  tag : τ
  oneshot : Bool
  enabled : Bool := true
  deriving DecidableEq, Repr

inductive Action (τ : Type)
  | add (tag : τ) (oneshot : Bool)
  | delete
  | enable
  | disable
  | touch
  deriving DecidableEq, Repr

structure Change (ι τ : Type) where
  ident : ι
  action : Action τ
  deriving DecidableEq, Repr

/-- The filters that are registered. -/
abbrev Table (ι τ : Type) := ι → Option (Filter τ)

/-- What an action makes of a filter; `none` if it is refused. -/
def Action.apply : Action τ → Option (Filter τ) → Option (Option (Filter τ))
  | add tag oneshot, _ => some (some { tag, oneshot })
  | delete, some _ => some none
  | enable, some f => some (some { f with enabled := true })
  | disable, some f => some (some { f with enabled := false })
  | touch, some f => some (some f)
  | _, none => none

/-- One change. -/
def change (k : Table ι τ) (c : Change ι τ) : Table ι τ :=
  match c.action.apply (k c.ident) with
  | none => k
  | some f => Function.update k c.ident f

/-- The change refers to a filter that is not registered. -/
def Refused (k : Table ι τ) (c : Change ι τ) : Prop := c.action.apply (k c.ident) = none

instance (k : Table ι τ) (c : Change ι τ) : Decidable (Refused k c) :=
  decidable_of_iff ((c.action.apply (k c.ident)).isNone = true) Option.isNone_iff_eq_none

/-- A list of changes. -/
def changes (k : Table ι τ) (l : List (Change ι τ)) : Table ι τ := l.foldl change k

/-- The changes of a list that are refused. -/
def refused (k : Table ι τ) : List (Change ι τ) → List (Change ι τ)
  | [] => []
  | c :: l => if Refused k c then c :: refused k l else refused (change k c) l

/-- The filter of `i` fires. -/
def fire (k : Table ι τ) (i : ι) : Option (τ × Table ι τ) :=
  match k i with
  | none => none
  | some f =>
      if f.enabled then some (f.tag, if f.oneshot then Function.update k i none else k) else none

/-- The events of the filters that fire among `is`, and the filters that are left. -/
def collect (k : Table ι τ) : List ι → List (ι × τ) × Table ι τ
  | [] => ([], k)
  | i :: is =>
      match fire k i with
      | none => collect k is
      | some (tag, k') => ((i, tag) :: (collect k' is).1, (collect k' is).2)

section Facts

variable {k : Table ι τ} {c : Change ι τ} {i : ι}

theorem changes_append (l l' : List (Change ι τ)) :
    changes k (l ++ l') = changes (changes k l) l' :=
  foldl_append

@[simp] theorem changes_concat (l : List (Change ι τ)) :
    changes k (l ++ [c]) = change (changes k l) c := by
  rw [changes_append]
  rfl

theorem change_of_ne (h : i ≠ c.ident) : change k c i = k i := by
  unfold change
  cases c.action.apply (k c.ident) with
  | none => rfl
  | some f => exact update_of_ne h ..

theorem change_self : change k c c.ident = (c.action.apply (k c.ident)).getD (k c.ident) := by
  unfold change
  cases c.action.apply (k c.ident) with
  | none => rfl
  | some f => exact update_self ..

theorem change_of_refused (h : Refused k c) : change k c = k := by
  unfold change
  rw [h]

theorem refused_append (l l' : List (Change ι τ)) :
    refused k (l ++ l') = refused k l ++ refused (changes k l) l' := by
  induction l generalizing k with
  | nil => rfl
  | cons c l ih =>
      by_cases h : Refused k c
      · have hsame : changes k (c :: l) = changes k l := by
          rw [changes, foldl_cons, change_of_refused h]
          rfl
        simp only [cons_append, refused, if_pos h, hsame, ih]
      · simp only [cons_append, refused, if_neg h, ih]
        rfl

/-- What an event says about its filter, which is left or removed. -/
theorem fire_eq_some {tag : τ} {k' : Table ι τ} (h : fire k i = some (tag, k')) :
    ∃ f, k i = some f ∧ f.tag = tag ∧ f.enabled = true ∧
      k' = if f.oneshot then update k i none else k := by
  unfold fire at h
  split at h
  · cases h
  · rename_i f hf
    split at h
    · simp only [Option.some.injEq, Prod.mk.injEq] at h
      exact ⟨f, hf, h.1, ‹_›, h.2.symm⟩
    · cases h

/-- A filter that is left after a firing was there before. -/
theorem fire_sub {tag : τ} {k' : Table ι τ} {j : ι} {f : Filter τ}
    (h : fire k i = some (tag, k')) (hj : k' j = some f) : k j = some f := by
  obtain ⟨g, -, -, -, rfl⟩ := fire_eq_some h
  split at hj
  · by_cases hji : j = i
    · rw [hji, update_self] at hj
      cases hj
    · rwa [update_of_ne hji] at hj
  · exact hj

theorem collect_sub {j : ι} {f : Filter τ} (is : List ι) (h : (collect k is).2 j = some f) :
    k j = some f := by
  induction is generalizing k with
  | nil => exact h
  | cons i is ih =>
      unfold collect at h
      cases hfire : fire k i with
      | none =>
          rw [hfire] at h
          exact ih h
      | some e =>
          rw [hfire] at h
          exact fire_sub hfire (ih h)

/-- An event has the tag of its filter, which is not left if it was a `oneshot`. -/
theorem collect_event {j : ι} {tag : τ} (is : List ι) (h : (j, tag) ∈ (collect k is).1) :
    ∃ f, k j = some f ∧ f.tag = tag ∧ (f.oneshot = true → (collect k is).2 j = none) := by
  induction is generalizing k with
  | nil => cases h
  | cons i is ih =>
      unfold collect at h ⊢
      cases hfire : fire k i with
      | none =>
          rw [hfire] at h
          exact ih h
      | some e =>
          obtain ⟨tag', k'⟩ := e
          rw [hfire] at h
          rcases mem_cons.1 h with heq | hin
          · obtain ⟨rfl, rfl⟩ := Prod.mk.inj heq
            obtain ⟨f, hf, htag, -, hk'⟩ := fire_eq_some hfire
            refine ⟨f, hf, htag, fun hone => ?_⟩
            rw [if_pos hone] at hk'
            cases hleft : (collect k' is).2 j with
            | none => rfl
            | some g =>
                have hsub := collect_sub is hleft
                rw [hk', update_self] at hsub
                cases hsub
          · obtain ⟨f, hf, htag, hone⟩ := ih hin
            exact ⟨f, fire_sub hfire hf, htag, hone⟩

/-- A filter is left, or it has fired. -/
theorem collect_live {j : ι} {f : Filter τ} (is : List ι) (h : k j = some f) :
    (collect k is).2 j = some f ∨ (j, f.tag) ∈ (collect k is).1 := by
  induction is generalizing k with
  | nil => exact .inl h
  | cons i is ih =>
      unfold collect
      cases hfire : fire k i with
      | none => exact ih h
      | some e =>
          obtain ⟨tag, k'⟩ := e
          obtain ⟨g, hg, htag, -, hk'⟩ := fire_eq_some hfire
          by_cases hji : j = i
          · subst hji
            obtain rfl := Option.some.inj (hg.symm.trans h)
            exact .inr (htag ▸ mem_cons_self)
          · have hleft : k' j = some f := by
              rw [hk']
              split
              · rwa [update_of_ne hji]
              · exact h
            rcases ih hleft with hkept | hfired
            · exact .inl hkept
            · exact .inr (mem_cons_of_mem _ hfired)

end Facts

end Kqueue
