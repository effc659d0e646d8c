import Mathlib.Logic.Function.Basic

/-!
# Ledgers of tenants

Slots are let to tenants, who are numbered as they come. `Books holder accepted left`
says that the slots, the number of tenants so far and how often each of them has left
agree: a tenant is in one slot and has not left, or is in none and has left once.

Letting a slot that is free and clearing one keep the books, whatever the slots are.
-/

namespace Ledger

open Function

variable {ι : Type}

structure Books (holder : ι → Option Nat) (accepted : Nat) (left : Nat → Nat) : Prop where
  fresh : ∀ i n, holder i = some n → n < accepted
  unique : ∀ i j n, holder i = some n → holder j = some n → i = j
  held : ∀ i n, holder i = some n → left n = 0
  gone : ∀ n < accepted, (∀ i, holder i ≠ some n) → left n = 1
  future : ∀ n, accepted ≤ n → left n = 0

variable {holder : ι → Option Nat} {accepted : Nat} {left : Nat → Nat} {i : ι} {n : Nat}

theorem books_new : Books (fun _ : ι => none) 0 fun _ => 0 where
  fresh _ _ := nofun
  unique _ _ _ := nofun
  held _ _ := nofun
  gone _ := nofun
  future _ _ := rfl

namespace Books

/-- Nobody leaves twice. -/
theorem left_le (h : Books holder accepted left) (n : Nat) : left n ≤ 1 := by
  by_cases hn : n < accepted
  · by_cases hheld : ∃ i, holder i = some n
    · obtain ⟨i, hi⟩ := hheld
      rw [h.held i n hi]
      exact Nat.zero_le 1
    · exact Nat.le_of_eq (h.gone n hn fun i hi => hheld ⟨i, hi⟩)
  · rw [h.future n (Nat.le_of_not_lt hn)]
    exact Nat.zero_le 1

/-- Who has not left is in a slot. -/
theorem left_eq_zero_iff (h : Books holder accepted left) (hn : n < accepted) :
    left n = 0 ↔ ∃ i, holder i = some n := by
  constructor
  · intro hleft
    by_contra hno
    have hone := h.gone n hn fun i hi => hno ⟨i, hi⟩
    omega
  · rintro ⟨i, hi⟩
    exact h.held i n hi

variable [DecidableEq ι]

/-- A free slot is let. -/
theorem enter (h : Books holder accepted left) (hi : holder i = none) :
    Books (update holder i (some accepted)) (accepted + 1) left := by
  have hold : ∀ j n, update holder i (some accepted) j = some n →
      (j = i ∧ n = accepted) ∨ (j ≠ i ∧ holder j = some n) := by
    intro j n hj
    by_cases hji : j = i
    · rw [hji, update_self] at hj
      exact .inl ⟨hji, (Option.some.inj hj).symm⟩
    · rw [update_of_ne hji] at hj
      exact .inr ⟨hji, hj⟩
  refine ⟨fun j n hj => ?_, fun j k n hj hk => ?_, fun j n hj => ?_, fun n hn hno => ?_,
    fun n hn => h.future n (by omega)⟩
  · rcases hold j n hj with ⟨-, rfl⟩ | ⟨-, hj⟩
    · exact Nat.lt_succ_self _
    · exact Nat.lt_succ_of_lt (h.fresh j n hj)
  · rcases hold j n hj with ⟨hji, hn⟩ | ⟨-, hj'⟩
    · rcases hold k n hk with ⟨hki, -⟩ | ⟨-, hk'⟩
      · exact hji.trans hki.symm
      · exact absurd (h.fresh k n hk') (by omega)
    · rcases hold k n hk with ⟨-, hn⟩ | ⟨-, hk'⟩
      · exact absurd (h.fresh j n hj') (by omega)
      · exact h.unique j k n hj' hk'
  · rcases hold j n hj with ⟨-, rfl⟩ | ⟨-, hj⟩
    · exact h.future _ (Nat.le_refl _)
    · exact h.held j n hj
  · have hne : n ≠ accepted := by
      rintro rfl
      exact hno i (update_self ..)
    refine h.gone n (by omega) fun j hj => ?_
    have hji : j ≠ i := by
      rintro rfl
      rw [hi] at hj
      cases hj
    exact hno j (by rw [update_of_ne hji]; exact hj)

/-- A tenant leaves. -/
theorem leave (h : Books holder accepted left) (hi : holder i = some n) :
    Books (update holder i none) accepted
      (fun m => left m + if m = n then 1 else 0) := by
  have hold : ∀ j m, update holder i none j = some m →
      j ≠ i ∧ holder j = some m ∧ m ≠ n := by
    intro j m hj
    have hji : j ≠ i := by
      rintro rfl
      rw [update_self] at hj
      cases hj
    rw [update_of_ne hji] at hj
    refine ⟨hji, hj, ?_⟩
    rintro rfl
    exact hji (h.unique j i m hj hi)
  refine ⟨fun j m hj => h.fresh j m (hold j m hj).2.1, fun j k m hj hk => ?_, fun j m hj => ?_,
    fun m hm hno => ?_, fun m hm => ?_⟩
  · exact h.unique j k m (hold j m hj).2.1 (hold k m hk).2.1
  · obtain ⟨-, hj, hne⟩ := hold j m hj
    rw [h.held j m hj, if_neg hne]
  · by_cases hmn : m = n
    · rw [hmn, h.held i n hi, if_pos rfl]
    · rw [if_neg hmn]
      refine h.gone m hm fun j hj => hno j ?_
      have hji : j ≠ i := by
        rintro rfl
        exact hmn (Option.some.inj (hj.symm.trans hi))
      rw [update_of_ne hji]
      exact hj
  · have hne : m ≠ n := by
      have := h.fresh i n hi
      omega
    rw [h.future m hm, if_neg hne]

end Books

end Ledger
