import Mathlib.Data.List.Nodup
import Mathlib.Data.List.Perm.Subperm

/-!
# Singly linked chains

Nodes are allocated in a heap and each has the pointer to the one behind it.
`Chain next heap p xs` says that the pointer `p` leads to the nodes `xs`, one after
the other, that all of them are allocated, and that the last has a null pointer.
-/

namespace Chains

open List

variable {ν : Type} {next : ν → Option Nat} {h h' : Nat → Option ν} {p : Option Nat}
  {x : Nat} {xs : List Nat}

/-- The pointer `p` leads to the nodes `xs` of the heap `h`. -/
def Chain (next : ν → Option Nat) (h : Nat → Option ν) : Option Nat → List Nat → Prop
  | p, [] => p = none
  | p, x :: xs => p = some x ∧ ∃ l, h x = some l ∧ Chain next h (next l) xs

/-- A chain is where it was if its nodes are. -/
theorem Chain.frame (hc : Chain next h p xs) (heq : ∀ x ∈ xs, h' x = h x) :
    Chain next h' p xs := by
  induction xs generalizing p with
  | nil => exact hc
  | cons x xs ih =>
      obtain ⟨hp, l, hl, hrest⟩ := hc
      refine ⟨hp, l, ?_, ih hrest fun y hy => heq y (mem_cons_of_mem _ hy)⟩
      rw [heq x mem_cons_self, hl]

theorem Chain.allocated (hc : Chain next h p xs) (hx : x ∈ xs) : ∃ l, h x = some l := by
  induction xs generalizing p with
  | nil => cases hx
  | cons y ys ih =>
      obtain ⟨-, l, hl, hrest⟩ := hc
      rcases mem_cons.1 hx with rfl | hx
      · exact ⟨l, hl⟩
      · exact ih hrest hx

theorem Chain.cons {l : ν} (hl : h x = some l) (hc : Chain next h (next l) xs) :
    Chain next h (some x) (x :: xs) := ⟨rfl, l, hl, hc⟩

/-- Different addresses below a bound are no more than the bound. -/
theorem length_le_of_lt {n : Nat} (hnodup : xs.Nodup) (hlt : ∀ x ∈ xs, x < n) :
    xs.length ≤ n := by
  have hsub : xs ⊆ List.range n := fun x hx => mem_range.2 (hlt x hx)
  simpa using (subperm_of_subset hnodup hsub).length_le

end Chains
