import Mathlib.Data.List.Induction

/-!
# Feistel networks with whitening

A network of rounds that each add a subkey to the left half, mix it into the
right half and swap the halves, with one more subkey for each half at the end.
The same network with its subkeys in reverse order is the inverse, for any
function `F` that mixes and any addition `op` that undoes itself.
-/

namespace Feistel

open List

variable {α : Type} (op : α → α → α) (F : α → α)

/-- The left half with the subkey, mixed into the right half, then swapped. -/
def round (k : α) (x : α × α) : α × α := (op (F (op x.1 k)) x.2, op x.1 k)

def rounds (ks : List α) (x : α × α) : α × α := ks.foldl (fun x k => round op F k x) x

/-- The rounds, the last swap taken back, and `k` and `k'` added to the right and
the left half. -/
def crypt (ks : List α) (k k' : α) (x : α × α) : α × α :=
  (op (rounds op F ks x).2 k', op (rounds op F ks x).1 k)

section Inverse

variable {op F} (hassoc : ∀ a b c, op (op a b) c = op a (op b c))
  (hright : ∀ a b, op (op a b) b = a) (hleft : ∀ a b, op a (op a b) = b)

/-- The state after the first round of the inverse, by the state of the rounds. -/
def unmix (op : α → α → α) (F : α → α) (k : α) (x : α × α) : α × α :=
  (op (F x.2) (op x.1 k), x.2)

include hright in
theorem round_crypt (ks : List α) (k k' : α) (x : α × α) :
    round op F k' (crypt op F ks k k' x) = unmix op F k (rounds op F ks x) := by
  simp only [round, crypt, unmix, hright]

include hassoc hright hleft

/-- One round of the inverse takes one round back. -/
theorem round_unmix (k j : α) (x : α × α) :
    round op F k (unmix op F k (round op F j x)) = unmix op F j x := by
  have hback : op (op (F (op x.1 j)) (op (op (F (op x.1 j)) x.2) k)) k = x.2 := by
    rw [← hassoc (F (op x.1 j)), hright, hleft]
  simp only [round, unmix, hback]

theorem rounds_unmix (a k : α) (mid : List α) (x : α × α) :
    rounds op F (k :: mid.reverse) (unmix op F k (rounds op F (a :: mid) x)) = unmix op F a x := by
  induction mid using List.reverseRecOn generalizing k with
  | nil => exact round_unmix hassoc hright hleft k a x
  | append_singleton mid c ih =>
      have hlast : rounds op F (a :: (mid ++ [c])) x = round op F c (rounds op F (a :: mid) x) := by
        simp only [rounds, ← cons_append, foldl_append, foldl_cons, foldl_nil]
      rw [hlast, reverse_append, reverse_singleton, singleton_append]
      change rounds op F (c :: mid.reverse)
        (round op F k (unmix op F k (round op F c (rounds op F (a :: mid) x)))) = _
      rw [round_unmix hassoc hright hleft]
      exact ih c

/-- **The network with its subkeys in reverse order is the inverse.** -/
theorem crypt_crypt (a b k k' : α) (mid : List α) (x : α × α) :
    crypt op F (k' :: k :: mid.reverse) b a (crypt op F (a :: b :: mid) k k' x) = x := by
  have hrounds : rounds op F (k' :: k :: mid.reverse) (crypt op F (a :: b :: mid) k k' x) =
      unmix op F b (round op F a x) := by
    change rounds op F (k :: mid.reverse) (round op F k' (crypt op F (a :: b :: mid) k k' x)) = _
    rw [round_crypt hright]
    exact rounds_unmix hassoc hright hleft b k mid (round op F a x)
  have hback : op (op (F (op x.1 a)) (op (op (F (op x.1 a)) x.2) b)) b = x.2 := by
    rw [← hassoc (F (op x.1 a)), hright, hleft]
  unfold crypt at hrounds ⊢
  rw [hrounds]
  simp only [unmix, round, hright, hback]

end Inverse

end Feistel
