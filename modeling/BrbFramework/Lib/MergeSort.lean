import Mathlib.Order.Defs.Unbundled
import Mathlib.Data.List.Nodup

/-!
# Merge sort by halves

A sort that halves a list, sorts the halves and merges them. A merge is told by `takes`
whether it takes the head of its first list or of its second, so that the same sort may
prefer either list where two heads are equivalent.

Which of the two it prefers decides whether the sort is stable: `sort_stable` is for a
merge that takes its first list's head, and `sort_reverses` for one that takes the second's.
-/

namespace MergeSort

open List

variable {α : Type} {before : α → α → Prop} {takes : α → α → Bool} {x y : α} {xs ys : List α}

/-- Halve a list, sort the halves and merge them, in so many levels. -/
def sort (takes : α → α → Bool) : Nat → List α → List α
  | 0, xs => xs
  | n + 1, xs =>
      if xs.length < 2 then xs
      else List.merge (sort takes n (xs.take (xs.length / 2)))
        (sort takes n (xs.drop (xs.length / 2))) takes

/-- No element stands behind one that is to come after it. -/
def Sorted (before : α → α → Prop) (xs : List α) : Prop := xs.Pairwise fun x y => ¬before y x

/-- A merge never takes an element while one that is to come before it is there. -/
structure Chooses (before : α → α → Prop) (takes : α → α → Bool) : Prop where
  left : ∀ x y, takes x y = true → ¬before y x
  right : ∀ x y, takes x y = false → ¬before x y

/-! ## Merges -/

/-- The two lists of a merge may be exchanged, if the choice is. -/
theorem merge_swap (takes : α → α → Bool) (xs ys : List α) :
    List.merge xs ys takes = List.merge ys xs fun y x => !takes x y := by
  induction xs generalizing ys with
  | nil => rw [nil_merge, merge_right]
  | cons x xs ihx =>
      induction ys with
      | nil => rw [nil_merge, merge_right]
      | cons y ys ihy =>
          rw [cons_merge_cons, cons_merge_cons]
          cases htakes : takes x y with
          | true => simp [ihx]
          | false => simp [ihy]

theorem sublist_merge_left (takes : α → α → Bool) (xs ys : List α) :
    xs.Sublist (List.merge xs ys takes) := by
  induction xs generalizing ys with
  | nil => exact nil_sublist _
  | cons x xs ihx =>
      induction ys with
      | nil => rw [merge_right]
      | cons y ys ihy =>
          rw [cons_merge_cons]
          split
          · exact (ihx (y :: ys)).cons_cons x
          · exact ihy.cons y

theorem sublist_merge_right (takes : α → α → Bool) (xs ys : List α) :
    ys.Sublist (List.merge xs ys takes) := by
  rw [merge_swap]
  exact sublist_merge_left _ ys xs

section Order

variable [IsStrictWeakOrder α before]

/-- What does not come before is transitive. -/
theorem not_before_trans {a b c : α} (hab : ¬before b a) (hbc : ¬before c b) : ¬before c a := by
  intro hca
  by_cases hab' : before a b
  · exact hbc (trans_of before hca hab')
  · by_cases hbc' : before b c
    · exact hab (trans_of before hbc' hca)
    · exact (IsStrictWeakOrder.incomp_trans a b c ⟨hab', hab⟩ ⟨hbc', hbc⟩).2 hca

theorem merge_sorted (h : Chooses before takes) (hxs : Sorted before xs) (hys : Sorted before ys) :
    Sorted before (List.merge xs ys takes) := by
  unfold Sorted at *
  induction xs generalizing ys with
  | nil => rwa [nil_merge]
  | cons x xs ihx =>
      induction ys with
      | nil => rwa [merge_right]
      | cons y ys ihy =>
          obtain ⟨hx, hxs'⟩ := pairwise_cons.1 hxs
          obtain ⟨hy, hys'⟩ := pairwise_cons.1 hys
          rw [cons_merge_cons]
          split
          · rename_i htakes
            have hxy := h.left x y htakes
            refine pairwise_cons.2 ⟨fun z hz => ?_, ihx hxs' hys⟩
            rcases mem_merge.1 hz with hz | hz
            · exact hx z hz
            · rcases mem_cons.1 hz with rfl | hz
              · exact hxy
              · exact not_before_trans hxy (hy z hz)
          · rename_i htakes
            have hyx := h.right x y (by simpa using htakes)
            refine pairwise_cons.2 ⟨fun z hz => ?_, ihy hys'⟩
            rcases mem_merge.1 hz with hz | hz
            · rcases mem_cons.1 hz with rfl | hz
              · exact hyx
              · exact not_before_trans hyx (hx z hz)
            · exact hy z hz

/-- A merge that takes its first list's head where it can keeps an element of that list
before an equivalent one of the other. -/
theorem pair_sublist_merge (htakes : ∀ x y, takes x y = true ↔ ¬before y x)
    (hxs : Sorted before xs) (hys : Sorted before ys) (hx : x ∈ xs) (hy : y ∈ ys)
    (hxy : ¬before y x) : [x, y].Sublist (List.merge xs ys takes) := by
  unfold Sorted at *
  induction xs generalizing ys with
  | nil => cases hx
  | cons a xs ihx =>
      induction ys with
      | nil => cases hy
      | cons b ys ihy =>
          obtain ⟨ha, hxs'⟩ := pairwise_cons.1 hxs
          obtain ⟨hb, hys'⟩ := pairwise_cons.1 hys
          rw [cons_merge_cons]
          split
          · rcases mem_cons.1 hx with rfl | hx
            · have hmem : y ∈ List.merge xs (b :: ys) takes := mem_merge.2 (Or.inr hy)
              exact (singleton_sublist.2 hmem).cons_cons x
            · exact (ihx hxs' hys hx hy).cons a
          · rename_i hnot
            rcases mem_cons.1 hy with rfl | hy
            · -- the other's head comes before all that are left of the first list
              have hbefore : before y a := by
                by_contra hno
                exact hnot ((htakes a y).2 hno)
              refine absurd ?_ hxy
              rcases mem_cons.1 hx with rfl | hx
              · exact hbefore
              · by_contra hno
                exact not_before_trans (ha x hx) hno hbefore
            · exact (ihy hys' hy).cons b

/-! ## The sort -/

theorem sort_perm (takes : α → α → Bool) (n : Nat) (xs : List α) : (sort takes n xs).Perm xs := by
  induction n generalizing xs with
  | zero => exact List.Perm.refl _
  | succ n ih =>
      rw [sort]
      split
      · exact List.Perm.refl _
      · have hhalves := (ih (xs.take (xs.length / 2))).append (ih (xs.drop (xs.length / 2)))
        rw [take_append_drop] at hhalves
        exact (merge_perm_append takes).trans hhalves

theorem sort_sorted (h : Chooses before takes) {n : Nat} (hn : xs.length ≤ n) :
    Sorted before (sort takes n xs) := by
  induction n generalizing xs with
  | zero =>
      obtain rfl := eq_nil_of_length_eq_zero (Nat.le_zero.1 hn)
      exact List.Pairwise.nil
  | succ n ih =>
      rw [sort]
      split
      · rename_i hshort
        cases xs with
        | nil => exact List.Pairwise.nil
        | cons x xs =>
            obtain rfl : xs = [] := by
              rw [length_cons] at hshort
              exact eq_nil_of_length_eq_zero (by omega)
            exact pairwise_singleton _ _
      · rename_i hlong
        refine merge_sorted h (ih ?_) (ih ?_)
        · rw [length_take]
          omega
        · rw [length_drop]
          omega

/-- What a merge makes of two elements, of which each is in one of its lists, the sort makes
of two elements of its list. -/
theorem sort_pair (h : Chooses before takes) {zs : List α}
    (hmerge : ∀ ls rs, Sorted before ls → Sorted before rs → x ∈ ls → y ∈ rs →
      zs.Sublist (List.merge ls rs takes))
    {n : Nat} (hn : xs.length ≤ n) (hsub : [x, y].Sublist xs) : zs.Sublist (sort takes n xs) := by
  have hlength := hsub.length_le
  induction n generalizing xs with
  | zero =>
      rw [length_cons] at hlength
      omega
  | succ n ih =>
      have hlong : ¬xs.length < 2 := Nat.not_lt.2 hlength
      have hleft : (xs.take (xs.length / 2)).length ≤ n := by
        rw [length_take]
        omega
      have hright : (xs.drop (xs.length / 2)).length ≤ n := by
        rw [length_drop]
        omega
      rw [sort, if_neg hlong]
      rw [← take_append_drop (xs.length / 2) xs, sublist_append_iff] at hsub
      obtain ⟨ls, rs, hpair, hls, hrs⟩ := hsub
      cases ls with
      | nil =>
          rw [nil_append] at hpair
          rw [← hpair] at hrs
          exact (ih hright hrs hrs.length_le).trans (sublist_merge_right ..)
      | cons a ls =>
          obtain ⟨rfl, hrest⟩ := List.cons.inj hpair
          cases ls with
          | nil =>
              change [y] = rs at hrest
              rw [← hrest] at hrs
              have hx := (sort_perm takes n _).mem_iff.2 (singleton_sublist.1 hls)
              have hy := (sort_perm takes n _).mem_iff.2 (singleton_sublist.1 hrs)
              exact hmerge _ _ (sort_sorted h hleft) (sort_sorted h hright) hx hy
          | cons b ls =>
              obtain ⟨rfl, hnil⟩ := List.cons.inj hrest
              obtain ⟨rfl, -⟩ := append_eq_nil_iff.1 hnil.symm
              exact (ih hleft hls hls.length_le).trans (sublist_merge_left ..)

/-- Where the first list is preferred, the sort is stable. -/
theorem sort_stable (htakes : ∀ x y, takes x y = true ↔ ¬before y x) {n : Nat}
    (hn : xs.length ≤ n) (hxy : ¬before y x) (hsub : [x, y].Sublist xs) :
    [x, y].Sublist (sort takes n xs) := by
  have h : Chooses before takes := by
    refine ⟨fun a b => (htakes a b).1, fun a b hab hbefore => ?_⟩
    have hno : takes a b = true := (htakes a b).2 (asymm_of before hbefore)
    rw [hab] at hno
    cases hno
  exact sort_pair h (fun ls rs hls hrs hx hy => pair_sublist_merge htakes hls hrs hx hy hxy) hn hsub

/-- Where the second list is preferred, the sort reverses what is equivalent. -/
theorem sort_reverses (htakes : ∀ x y, takes x y = true ↔ before x y) {n : Nat}
    (hn : xs.length ≤ n) (hxy : ¬before x y) (hsub : [x, y].Sublist xs) :
    [y, x].Sublist (sort takes n xs) := by
  have h : Chooses before takes := by
    refine ⟨fun a b hab => asymm_of before ((htakes a b).1 hab), fun a b hab hbefore => ?_⟩
    rw [(htakes a b).2 hbefore] at hab
    cases hab
  refine sort_pair h (fun ls rs hls hrs hx hy => ?_) hn hsub
  rw [merge_swap]
  refine pair_sublist_merge (fun b a => ?_) hrs hls hy hx hxy
  rw [Bool.not_eq_true', ← Bool.not_eq_true, htakes]

end Order

end MergeSort
