import BrbFramework.Lib.Chains
import BrbFramework.Lib.MergeSort
import BrbFramework.Data.DLinkedList

/-!
# `DLinkedListSortMerge`

The merge sort follows the forward links only. It cuts the list in its middle, and the merge
of the sorted halves writes the links in both directions anew.

An ascending sort takes the head of the left half unless it is to come after that of the
right half; a descending one takes it only if it is to come before. `sortMerge_iff` says
what comes of that: the order is kept where elements are equivalent, or it is turned round.
-/

namespace BrbData

open Linked MergeSort List

namespace DLinkedList

inductive DLinkedListSortCodes
  | descend
  | ascend
  deriving DecidableEq

/-- The condition under which the merge takes the head of the left list. -/
def takesHead (cmpFunc : Nat → Nat → Int) (cmpFlag : DLinkedListSortCodes) (head right : Nat) :
    Bool :=
  match cmpFlag with
  | .ascend => cmpFunc head right == 0
  | .descend => cmpFunc head right != 0

/-- The loop of `DLinkedListMergeSortFunc` that finds the middle. -/
def halfLoop (h : Heap) :
    Nat → Option Nat → Option Nat → Option Nat → Option (Option Nat × Option Nat)
  | _, last, right, none => some (last, right)
  | n, last, right, some temp =>
    match (h temp).next with
    | none => some (last, right)
    | some second =>
      match n, right with
      | n + 1, some node => halfLoop h n right (h node).next (h second).next
      | _, _ => none

/-- The node that the merge takes, and what is left of the two lists. -/
def pick (takes : Nat → Nat → Bool) (h : Heap) :
    Option Nat → Option Nat → Option (Nat × Option Nat × Option Nat)
  | none, none => none
  | some head, none => some (head, (h head).next, none)
  | none, some right => some (right, none, (h right).next)
  | some head, some right =>
    if takes head right then some (head, (h head).next, some right)
    else some (right, some head, (h right).next)

/-- A node is linked behind the others that were taken. -/
def linkNext (h : Heap) (result tail : Option Nat) (next : Nat) : Heap :=
  let h := if result.isNone then h else h.setNext tail (some next)
  h.setPrev (some next) tail

/-- The loop of `DLinkedListMergeSortFunc` that merges. -/
def mergeLoop (takes : Nat → Nat → Bool) : Nat → (head right result tail : Option Nat) → Heap →
    Option (Option Nat × Heap)
  | n, head, right, result, tail, h =>
    match pick takes h head right with
    | none => some (result, h)
    | some (next, head, right) =>
      match n with
      | 0 => none
      | n + 1 =>
        mergeLoop takes n head right (result <|> some next) (some next)
          (linkNext h result tail next)

/-- `DLinkedListMergeSortFunc`. What runs out of its steps does not end. -/
def mergeSortFunc (takes : Nat → Nat → Bool) :
    Nat → Option Nat → Heap → Option (Option Nat × Heap)
  | _, none, h => some (none, h)
  | n, some head, h =>
    if (h head).next.isNone then some (some head, h)
    else
      match n with
      | 0 => none
      | n + 1 => do
        let (last, right) ← halfLoop h (n + 1) (some head) (some head) (some head)
        let h := h.setNext last none
        let (head, h) ← mergeSortFunc takes n (some head) h
        let (right, h) ← mergeSortFunc takes n right h
        mergeLoop takes (n + 1) head right none none h

/-- The loop of `DLinkedListSortMerge` that finds the tail. -/
def lastLoop (h : Heap) : Nat → Nat → Option Nat
  | n, node =>
    match (h node).next with
    | none => some node
    | some next =>
      match n with
      | 0 => none
      | n + 1 => lastLoop h n next

/-- `DLinkedListSortMerge`, with so many steps for each of its loops. -/
def sortMerge (steps : Nat) (cmpFunc : Nat → Nat → Int) (cmpFlag : DLinkedListSortCodes)
    (s : State) : Option State := do
  let (l, h) := s
  if l.head.isNone then return s
  if l.size > 1 then
    let (head, h) ← mergeSortFunc (takesHead cmpFunc cmpFlag) steps l.head h
    let node ← head
    let tail ← lastLoop h steps node
    return (⟨head, some tail, l.size⟩, h)
  else return s

section Steps

variable {h : Heap} {p q : Option Nat} {x : Nat} {xs ys acc : List Nat} {takes : Nat → Nat → Bool}

/-- From `p` the forward links lead through the nodes `xs` to null. -/
def Leads (h : Heap) (p : Option Nat) (xs : List Nat) : Prop :=
  Chains.Chain Node.next (fun i => some (h i)) p xs

theorem leads_nil : Leads h p [] ↔ p = none := Iff.rfl

theorem leads_cons : Leads h p (x :: xs) ↔ p = some x ∧ Leads h (h x).next xs := by
  constructor
  · rintro ⟨rfl, l, hl, hrest⟩
    obtain rfl := Option.some.inj hl
    exact ⟨rfl, hrest⟩
  · rintro ⟨rfl, hrest⟩
    exact ⟨rfl, h x, rfl, hrest⟩

theorem Leads.head (hl : Leads h p xs) : p = xs.head? := by
  cases xs with
  | nil => exact hl
  | cons x xs => exact hl.1

theorem Leads.frame {h' : Heap} (hl : Leads h p xs) (hsame : ∀ x ∈ xs, h' x = h x) :
    Leads h' p xs :=
  Chains.Chain.frame hl fun x hx => congrArg some (hsame x hx)

theorem Leads.next_ne_none (hl : Leads h p xs) (hlong : 2 ≤ xs.length) :
    ∃ x, p = some x ∧ (h x).next ≠ none := by
  cases xs with
  | nil => simp at hlong
  | cons x xs =>
      obtain ⟨rfl, hrest⟩ := leads_cons.1 hl
      cases xs with
      | nil => simp at hlong
      | cons y ys =>
          obtain ⟨hnext, -⟩ := leads_cons.1 hrest
          exact ⟨x, rfl, by rw [hnext]; simp⟩

theorem leads_of_chain (hc : Chain h p xs none) : Leads h xs.head? xs := by
  induction xs generalizing p with
  | nil => rfl
  | cons x xs ih =>
      obtain ⟨-, hnext, hrest⟩ := hc
      have hnext' : (h x).next = xs.head? := by simpa using hnext
      rw [leads_cons, hnext']
      exact ⟨rfl, ih hrest⟩

theorem halfLoop_eq {n : Nat} {last right temp : Option Nat} (hxs : Leads h right xs)
    (hys : Leads h temp ys) (hn : ys.length / 2 ≤ n) (hle : ys.length / 2 ≤ xs.length) :
    halfLoop h n last right temp =
      some ((xs.take (ys.length / 2)).getLast? <|> last, (xs.drop (ys.length / 2)).head?) := by
  induction n generalizing last right temp xs ys with
  | zero =>
      have hhalf : ys.length / 2 = 0 := Nat.le_zero.1 hn
      rw [hhalf, take_zero, drop_zero, ← hxs.head]
      cases ys with
      | nil =>
          rw [leads_nil.1 hys]
          rfl
      | cons y ys =>
          obtain ⟨rfl, hrest⟩ := leads_cons.1 hys
          obtain rfl : ys = [] := by
            rw [length_cons] at hhalf
            exact eq_nil_of_length_eq_zero (by omega)
          rw [halfLoop, leads_nil.1 hrest]
          rfl
  | succ n ih =>
      cases ys with
      | nil =>
          rw [leads_nil.1 hys, hxs.head]
          rfl
      | cons y ys =>
          obtain ⟨rfl, hrest⟩ := leads_cons.1 hys
          rw [halfLoop]
          cases ys with
          | nil =>
              have hhalf : [y].length / 2 = 0 := by simp
              rw [leads_nil.1 hrest, hxs.head, hhalf, take_zero, drop_zero]
              rfl
          | cons z zs =>
              obtain ⟨hz, hzs⟩ := leads_cons.1 hrest
              have hhalf : (y :: z :: zs).length / 2 = zs.length / 2 + 1 := by
                simp only [length_cons]
                omega
              rw [hhalf] at hn hle ⊢
              cases xs with
              | nil => cases hle
              | cons x xs =>
                  obtain ⟨rfl, hxs'⟩ := leads_cons.1 hxs
                  rw [hz]
                  dsimp only
                  rw [ih hxs' hzs (Nat.le_of_succ_le_succ hn) (Nat.le_of_succ_le_succ hle),
                    take_succ_cons, drop_succ_cons]
                  cases hlast : xs.take (zs.length / 2) with
                  | nil => rfl
                  | cons a as => simp [getLast?_eq_some_getLast]

theorem Leads.cut (hl : Leads h p (xs ++ ys)) (hnodup : (xs ++ ys).Nodup) (hne : xs ≠ []) :
    Leads (h.setNext xs.getLast? none) p xs ∧ Leads (h.setNext xs.getLast? none) ys.head? ys := by
  induction xs generalizing p with
  | nil => exact absurd rfl hne
  | cons x xs ih =>
      obtain ⟨rfl, hrest⟩ := leads_cons.1 hl
      obtain ⟨hx, hnodup'⟩ := nodup_cons.1 hnodup
      cases xs with
      | nil =>
          have hself : (h.setNext (some x) none x).next = none := by simp [Heap.setNext]
          refine ⟨leads_cons.2 ⟨rfl, leads_nil.2 hself⟩, ?_⟩
          change Leads h (h x).next ys at hrest
          rw [hrest.head] at hrest
          refine hrest.frame fun y hy => setNext_of_ne fun heq => hx ?_
          obtain rfl : x = y := Option.some.inj heq
          exact hy
      | cons z zs =>
          have hlast : (x :: z :: zs).getLast? = (z :: zs).getLast? := by simp
          rw [hlast]
          obtain ⟨hleft, hright⟩ := ih hrest hnodup' (by simp)
          refine ⟨leads_cons.2 ⟨rfl, ?_⟩, hright⟩
          rw [setNext_of_ne fun heq => hx (mem_append_left _ (mem_of_getLast? heq))]
          exact hleft

/-! ### The merge -/

theorem linkNext_eq (h : Heap) (acc : List Nat) (x : Nat) :
    linkNext h acc.head? acc.getLast? x =
      (h.setNext acc.getLast? (some x)).setPrev (some x) acc.getLast? := by
  cases acc <;> rfl

theorem chain_linkNext (hc : Chain h none acc q) (hnodup : acc.Nodup) (hx : x ∉ acc) :
    Chain (linkNext h acc.head? acc.getLast? x) none (acc ++ [x]) (h x).next := by
  have hne : acc.getLast? ≠ some x := fun heq => hx (mem_of_getLast? heq)
  have hset := hc.setNext_last hnodup (some x)
  rw [linkNext_eq, chain_append]
  refine ⟨hset.congr fun y hy => ?_, ?_, ?_, trivial⟩
  · have hyx : some x ≠ some y := fun heq => hx (Option.some.inj heq ▸ hy)
    rw [setPrev_of_ne hyx]
    exact ⟨rfl, rfl⟩
  · simp [Heap.setPrev]
  · simp [setNext_of_ne hne]

theorem linkNext_of_not_mem {y : Nat} (hy : y ∉ acc ++ [x]) :
    linkNext h acc.head? acc.getLast? x y = h y := by
  rw [mem_append, not_or, mem_singleton] at hy
  rw [linkNext_eq, setPrev_of_ne fun heq => hy.2 (Option.some.inj heq).symm,
    setNext_of_ne fun heq => hy.1 (mem_of_getLast? heq)]

theorem linkNext_data (y : Nat) :
    (linkNext h acc.head? acc.getLast? x y).data = (h y).data := by
  rw [linkNext_eq, setPrev_data, setNext_data]

/-- The nodes `nodes` are merged: they are the chain `zs`, and no other is written. -/
structure Merged (h h' : Heap) (nodes : List Nat) (zs : List Nat) : Prop where
  chain : Chain h' none zs none
  frame : ∀ y, y ∉ nodes → h' y = h y
  data : ∀ y, (h' y).data = (h y).data

theorem mergeLoop_eq (takes : Nat → Nat → Bool) (acc : List Nat) {n : Nat}
    {head right : Option Nat} (hc : Chain h none acc q)
    (hq : q = xs.head? ∨ q = ys.head?) (hxs : Leads h head xs) (hys : Leads h right ys)
    (hnodup : (acc ++ (xs ++ ys)).Nodup) (hn : xs.length + ys.length ≤ n) :
    ∃ h', mergeLoop takes n head right acc.head? acc.getLast? h =
        some ((acc ++ List.merge xs ys takes).head?, h') ∧
      Merged h h' (acc ++ (xs ++ ys)) (acc ++ List.merge xs ys takes) := by
  induction n generalizing acc xs ys head right q h with
  | zero =>
      obtain rfl : xs = [] := eq_nil_of_length_eq_zero (by omega)
      obtain rfl : ys = [] := eq_nil_of_length_eq_zero (by omega)
      obtain rfl : q = none := by simpa using hq
      rw [leads_nil.1 hxs, leads_nil.1 hys, merge_right, append_nil]
      exact ⟨h, rfl, hc, fun _ _ => rfl, fun _ => rfl⟩
  | succ n ih =>
      -- a node is taken, and `xs'` and `ys'` are left
      have hstep : ∀ x xs' ys', pick takes h head right = some (x, xs'.head?, ys'.head?) →
          List.merge xs ys takes = x :: List.merge xs' ys' takes →
          (x :: (xs' ++ ys')).Perm (xs ++ ys) →
          Leads h xs'.head? xs' → Leads h ys'.head? ys' →
          (h x).next = xs'.head? ∨ (h x).next = ys'.head? →
          ∃ h', mergeLoop takes (n + 1) head right acc.head? acc.getLast? h =
              some ((acc ++ List.merge xs ys takes).head?, h') ∧
            Merged h h' (acc ++ (xs ++ ys)) (acc ++ List.merge xs ys takes) := by
        intro x xs' ys' hpick hmerge hperm hxs' hys' hnext
        have hall : (acc ++ [x] ++ (xs' ++ ys')).Perm (acc ++ (xs ++ ys)) := by
          rw [append_assoc]
          exact hperm.append_left acc
        have hnodup' := hall.nodup_iff.2 hnodup
        obtain ⟨hacc, -, hapart⟩ := nodup_append.1 hnodup'
        obtain ⟨hacc', -, hout⟩ := nodup_append.1 hacc
        have hx : x ∉ acc := fun hx => hout x hx x (mem_singleton_self x) rfl
        have hsame : ∀ y ∈ xs' ++ ys', linkNext h acc.head? acc.getLast? x y = h y := fun y hy =>
          linkNext_of_not_mem fun hin => hapart y hin y hy rfl
        have hlength := hperm.length_eq
        simp only [length_cons, length_append] at hlength
        obtain ⟨h', hrun, hmerged⟩ := ih (acc ++ [x]) (chain_linkNext hc hacc' hx) hnext
          (hxs'.frame fun y hy => hsame y (mem_append_left _ hy))
          (hys'.frame fun y hy => hsame y (mem_append_right _ hy)) hnodup' (by omega)
        have hhead : (acc.head? <|> some x) = (acc ++ [x]).head? := by cases acc <;> rfl
        have htail : (acc ++ [x]).getLast? = some x := by simp
        have hlist : acc ++ [x] ++ List.merge xs' ys' takes = acc ++ List.merge xs ys takes := by
          rw [hmerge, append_assoc, singleton_append]
        rw [htail, hlist] at hrun
        rw [hlist] at hmerged
        refine ⟨h', ?_, ?_⟩
        · rw [mergeLoop, hpick]
          dsimp only
          rw [hhead]
          exact hrun
        · refine ⟨hmerged.chain, fun y hy => ?_, fun y => ?_⟩
          · have hout' : y ∉ acc ++ [x] ++ (xs' ++ ys') := fun hin => hy (hall.mem_iff.1 hin)
            rw [hmerged.frame y hout', linkNext_of_not_mem fun hin =>
              hout' (mem_append_left _ hin)]
          · rw [hmerged.data, linkNext_data]
      cases xs with
      | nil =>
          cases ys with
          | nil =>
              obtain rfl : q = none := by simpa using hq
              rw [leads_nil.1 hxs, leads_nil.1 hys, merge_right, append_nil]
              exact ⟨h, rfl, hc, fun _ _ => rfl, fun _ => rfl⟩
          | cons y ys =>
              obtain ⟨rfl, hrest⟩ := leads_cons.1 hys
              obtain rfl := leads_nil.1 hxs
              have hnext := hrest.head
              refine hstep y [] ys (by rw [pick, hnext]; rfl) (by simp) (List.Perm.refl _) rfl
                (hnext ▸ hrest) (Or.inr hnext)
      | cons x xs =>
          obtain ⟨rfl, hrest⟩ := leads_cons.1 hxs
          have hnext := hrest.head
          cases ys with
          | nil =>
              obtain rfl := leads_nil.1 hys
              exact hstep x xs [] (by rw [pick, hnext]; rfl) (by simp) (by simp) (hnext ▸ hrest) rfl
                (Or.inl hnext)
          | cons y ys =>
              obtain ⟨rfl, hrest'⟩ := leads_cons.1 hys
              have hnext' := hrest'.head
              cases htakes : takes x y with
              | true =>
                  exact hstep x xs (y :: ys) (by rw [pick, htakes, hnext]; rfl)
                    (by rw [cons_merge_cons, htakes]; rfl) (List.Perm.refl _) (hnext ▸ hrest)
                    hys (Or.inl hnext)
              | false =>
                  exact hstep y (x :: xs) ys (by rw [pick, htakes, hnext']; rfl)
                    (by rw [cons_merge_cons, htakes]; rfl) perm_middle.symm hxs
                    (hnext' ▸ hrest') (Or.inr hnext')

/-! ### The sort -/

/-- The sort of nodes on their forward links: where there are two of them or more, the links
of both directions are written anew. -/
structure SortedNodes (h h' : Heap) (xs zs : List Nat) : Prop where
  leads : Leads h' zs.head? zs
  chain : 2 ≤ xs.length → Chain h' none zs none
  frame : ∀ y, y ∉ xs → h' y = h y
  data : ∀ y, (h' y).data = (h y).data

theorem sort_of_short {n : Nat} (hshort : xs.length < 2) : sort takes n xs = xs := by
  cases n with
  | zero => rfl
  | succ n => rw [sort, if_pos hshort]

theorem mergeSortFunc_eq (takes : Nat → Nat → Bool) {n : Nat} (hl : Leads h p xs)
    (hnodup : xs.Nodup) (hn : xs.length ≤ n) :
    ∃ h', mergeSortFunc takes n p h = some ((sort takes n xs).head?, h') ∧
      SortedNodes h h' xs (sort takes n xs) := by
  induction n generalizing p xs h with
  | zero =>
      obtain rfl : xs = [] := eq_nil_of_length_eq_zero (Nat.le_zero.1 hn)
      obtain rfl := leads_nil.1 hl
      exact ⟨h, rfl, rfl, fun hlong => absurd hlong (by simp), fun _ _ => rfl, fun _ => rfl⟩
  | succ n ih =>
      by_cases hshort : xs.length < 2
      · rw [sort_of_short hshort]
        refine ⟨h, ?_, hl.head ▸ hl, fun hlong => by omega, fun _ _ => rfl, fun _ => rfl⟩
        cases xs with
        | nil =>
            obtain rfl := leads_nil.1 hl
            rfl
        | cons x xs =>
            obtain ⟨rfl, hrest⟩ := leads_cons.1 hl
            obtain rfl : xs = [] := by
              rw [length_cons] at hshort
              exact eq_nil_of_length_eq_zero (by omega)
            rw [mergeSortFunc, leads_nil.1 hrest]
            rfl
      · -- two nodes at the least, of which the first `m` are in the left half
        obtain ⟨m, hm⟩ : ∃ m, m = xs.length / 2 := ⟨_, rfl⟩
        obtain ⟨ls, hls⟩ : ∃ ls, ls = xs.take m := ⟨_, rfl⟩
        obtain ⟨rs, hrs⟩ : ∃ rs, rs = xs.drop m := ⟨_, rfl⟩
        have hsplit : ls ++ rs = xs := by rw [hls, hrs, take_append_drop]
        have hlenl : ls.length = m := by
          rw [hls, length_take]
          omega
        have hlenr : rs.length = xs.length - m := by rw [hrs, length_drop]
        have hne : ls ≠ [] := by
          intro hnil
          rw [hnil, length_nil] at hlenl
          omega
        have hlast : ∀ o : Option Nat, (ls.getLast? <|> o) = ls.getLast? := by
          intro o
          rw [getLast?_eq_some_getLast hne]
          rfl
        have hhalf : halfLoop h (n + 1) p p p = some (ls.getLast?, rs.head?) := by
          rw [halfLoop_eq hl hl (by omega) (by omega), ← hm, ← hls, ← hrs, hlast]
        obtain ⟨x, hx, hnext⟩ := hl.next_ne_none (Nat.le_of_not_lt hshort)
        rw [← hsplit] at hl hnodup
        obtain ⟨hcutl, hcutr⟩ := hl.cut hnodup hne
        obtain ⟨hnodupl, hnodupr, hapart⟩ := nodup_append.1 hnodup
        obtain ⟨h₁, hrun₁, hsorted₁⟩ := ih hcutl hnodupl (by omega)
        obtain ⟨h₂, hrun₂, hsorted₂⟩ := ih
          (hcutr.frame fun y hy => hsorted₁.frame y fun hin => hapart y hin y hy rfl) hnodupr
          (by omega)
        have hperml := sort_perm takes n ls
        have hpermr := sort_perm takes n rs
        have hperm := hperml.append hpermr
        have hleft : Leads h₂ (sort takes n ls).head? (sort takes n ls) :=
          hsorted₁.leads.frame fun y hy => hsorted₂.frame y fun hin =>
            hapart y (hperml.mem_iff.1 hy) y hin rfl
        have hlength := hperm.length_eq
        rw [length_append, hsplit] at hlength
        obtain ⟨h₃, hrun₃, hmerged⟩ := mergeLoop_eq takes [] (n := n + 1) trivial
          (Or.inl rfl) hleft hsorted₂.leads (hperm.nodup_iff.2 hnodup) (by omega)
        have hsort : sort takes (n + 1) xs =
            List.merge (sort takes n ls) (sort takes n rs) takes := by
          rw [sort, if_neg hshort, ← hm, ← hls, ← hrs]
        rw [hsort]
        refine ⟨h₃, ?_, leads_of_chain hmerged.chain, fun _ => hmerged.chain, fun y hy => ?_,
          fun y => ?_⟩
        · subst hx
          rw [mergeSortFunc, if_neg (by simpa using hnext)]
          simp only [hhalf, Option.bind_eq_bind, Option.bind_some, hrun₁, hrun₂]
          exact hrun₃
        · rw [← hsplit] at hy
          have hout := hy
          rw [mem_append, not_or] at hout
          rw [hmerged.frame y fun hin => hy (hperm.mem_iff.1 hin), hsorted₂.frame y hout.2,
            hsorted₁.frame y hout.1, setNext_of_ne]
          exact fun heq => hout.1 (mem_of_getLast? heq)
        · rw [hmerged.data, hsorted₂.data, hsorted₁.data, setNext_data]

theorem lastLoop_eq {n : Nat} (hl : Leads h (some x) xs) (hn : xs.length ≤ n + 1) :
    lastLoop h n x = xs.getLast? := by
  induction n generalizing x xs with
  | zero =>
      cases xs with
      | nil => cases hl
      | cons y ys =>
          obtain ⟨hy, hrest⟩ := leads_cons.1 hl
          obtain rfl := Option.some.inj hy
          obtain rfl : ys = [] := by
            rw [length_cons] at hn
            exact eq_nil_of_length_eq_zero (by omega)
          rw [lastLoop, leads_nil.1 hrest]
          rfl
  | succ n ih =>
      cases xs with
      | nil => cases hl
      | cons y ys =>
          obtain ⟨hy, hrest⟩ := leads_cons.1 hl
          obtain rfl := Option.some.inj hy
          cases ys with
          | nil =>
              rw [lastLoop, leads_nil.1 hrest]
              rfl
          | cons z zs =>
              obtain ⟨hnext, -⟩ := leads_cons.1 hrest
              rw [hnext] at hrest
              rw [lastLoop, hnext]
              dsimp only
              rw [ih hrest (Nat.le_of_succ_le_succ hn), getLast?_cons_cons]

end Steps

/-! ## What a sort is to do -/

/-- The order of a sort by its flag, from the order that the comparison is for. -/
def Before (cmpFlag : DLinkedListSortCodes) (lt : Nat → Nat → Prop) (x y : Nat) : Prop :=
  match cmpFlag with
  | .ascend => lt x y
  | .descend => lt y x

/-- The comparison is nonzero exactly when its first argument comes after its second. -/
def Compares (cmpFunc : Nat → Nat → Int) (lt : Nat → Nat → Prop) : Prop :=
  ∀ x y, cmpFunc x y ≠ 0 ↔ lt y x

/-- The nodes `ys` are the nodes `xs` in order, and equivalent ones are as they were. -/
structure StablySorted (before : Nat → Nat → Prop) (xs ys : List Nat) : Prop where
  perm : ys.Perm xs
  sorted : Sorted before ys
  stable : ∀ x y, ¬before x y → ¬before y x → [x, y].Sublist xs → [x, y].Sublist ys

/-- The sort ends, with as many steps as there are nodes or more, and leaves a well-formed
list of the nodes, stably sorted; it writes to no other node, and to no data. -/
def SortsStably (cmpFunc : Nat → Nat → Int) (cmpFlag : DLinkedListSortCodes)
    (lt : Nat → Nat → Prop) (xs : List Nat) (s : State) : Prop :=
  ∀ steps, xs.length ≤ steps → ∃ t ys, sortMerge steps cmpFunc cmpFlag s = some t ∧
    IsList t.2 t.1 ys ∧ StablySorted (Before cmpFlag lt) xs ys ∧
    (∀ y, y ∉ xs → t.2 y = s.2 y) ∧ ∀ y, (t.2 y).data = (s.2 y).data

section Spec

variable {cmpFunc : Nat → Nat → Int} {cmpFlag : DLinkedListSortCodes} {lt : Nat → Nat → Prop}
  {xs : List Nat} {s : State}

theorem sortMerge_eq (cmpFunc : Nat → Nat → Int) (cmpFlag : DLinkedListSortCodes)
    (hl : IsList s.2 s.1 xs) (haddr : ∀ x ∈ xs, Address x) {steps : Nat}
    (hsteps : xs.length ≤ steps) :
    ∃ t, sortMerge steps cmpFunc cmpFlag s = some t ∧
      IsList t.2 t.1 (sort (takesHead cmpFunc cmpFlag) steps xs) ∧
      (∀ y, y ∉ xs → t.2 y = s.2 y) ∧ ∀ y, (t.2 y).data = (s.2 y).data := by
  obtain ⟨l, h⟩ := s
  have hsize : l.size.toNat = xs.length :=
    size_of_isList (q := ⟨xs, fun _ => none⟩) hl haddr
  have hone : (l.size > 1) ↔ 2 ≤ xs.length := by
    rw [gt_iff_lt, UInt64.lt_iff_toNat_lt, hsize]
    exact Iff.rfl
  have hleads : Leads h l.head xs := by
    rw [hl.head]
    exact leads_of_chain hl.chain
  by_cases hlong : 2 ≤ xs.length
  · obtain ⟨h', hrun, hsorted⟩ := mergeSortFunc_eq (takesHead cmpFunc cmpFlag) hleads hl.nodup
      hsteps
    have hperm := sort_perm (takesHead cmpFunc cmpFlag) steps xs
    generalize sort (takesHead cmpFunc cmpFlag) steps xs = zs at hrun hsorted hperm ⊢
    have hlength := hperm.length_eq
    cases zs with
    | nil =>
        rw [length_nil] at hlength
        omega
    | cons z zs =>
        have hlast := lastLoop_eq (n := steps) hsorted.leads (by omega)
        obtain ⟨last, hlast'⟩ : ∃ last, (z :: zs).getLast? = some last :=
          ⟨_, getLast?_eq_some_getLast (by simp)⟩
        obtain ⟨x, hhead, -⟩ := hleads.next_ne_none hlong
        refine ⟨(⟨some z, some last, l.size⟩, h'), ?_, ⟨hsorted.chain hlong,
          hperm.nodup_iff.2 hl.nodup, rfl, hlast'.symm, by rw [hl.size, hlength]⟩,
          hsorted.frame, hsorted.data⟩
        rw [hlast'] at hlast
        have hsome : ¬l.head.isNone = true := by
          rw [hhead]
          simp
        rw [sortMerge, if_neg hsome, if_pos (hone.2 hlong), hrun]
        simp only [Option.bind_eq_bind, Option.bind_some, head?_cons, hlast]
        rfl
  · rw [sort_of_short (Nat.lt_of_not_le hlong)]
    refine ⟨(l, h), ?_, hl, fun _ _ => rfl, fun _ => rfl⟩
    rw [sortMerge, if_neg (fun h => hlong (hone.1 h))]
    split <;> rfl

theorem pair_sublist_of_mem {x y : Nat} (hx : x ∈ xs) (hy : y ∈ xs) (hne : x ≠ y) :
    [x, y].Sublist xs ∨ [y, x].Sublist xs := by
  obtain ⟨front, back, rfl⟩ := append_of_mem hx
  rcases mem_append.1 hy with hy | hy
  · right
    exact (singleton_sublist.2 hy).append (singleton_sublist.2 mem_cons_self)
  · left
    have hback : y ∈ back := (mem_cons.1 hy).resolve_left fun h => hne h.symm
    exact ((singleton_sublist.2 hback).cons_cons x).trans (sublist_append_right ..)

theorem not_sublist_of_nodup {x y : Nat} (hnodup : xs.Nodup) (hxy : [x, y].Sublist xs) :
    ¬[y, x].Sublist xs := by
  intro hyx
  induction xs with
  | nil => cases hxy
  | cons a xs ih =>
      obtain ⟨ha, hnodup'⟩ := nodup_cons.1 hnodup
      cases hxy with
      | cons _ hxy =>
          cases hyx with
          | cons _ hyx => exact ih hnodup' hxy hyx
          | cons_cons _ hyx => exact ha (hxy.subset (by simp))
      | cons_cons _ hy =>
          cases hyx with
          | cons _ hyx => exact ha (hyx.subset (by simp))
          | cons_cons _ hx => exact ha (singleton_sublist.1 hx)

instance instBefore [IsStrictWeakOrder Nat lt] : IsStrictWeakOrder Nat (Before cmpFlag lt) := by
  cases cmpFlag with
  | ascend => exact inferInstanceAs (IsStrictWeakOrder Nat lt)
  | descend => exact inferInstanceAs (IsStrictWeakOrder Nat (Function.swap lt))

theorem takesHead_ascend (hcmp : Compares cmpFunc lt) (x y : Nat) :
    takesHead cmpFunc .ascend x y = true ↔ ¬Before .ascend lt y x := by
  have hlt : cmpFunc x y ≠ 0 ↔ Before .ascend lt y x := hcmp x y
  rw [takesHead, beq_iff_eq, ← hlt, not_not]

theorem takesHead_descend (hcmp : Compares cmpFunc lt) (x y : Nat) :
    takesHead cmpFunc .descend x y = true ↔ Before .descend lt x y := by
  have hlt : cmpFunc x y ≠ 0 ↔ Before .descend lt x y := hcmp x y
  rw [takesHead, bne_iff_ne, hlt]

theorem chooses_takesHead [IsStrictWeakOrder Nat lt] (hcmp : Compares cmpFunc lt) :
    Chooses (Before cmpFlag lt) (takesHead cmpFunc cmpFlag) := by
  cases cmpFlag with
  | ascend =>
      refine ⟨fun x y => (takesHead_ascend hcmp x y).1, fun x y hxy hbefore => ?_⟩
      have hyes := (takesHead_ascend hcmp x y).2 (asymm_of (Before .ascend lt) hbefore)
      rw [hxy] at hyes
      cases hyes
  | descend =>
      refine ⟨fun x y hxy => asymm_of (Before .descend lt) ((takesHead_descend hcmp x y).1 hxy),
        fun x y hxy hbefore => ?_⟩
      rw [(takesHead_descend hcmp x y).2 hbefore] at hxy
      cases hxy

/-- **A sort is stable if it is ascending, or has nothing to be stable about.**  A sort of
either direction leaves a well-formed list of its nodes in order. A descending one turns
equivalent nodes round, so that it is stable only where no two nodes are equivalent. -/
theorem sortMerge_iff [IsStrictWeakOrder Nat lt] (hcmp : Compares cmpFunc lt)
    (hl : IsList s.2 s.1 xs) (haddr : ∀ x ∈ xs, Address x) :
    SortsStably cmpFunc cmpFlag lt xs s ↔
      cmpFlag = .ascend ∨ ∀ x ∈ xs, ∀ y ∈ xs, x ≠ y → lt x y ∨ lt y x := by
  constructor
  · intro hsorts
    cases cmpFlag with
    | ascend => exact Or.inl rfl
    | descend =>
        obtain ⟨t, ys, hrun, hlist, hstable, -⟩ := hsorts xs.length (Nat.le_refl _)
        obtain ⟨t', hrun', hlist', -⟩ :=
          sortMerge_eq cmpFunc .descend hl haddr (Nat.le_refl _)
        obtain rfl : t = t' := Option.some.inj (hrun.symm.trans hrun')
        have hys : ys = sort (takesHead cmpFunc .descend) xs.length xs :=
          hlist.chain.unique hlist'.chain (hlist.head.symm.trans hlist'.head)
        -- the sort has turned round what it was to leave
        have hpair : ∀ x y, ¬lt x y → ¬lt y x → ¬[x, y].Sublist xs := by
          intro x y hxy hyx hsub
          have hkept := hstable.stable x y hyx hxy hsub
          have hturned := sort_reverses (takesHead_descend hcmp) (Nat.le_refl _) hyx hsub
          rw [← hys] at hturned
          exact not_sublist_of_nodup hlist.nodup hkept hturned
        refine Or.inr fun x hx y hy hne => ?_
        by_contra hno
        rw [not_or] at hno
        rcases pair_sublist_of_mem hx hy hne with hsub | hsub
        · exact hpair x y hno.1 hno.2 hsub
        · exact hpair y x hno.2 hno.1 hsub
  · intro hcond steps hsteps
    obtain ⟨t, hrun, hlist, hframe, hdata⟩ :=
      sortMerge_eq cmpFunc cmpFlag hl haddr hsteps
    refine ⟨t, _, hrun, hlist, ⟨sort_perm .., sort_sorted (chooses_takesHead hcmp) hsteps,
      fun x y hxy hyx hsub => ?_⟩, hframe, hdata⟩
    cases cmpFlag with
    | ascend => exact sort_stable (takesHead_ascend hcmp) hsteps hyx hsub
    | descend =>
        have hdistinct := hcond.resolve_left (by simp)
        have hne : x ≠ y := by
          rintro rfl
          exact not_sublist_of_nodup hl.nodup hsub hsub
        rcases hdistinct x (hsub.subset (by simp)) y (hsub.subset (by simp)) hne with hlt | hlt
        · exact absurd hlt hyx
        · exact absurd hlt hxy

end Spec

def keyCmp (key : Nat → Nat) (x y : Nat) : Int := if key y < key x then 1 else 0

theorem compares_keyCmp (key : Nat → Nat) : Compares (keyCmp key) fun x y => key x < key y := by
  intro x y
  unfold keyCmp
  split
  · rename_i h
    simpa using h
  · rename_i h
    simpa using h

theorem strictWeakOrder_key (key : Nat → Nat) :
    IsStrictWeakOrder Nat fun x y => key x < key y where
  irrefl _ := Nat.lt_irrefl _
  trans _ _ _ := Nat.lt_trans
  incomp_trans x y z hxy hyz := by omega

def oneNode : State := addTail .empty (fun _ => .null) 51 (some 1)

def twoNodes : State := addTail oneNode.1 oneNode.2 52 (some 2)

theorem twoNodes_isList : IsList twoNodes.2 twoNodes.1 [51, 52] :=
  ((isList_empty _).addTail (by simp) _).addTail (by simp) _

theorem sortMerge_iff_twoNodes :
    SortsStably (keyCmp (· / 10)) .ascend (fun x y => x / 10 < y / 10) [51, 52] twoNodes ↔
      DLinkedListSortCodes.ascend = .ascend ∨
        ∀ x ∈ [51, 52], ∀ y ∈ [51, 52], x ≠ y → x / 10 < y / 10 ∨ y / 10 < x / 10 :=
  have := strictWeakOrder_key (· / 10)
  sortMerge_iff (compares_keyCmp (· / 10)) twoNodes_isList (by decide)

/-- A descending sort turns them round. -/
theorem descending_turns_round :
    ¬SortsStably (keyCmp (· / 10)) .descend (fun x y => x / 10 < y / 10) [51, 52] twoNodes := by
  intro h
  obtain ⟨t, ys, hrun, hlist, hstable, -⟩ := h 2 (by decide)
  have hkept := hstable.stable 51 52 (by simp [Before]) (by simp [Before]) (List.Sublist.refl _)
  have hhead : ys.head? = some 52 := by
    obtain rfl := Option.some.inj hrun
    rw [← hlist.head]
    rfl
  have hnodup := hlist.nodup
  cases ys with
  | nil => cases hhead
  | cons y ys =>
      obtain rfl : y = 52 := Option.some.inj hhead
      cases hkept with
      | cons _ hkept => exact (nodup_cons.1 hnodup).1 (hkept.subset (by simp))

end DLinkedList

end BrbData
