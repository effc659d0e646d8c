import Mathlib.Data.List.Nodup
import Mathlib.Logic.Function.Basic

/-!
# Intrusive doubly linked lists

Nodes live in a heap, a list is a record of its two ends and its size, and the
operations follow pointers. Nothing ties a node to the list it is in, so an
operation may be given a list and a node of another list; what it does then is
whatever the pointers say.

`IsList heap l xs` says that `l` is well formed and holds the nodes `xs`, from
head to tail. Each operation has one lemma on the list it is given and one
frame lemma, from which the lists that share no node with it are unchanged.
-/

namespace Linked

open List Function

/-- A node and what its owner keeps in it. All three are null in a cleared node. -/
structure Node where
  prev : Option Nat
  next : Option Nat
  data : Option Nat
deriving DecidableEq

def Node.null : Node := ⟨none, none, none⟩

abbrev Heap := Nat → Node

/-- The two ends of a list and its size. -/
structure DList where
  head : Option Nat
  tail : Option Nat
  size : UInt64
deriving DecidableEq

def DList.empty : DList := ⟨none, none, 0⟩

namespace Heap

/-- `node->prev = p`, through a pointer that may be null. -/
def setPrev (h : Heap) (node p : Option Nat) : Heap :=
  match node with
  | none => h
  | some i => Function.update h i { h i with prev := p }

/-- `node->next = p`, through a pointer that may be null. -/
def setNext (h : Heap) (node p : Option Nat) : Heap :=
  match node with
  | none => h
  | some i => Function.update h i { h i with next := p }

end Heap

/-- Put a node before the head. -/
def add (l : DList) (h : Heap) (i : Nat) (data : Option Nat) : DList × Heap :=
  let h : Heap := Function.update h i ⟨none, l.head, data⟩
  (⟨some i, l.tail <|> some i, l.size + 1⟩, h.setPrev l.head (some i))

/-- Put a node behind the tail. -/
def addTail (l : DList) (h : Heap) (i : Nat) (data : Option Nat) : DList × Heap :=
  let h : Heap := Function.update h i ⟨l.tail, none, data⟩
  (⟨l.head <|> some i, some i, l.size + 1⟩, h.setNext l.tail (some i))

/-- Take a node out of the chain it is in, and the list's ends off it. -/
def unlink (l : DList) (h : Heap) (i : Nat) : DList × Heap :=
  let h := h.setPrev (h i).next (h i).prev
  let h := h.setNext (h i).prev (h i).next
  (⟨if l.head = some i then (h i).next else l.head,
    if l.tail = some i then (h i).prev else l.tail, l.size - 1⟩,
    Function.update h i { h i with prev := none, next := none })

/-- Delete a node. A node without neighbours that is not the head is taken for
an orphan and left alone. -/
def delete (l : DList) (h : Heap) (i : Nat) : DList × Heap :=
  if l.head ≠ some i ∧ (h i).next = none ∧ (h i).prev = none then (l, h) else unlink l h i

/-- Take the head off, if there is one. -/
def popHead (l : DList) (h : Heap) : Option Nat × DList × Heap :=
  match l.head with
  | none => (none, l, h)
  | some i => ((h i).data, unlink l h i)

/-- Take the tail off, if there is one. -/
def popTail (l : DList) (h : Heap) : Option Nat × DList × Heap :=
  match l.tail with
  | none => (none, l, h)
  | some i =>
      let l : DList := if l.head = some i then ⟨none, none, l.size⟩ else l
      let h := h.setNext (h i).prev none
      ((h i).data, ⟨l.head, (h i).prev, l.size - 1⟩,
        Function.update h i { h i with prev := none, next := none })

section Chain

/-- The nodes `xs` are chained to each other, to `p` before and to `q` behind them. -/
def Chain (h : Heap) : Option Nat → List Nat → Option Nat → Prop
  | _, [], _ => True
  | p, x :: xs, q => (h x).prev = p ∧ (h x).next = (xs.head? <|> q) ∧ Chain h (some x) xs q

variable {h h' : Heap} {p q : Option Nat} {xs ys : List Nat}

theorem chain_append :
    Chain h p (xs ++ ys) q ↔
      Chain h p xs (ys.head? <|> q) ∧ Chain h (xs.getLast? <|> p) ys q := by
  induction xs generalizing p with
  | nil => simp [Chain]
  | cons x xs ih =>
      have hhead : ((xs ++ ys).head? <|> q) = (xs.head? <|> (ys.head? <|> q)) := by
        cases xs <;> rfl
      have hlast : ((x :: xs).getLast? <|> p) = (xs.getLast? <|> some x) := by
        cases xs with
        | nil => rfl
        | cons y ys => simp [getLast?_eq_some_getLast]
      simp only [cons_append, Chain, ih, hhead, hlast, and_assoc]

/-- Only the links of its own nodes make a chain. -/
theorem Chain.congr (hc : Chain h p xs q)
    (hsame : ∀ x ∈ xs, (h' x).prev = (h x).prev ∧ (h' x).next = (h x).next) :
    Chain h' p xs q := by
  induction xs generalizing p with
  | nil => trivial
  | cons x xs ih =>
      obtain ⟨hprev, hnext, hrest⟩ := hc
      obtain ⟨hx, hxs⟩ := forall_mem_cons.mp hsame
      exact ⟨hx.1.trans hprev, hx.2.trans hnext, ih hrest hxs⟩

/-- The links say which nodes a chain to null runs through. -/
theorem Chain.unique (hxs : Chain h p xs none) (hys : Chain h p ys none)
    (hhead : xs.head? = ys.head?) : xs = ys := by
  induction xs generalizing p ys with
  | nil =>
      rw [head?_nil, eq_comm, head?_eq_none_iff] at hhead
      exact hhead.symm
  | cons x xs ih =>
      cases ys with
      | nil => simp at hhead
      | cons y ys =>
          obtain rfl : x = y := by simpa using hhead
          obtain ⟨-, hxnext, hxs⟩ := hxs
          obtain ⟨-, hynext, hys⟩ := hys
          rw [ih hxs hys (by simpa using hxnext.symm.trans hynext)]

theorem setPrev_of_ne {o r : Option Nat} {y : Nat} (hne : o ≠ some y) :
    h.setPrev o r y = h y := by
  cases o with
  | none => rfl
  | some i => exact update_of_ne (fun heq => hne (congrArg some heq.symm)) _ _

theorem setNext_of_ne {o r : Option Nat} {y : Nat} (hne : o ≠ some y) :
    h.setNext o r y = h y := by
  cases o with
  | none => rfl
  | some i => exact update_of_ne (fun heq => hne (congrArg some heq.symm)) _ _

@[simp] theorem setPrev_next (o r : Option Nat) (y : Nat) :
    (h.setPrev o r y).next = (h y).next := by
  by_cases heq : o = some y
  · simp [Heap.setPrev, heq]
  · rw [setPrev_of_ne heq]

@[simp] theorem setNext_prev (o r : Option Nat) (y : Nat) :
    (h.setNext o r y).prev = (h y).prev := by
  by_cases heq : o = some y
  · simp [Heap.setNext, heq]
  · rw [setNext_of_ne heq]

@[simp] theorem setPrev_data (o r : Option Nat) (y : Nat) :
    (h.setPrev o r y).data = (h y).data := by
  by_cases heq : o = some y
  · simp [Heap.setPrev, heq]
  · rw [setPrev_of_ne heq]

@[simp] theorem setNext_data (o r : Option Nat) (y : Nat) :
    (h.setNext o r y).data = (h y).data := by
  by_cases heq : o = some y
  · simp [Heap.setNext, heq]
  · rw [setNext_of_ne heq]

/-- The first node of a chain is given another predecessor. -/
theorem Chain.setPrev_head (hc : Chain h p xs q) (hnodup : xs.Nodup) (r : Option Nat) :
    Chain (h.setPrev xs.head? r) r xs q := by
  cases xs with
  | nil => trivial
  | cons x xs =>
      obtain ⟨-, hnext, hrest⟩ := hc
      have hx : x ∉ xs := (nodup_cons.mp hnodup).1
      refine ⟨by simp [Heap.setPrev], by simpa using hnext, hrest.congr fun y hy => ?_⟩
      rw [setPrev_of_ne fun heq => hx (by simp_all)]
      exact ⟨rfl, rfl⟩

/-- The last node of a chain is given another successor. -/
theorem Chain.setNext_last (hc : Chain h p xs q) (hnodup : xs.Nodup) (r : Option Nat) :
    Chain (h.setNext xs.getLast? r) p xs r := by
  rcases eq_nil_or_concat xs with rfl | ⟨front, x, rfl⟩
  · trivial
  · rw [concat_eq_append] at hc hnodup ⊢
    rw [chain_append] at hc ⊢
    have hx : x ∉ front := fun hmem =>
      (nodup_append.mp hnodup).2.2 x hmem x (mem_singleton_self x) rfl
    simp only [getLast?_append, getLast?_singleton, Option.some_or]
    refine ⟨hc.1.congr fun y hy => ?_, ?_⟩
    · rw [setNext_of_ne fun heq => hx (by simp_all)]
      exact ⟨rfl, rfl⟩
    · obtain ⟨hprev, -, -⟩ := hc.2
      exact ⟨by simpa using hprev, by simp [Heap.setNext], trivial⟩

end Chain

/-- The list `l` is well formed and holds `xs`, from head to tail. -/
structure IsList (h : Heap) (l : DList) (xs : List Nat) : Prop where
  chain : Chain h none xs none
  nodup : xs.Nodup
  head : l.head = xs.head?
  tail : l.tail = xs.getLast?
  size : l.size = .ofNat xs.length

section IsList

variable {h h' : Heap} {l : DList} {xs front back : List Nat} {i y : Nat} {d : Option Nat}

theorem isList_empty (h : Heap) : IsList h .empty [] where
  chain := trivial
  nodup := nodup_nil
  head := rfl
  tail := rfl
  size := rfl

theorem IsList.congr (hl : IsList h l xs)
    (hsame : ∀ x ∈ xs, (h' x).prev = (h x).prev ∧ (h' x).next = (h x).next) :
    IsList h' l xs :=
  { hl with chain := hl.chain.congr hsame }

/-- A list does not notice what is written to other nodes. -/
theorem IsList.frame (hl : IsList h l xs) (hsame : ∀ x ∈ xs, h' x = h x) : IsList h' l xs :=
  hl.congr fun x hx => ⟨congrArg Node.prev (hsame x hx), congrArg Node.next (hsame x hx)⟩

/-- The list is empty exactly when its head is null. -/
theorem IsList.head_none (hl : IsList h l xs) : l.head = none ↔ xs = [] := by
  rw [hl.head, head?_eq_none_iff]

theorem IsList.add (hl : IsList h l xs) (hi : i ∉ xs) (d : Option Nat) :
    IsList (add l h i d).2 (add l h i d).1 (i :: xs) where
  chain := by
    have hrest : Chain (update h i ⟨none, l.head, d⟩) none xs none :=
      hl.chain.congr fun x hx => by
        rw [update_of_ne (ne_of_mem_of_not_mem hx hi)]
        exact ⟨rfl, rfl⟩
    have hne : l.head ≠ some i := fun heq => by
      rw [hl.head] at heq
      exact hi (mem_of_mem_head? heq)
    refine ⟨?_, ?_, ?_⟩
    · simp only [Linked.add]
      rw [setPrev_of_ne hne, update_self]
    · simp only [Linked.add]
      rw [setPrev_of_ne hne, update_self]
      simp [hl.head]
    · simp only [Linked.add, hl.head]
      exact (hl.head ▸ hrest).setPrev_head hl.nodup (some i)
  nodup := nodup_cons.mpr ⟨hi, hl.nodup⟩
  head := rfl
  tail := by
    simp only [Linked.add, hl.tail]
    cases xs with
    | nil => rfl
    | cons x xs => simp [getLast?_eq_some_getLast]
  size := by
    simp [Linked.add, hl.size]

theorem IsList.addTail (hl : IsList h l xs) (hi : i ∉ xs) (d : Option Nat) :
    IsList (addTail l h i d).2 (addTail l h i d).1 (xs ++ [i]) where
  chain := by
    have hrest : Chain (update h i ⟨l.tail, none, d⟩) none xs none :=
      hl.chain.congr fun x hx => by
        rw [update_of_ne (ne_of_mem_of_not_mem hx hi)]
        exact ⟨rfl, rfl⟩
    have hne : l.tail ≠ some i := fun heq => by
      rw [hl.tail] at heq
      exact hi (mem_of_getLast? heq)
    rw [chain_append]
    refine ⟨?_, ?_, ?_, trivial⟩
    · simp only [Linked.addTail, hl.tail]
      exact (hl.tail ▸ hrest).setNext_last hl.nodup (some i)
    · simp only [Linked.addTail]
      rw [setNext_of_ne hne, update_self]
      simp [hl.tail]
    · simp only [Linked.addTail]
      rw [setNext_of_ne hne, update_self]
      rfl
  nodup := nodup_append.mpr
    ⟨hl.nodup, nodup_singleton i, fun x hx y hy heq => hi (by simp_all)⟩
  head := by
    simp only [Linked.addTail, hl.head]
    cases xs <;> rfl
  tail := by simp [Linked.addTail]
  size := by simp [Linked.addTail, hl.size]

/-- A node that is linked somewhere has neighbours or is alone. -/
theorem IsList.links (hl : IsList h l (front ++ i :: back)) :
    (h i).prev = front.getLast? ∧ (h i).next = back.head? := by
  obtain ⟨-, hprev, hnext, -⟩ := chain_append.mp hl.chain
  exact ⟨by simpa using hprev, by simpa using hnext⟩

theorem IsList.unlink (hl : IsList h l (front ++ i :: back)) :
    IsList (unlink l h i).2 (unlink l h i).1 (front ++ back) := by
  obtain ⟨hprev, hnext⟩ := hl.links
  obtain ⟨hfront, -, -, hback⟩ := chain_append.mp hl.chain
  obtain ⟨hfnodup, hbnodup, hdisjoint⟩ := nodup_append.mp hl.nodup
  obtain ⟨hib, hbnodup⟩ := nodup_cons.mp hbnodup
  have hif : i ∉ front := fun hmem => hdisjoint i hmem i mem_cons_self rfl
  have hnei : (h i).next ≠ some i := fun heq => by
    rw [hnext] at heq
    exact hib (mem_of_mem_head? heq)
  have hpnei : (h i).prev ≠ some i := fun heq => by
    rw [hprev] at heq
    exact hif (mem_of_getLast? heq)
  -- the two writes to the neighbours leave the node itself as it was
  have hself : h.setPrev (h i).next (h i).prev i = h i := setPrev_of_ne hnei
  have hself' : (h.setPrev (h i).next (h i).prev).setNext (h i).prev (h i).next i = h i :=
    (setNext_of_ne hpnei).trans hself
  have hfrontLinks : Chain (h.setPrev back.head? front.getLast?) none front (some i) := by
    refine Chain.congr (by simpa using hfront) fun x hx => ?_
    rw [setPrev_of_ne fun heq => hdisjoint x hx x
      (mem_cons_of_mem _ (mem_of_mem_head? heq)) rfl]
    exact ⟨rfl, rfl⟩
  have hbackLinks : Chain ((h.setPrev back.head? front.getLast?).setNext front.getLast?
      back.head?) front.getLast? back none := by
    refine (hback.setPrev_head hbnodup front.getLast?).congr fun x hx => ?_
    rw [setNext_of_ne fun heq => hdisjoint x (mem_of_getLast? heq) x
      (mem_cons_of_mem _ hx) rfl]
    exact ⟨rfl, rfl⟩
  have hout : i ∉ front ++ back := by simp [hif, hib]
  have hnodup : (front ++ back).Nodup :=
    nodup_append.mpr ⟨hfnodup, hbnodup,
      fun x hx y hy => hdisjoint x hx y (mem_cons_of_mem _ hy)⟩
  unfold Linked.unlink
  simp only [hself, hself']
  rw [hprev, hnext]
  constructor
  · refine Chain.congr (h := (h.setPrev back.head? front.getLast?).setNext front.getLast?
      back.head?) ?_ fun x hx => ?_
    · rw [chain_append]
      refine ⟨?_, by simpa using hbackLinks⟩
      simpa using hfrontLinks.setNext_last hfnodup back.head?
    · rw [update_of_ne (ne_of_mem_of_not_mem hx hout)]
      exact ⟨rfl, rfl⟩
  · exact hnodup
  · have hhead : l.head = (front.head? <|> some i) := by
      rw [hl.head]
      cases front <;> rfl
    cases front with
    | nil => simp [hhead]
    | cons x front =>
        have hne : x ≠ i := fun heq => hif (heq ▸ mem_cons_self)
        simp [hhead, hne]
  · have htail : l.tail = (back.getLast? <|> some i) := by
      rw [hl.tail]
      cases back with
      | nil => simp
      | cons y back => simp [getLast?_eq_some_getLast]
    rcases eq_nil_or_concat back with rfl | ⟨back, y, rfl⟩
    · simp [htail]
    · have hne : y ≠ i := fun heq => hib (by simp [heq])
      simp [htail, hne]
  · have hlen : (front ++ i :: back).length = (front ++ back).length + 1 := by simp; omega
    rw [hl.size, hlen, UInt64.ofNat_add]
    simp

/-- A node of the list is never taken for an orphan. -/
theorem IsList.not_orphan (hl : IsList h l xs) (hi : i ∈ xs) :
    ¬(l.head ≠ some i ∧ (h i).next = none ∧ (h i).prev = none) := by
  obtain ⟨front, back, rfl⟩ := append_of_mem hi
  refine fun ⟨hhead, _, hprev⟩ => hhead ?_
  rw [hl.links.1, getLast?_eq_none_iff] at hprev
  rw [hl.head, hprev]
  rfl

theorem IsList.delete_eq (hl : IsList h l xs) (hi : i ∈ xs) : delete l h i = Linked.unlink l h i :=
  if_neg (hl.not_orphan hi)

theorem IsList.delete (hl : IsList h l xs) (hi : i ∈ xs) :
    IsList (delete l h i).2 (delete l h i).1 (xs.erase i) := by
  rw [hl.delete_eq hi]
  obtain ⟨front, back, rfl⟩ := append_of_mem hi
  have hif : i ∉ front := fun hmem =>
    (nodup_append.mp hl.nodup).2.2 i hmem i mem_cons_self rfl
  rw [erase_append_right _ hif, erase_cons_head]
  exact hl.unlink

theorem IsList.popHead (hl : IsList h l (i :: xs)) :
    popHead l h = ((h i).data, Linked.unlink l h i) := by
  simp [Linked.popHead, hl.head]

/-- The tail that is taken off is unlinked like any other node. -/
theorem IsList.popTail (hl : IsList h l (xs ++ [i])) :
    popTail l h = ((h i).data, Linked.unlink l h i) := by
  obtain ⟨hprev, hnext⟩ := hl.links
  have hnodup : i ∉ xs := fun hmem =>
    (nodup_append.mp hl.nodup).2.2 i hmem i (mem_singleton_self i) rfl
  have hself : h.setNext (h i).prev none i = h i :=
    setNext_of_ne fun heq => by
      rw [hprev] at heq
      exact hnodup (mem_of_getLast? heq)
  have htail : l.tail = some i := by simp [hl.tail]
  have hnext : (h i).next = none := hnext
  have hset : h.setPrev none (h i).prev = h := rfl
  simp only [Linked.popTail, Linked.unlink, htail, hnext, hset, hself, if_pos]
  split <;> simp_all

/-- A list holds one sequence of nodes. -/
theorem IsList.unique {ys : List Nat} (hxs : IsList h l xs) (hys : IsList h l ys) : xs = ys :=
  hxs.chain.unique hys.chain (hxs.head.symm.trans hys.head)

/-- An orphan stays where it is. -/
theorem delete_orphan (hhead : l.head ≠ some i) (hnext : (h i).next = none)
    (hprev : (h i).prev = none) : delete l h i = (l, h) :=
  if_pos ⟨hhead, hnext, hprev⟩

end IsList

section Frame

variable {h : Heap} {l : DList} {xs : List Nat} {i y : Nat} {d : Option Nat}

/-- The node that is added and those of the list are the only ones written. -/
theorem IsList.add_frame (hl : IsList h l xs) (hy : y ∉ i :: xs) : (Linked.add l h i d).2 y = h y := by
  obtain ⟨hne, hxs⟩ := ne_and_not_mem_of_not_mem_cons hy
  simp only [Linked.add]
  rw [setPrev_of_ne fun heq => hxs (mem_of_mem_head? (hl.head ▸ heq)),
    update_of_ne hne]

theorem IsList.addTail_frame (hl : IsList h l xs) (hy : y ∉ i :: xs) :
    (Linked.addTail l h i d).2 y = h y := by
  obtain ⟨hne, hxs⟩ := ne_and_not_mem_of_not_mem_cons hy
  simp only [Linked.addTail]
  rw [setNext_of_ne fun heq => hxs (mem_of_getLast? (hl.tail ▸ heq)),
    update_of_ne hne]

theorem IsList.unlink_frame (hl : IsList h l xs) (hi : i ∈ xs) (hy : y ∉ xs) :
    (Linked.unlink l h i).2 y = h y := by
  obtain ⟨front, back, rfl⟩ := append_of_mem hi
  obtain ⟨hprev, hnext⟩ := hl.links
  have hnei : (h i).next ≠ some i := fun heq => by
    rw [hnext] at heq
    have := mem_of_mem_head? heq
    grind [nodup_append, nodup_cons, hl.nodup]
  have hself : h.setPrev (h i).next (h i).prev i = h i := setPrev_of_ne hnei
  simp only [Linked.unlink, hself]
  have hyprev : (h i).prev ≠ some y := fun heq =>
    hy (mem_append_left _ (mem_of_getLast? (hprev ▸ heq)))
  have hynext : (h i).next ≠ some y := fun heq =>
    hy (mem_append_right _ (mem_cons_of_mem _ (mem_of_mem_head? (hnext ▸ heq))))
  rw [update_of_ne (ne_of_mem_of_not_mem hi hy).symm, setNext_of_ne hyprev,
    setPrev_of_ne hynext]

end Frame

section Data

variable {h : Heap} {l : DList} {i y : Nat} {d : Option Nat}

@[simp] theorem add_data :
    ((add l h i d).2 y).data = if y = i then d else (h y).data := by
  simp only [add, setPrev_data, update_apply]
  split <;> rfl

@[simp] theorem addTail_data :
    ((addTail l h i d).2 y).data = if y = i then d else (h y).data := by
  simp only [addTail, setNext_data, update_apply]
  split <;> rfl

@[simp] theorem unlink_data : ((unlink l h i).2 y).data = (h y).data := by
  simp only [unlink, update_apply]
  split
  · rename_i heq
    simp [heq]
  · simp

/-- A node that was unlinked has no neighbours. -/
theorem unlink_self (l : DList) (h : Heap) (i : Nat) :
    ((unlink l h i).2 i).prev = none ∧ ((unlink l h i).2 i).next = none := by
  simp [unlink]

end Data

/-- Lists over one heap that share no node. -/
structure Family {ι : Type} (h : Heap) (list : ι → DList) (xs : ι → List Nat) : Prop where
  isList : ∀ k, IsList h (list k) (xs k)
  disjoint : ∀ k k' x, x ∈ xs k → x ∈ xs k' → k = k'

namespace Family

variable {ι : Type} {h h' : Heap} {list : ι → DList} {xs : ι → List Nat} {i : Nat} {k : ι}

theorem congr (hf : Family h list xs) (hsame : ∀ k, ∀ x ∈ xs k, h' x = h x) : Family h' list xs :=
  ⟨fun k => (hf.isList k).frame (hsame k), hf.disjoint⟩

variable [DecidableEq ι]

/-- One list was changed, and only nodes that no other list holds were written. -/
theorem update (hf : Family h list xs) {l : DList} {ys : List Nat} (hl : IsList h' l ys)
    (hnew : ∀ x ∈ ys, x ∈ xs k ∨ ∀ k', x ∉ xs k')
    (hsame : ∀ k', k' ≠ k → ∀ x ∈ xs k', h' x = h x) :
    Family h' (Function.update list k l) (Function.update xs k ys) := by
  have hold : ∀ k' x, k' ≠ k → x ∈ ys → x ∉ xs k' := fun k' x hk hx hx' =>
    (hnew x hx).elim (fun hmem => hk (hf.disjoint k' k x hx' hmem)) fun hout => hout k' hx'
  refine ⟨fun k' => ?_, fun a b x ha hb => ?_⟩
  · by_cases hk : k' = k
    · subst hk
      simpa using hl
    · rw [update_of_ne hk, update_of_ne hk]
      exact (hf.isList k').frame (hsame k' hk)
  · by_cases hak : a = k <;> by_cases hbk : b = k
    · exact hak.trans hbk.symm
    · subst hak
      rw [update_self] at ha
      rw [update_of_ne hbk] at hb
      exact absurd hb (hold b x hbk ha)
    · subst hbk
      rw [update_self] at hb
      rw [update_of_ne hak] at ha
      exact absurd ha (hold a x hak hb)
    · rw [update_of_ne hak] at ha
      rw [update_of_ne hbk] at hb
      exact hf.disjoint a b x ha hb

theorem delete (hf : Family h list xs) (hi : i ∈ xs k) :
    Family (delete (list k) h i).2 (Function.update list k (delete (list k) h i).1)
      (Function.update xs k ((xs k).erase i)) := by
  refine hf.update ((hf.isList k).delete hi) (fun x hx => .inl (mem_of_mem_erase hx))
    fun k' hk x hx => ?_
  rw [(hf.isList k).delete_eq hi]
  exact (hf.isList k).unlink_frame hi fun hx' => hk (hf.disjoint k' k x hx hx')

omit [DecidableEq ι] in
/-- A node of another list is not of list `k`, nor the one that is added to it. -/
theorem not_mem_cons (hf : Family h list xs) (hi : ∀ k, i ∉ xs k) {k' : ι} (hk : k' ≠ k) {x : Nat}
    (hx : x ∈ xs k') : x ∉ i :: xs k :=
  not_mem_cons_of_ne_of_not_mem
    (ne_of_mem_of_not_mem hx (hi k')) fun hx' => hk (hf.disjoint k' k x hx hx')

theorem add (hf : Family h list xs) (hi : ∀ k, i ∉ xs k) (k : ι) (d : Option Nat) :
    Family (add (list k) h i d).2 (Function.update list k (add (list k) h i d).1)
      (Function.update xs k (i :: xs k)) := by
  refine hf.update ((hf.isList k).add (hi k) d) (fun x hx => ?_)
    fun k' hk x hx => (hf.isList k).add_frame (hf.not_mem_cons hi hk hx)
  rcases mem_cons.mp hx with rfl | hx
  · exact .inr hi
  · exact .inl hx

theorem addTail (hf : Family h list xs) (hi : ∀ k, i ∉ xs k) (k : ι) (d : Option Nat) :
    Family (addTail (list k) h i d).2 (Function.update list k (addTail (list k) h i d).1)
      (Function.update xs k (xs k ++ [i])) := by
  refine hf.update ((hf.isList k).addTail (hi k) d) (fun x hx => ?_)
    fun k' hk x hx => (hf.isList k).addTail_frame (hf.not_mem_cons hi hk hx)
  rcases mem_append.mp hx with hx | hx
  · exact .inl hx
  · obtain rfl := mem_singleton.mp hx
    exact .inr hi

end Family

end Linked
