import BrbFramework.Lib.Linked
import Mathlib.Algebra.GroupWithZero.Nat
import Mathlib.Data.List.InsertIdx
import Mathlib.Data.Finset.Card

/-!
# `DLinkedList`

The operations of the library's lists of nodes that callers own. Adding at an
end, deleting and popping are those of `Linked`; the rest is here: insertion at
a position and the two moves.

`Seq` is what a list is for, a sequence of nodes with the data each one was
given. `follows_iff` says when the pointers keep in step with it: exactly while
no call takes one of the branches that link a node without counting it.
-/

namespace BrbData

open Linked List Function

namespace DLinkedList

abbrev State := DList × Heap

/-- `DLinkedListAddBefore`, which refuses a null data pointer. -/
def addBefore (s : State) (nodePos nodeNew : Nat) (data : Option Nat) : State :=
  let (l, h) := s
  if data = none then s
  else
    let h : Heap := Function.update h nodeNew ⟨(h nodePos).prev, some nodePos, data⟩
    let h := h.setPrev (some nodePos) (some nodeNew)
    let h := h.setNext (h nodeNew).prev (some nodeNew)
    (⟨if l.head = none ∨ l.head = some nodePos then some nodeNew else l.head,
      l.tail <|> some nodeNew, l.size⟩, h)

/-- `DLinkedListAddAfter`, which refuses a null data pointer. -/
def addAfter (s : State) (nodePos nodeNew : Nat) (data : Option Nat) : State :=
  let (l, h) := s
  if data = none then s
  else
    let h : Heap := Function.update h nodeNew ⟨some nodePos, (h nodePos).next, data⟩
    let h := h.setNext (some nodePos) (some nodeNew)
    let h := h.setPrev (h nodeNew).next (some nodeNew)
    (⟨l.head <|> some nodeNew,
      if l.tail = none ∨ l.tail = some nodePos then some nodeNew else l.tail, l.size⟩, h)

/-- The walk of `DLinkedListAddPos` from `nodePtr`, whose counter `i` is an
`unsigned int`: the node at `pos`, or null behind the last one. A walk that
runs out of `fuel` does not end. -/
def findPos (h : Heap) (pos : Nat) : Nat → Option Nat → Nat → Option (Option Nat)
  | 0, _, _ => none
  | _ + 1, none, _ => some none
  | fuel + 1, some node, i =>
      if pos = i then some (some node) else findPos h pos fuel (h node).next ((i + 1) % 2 ^ 32)

/-- `DLinkedListAddPos`. There are fewer than `2 ^ 64` nodes, so that a longer
walk goes round. -/
def addPos (s : State) (pos node : Nat) (data : Option Nat) : Option State :=
  let (l, h) := s
  if pos = 0 then some (add l h node data)
  else if pos ≥ l.size.toNat then some (addTail l h node data)
  else
    match findPos h pos (2 ^ 64) l.head 0 with
    | none => none
    | some none => some (addTail l h node data)
    | some (some nodePtr) =>
        let h := h.setNext (h nodePtr).prev (some node)
        let h := h.setNext (some node) (some nodePtr)
        let h := h.setPrev (some node) (h nodePtr).prev
        some (l, h.setPrev (some nodePtr) (some node))

/-- What both moves begin with: the node's neighbours and the ends of the list
let go of it, unless it is taken for an orphan. -/
def leave (s : State) (node : Nat) : State :=
  let (l, h) := s
  if l.head ≠ some node ∧ (h node).next = none ∧ (h node).prev = none then s
  else
    let h := h.setPrev (h node).next (h node).prev
    let h := h.setNext (h node).prev (h node).next
    (⟨if l.head = some node then (h node).next else l.head,
      if l.tail = some node then (h node).prev else l.tail, l.size⟩, h)

/-- `DLinkedListMoveToTail`. -/
def moveToTail (s : State) (node : Nat) : State :=
  if s.1.tail = some node then s
  else
    let (l, h) := leave s node
    let h : Heap := Function.update h node { h node with next := none, prev := l.tail }
    (⟨l.head <|> some node, some node, l.size⟩, h.setNext l.tail (some node))

/-- `DLinkedListMoveToHead`. -/
def moveToHead (s : State) (node : Nat) : State :=
  if s.1.head = some node then s
  else
    let (l, h) := leave s node
    let h : Heap := Function.update h node { h node with prev := none, next := l.head }
    (⟨some node, l.tail <|> some node, l.size⟩, h.setPrev l.head (some node))

inductive Op
  | add (node : Nat) (data : Option Nat)
  | addTail (node : Nat) (data : Option Nat)
  | addBefore (nodePos nodeNew : Nat) (data : Option Nat)
  | addAfter (nodePos nodeNew : Nat) (data : Option Nat)
  | addPos (pos node : Nat) (data : Option Nat)
  | moveToHead (node : Nat)
  | moveToTail (node : Nat)
  | delete (node : Nat)
  | popHead
  | popTail
  deriving DecidableEq, Repr

/-- What a call returns, null unless it pops, and what it leaves. `none` is a
call that does not end. -/
def Op.exec (s : State) : Op → Option (Option Nat × State)
  | .add node data => some (none, Linked.add s.1 s.2 node data)
  | .addTail node data => some (none, Linked.addTail s.1 s.2 node data)
  | .addBefore nodePos nodeNew data => some (none, DLinkedList.addBefore s nodePos nodeNew data)
  | .addAfter nodePos nodeNew data => some (none, DLinkedList.addAfter s nodePos nodeNew data)
  | .addPos pos node data => (DLinkedList.addPos s pos node data).map fun s => (none, s)
  | .moveToHead node => some (none, DLinkedList.moveToHead s node)
  | .moveToTail node => some (none, DLinkedList.moveToTail s node)
  | .delete node => some (none, Linked.delete s.1 s.2 node)
  | .popHead => some (Linked.popHead s.1 s.2)
  | .popTail => some (Linked.popTail s.1 s.2)

/-- The sequence of nodes a list stands for, and the data each node was given. -/
structure Seq where
  nodes : List Nat
  data : Nat → Option Nat

namespace Seq

/-- Put `node` before `pos`, or first where `pos` is not in the sequence. -/
def insertBefore (pos node : Nat) (nodes : List Nat) : List Nat :=
  if pos ∈ nodes then nodes.insertIdx (nodes.idxOf pos) node else node :: nodes

/-- Put `node` behind `pos`, or last where `pos` is not in the sequence. -/
def insertAfter (pos node : Nat) (nodes : List Nat) : List Nat :=
  if pos ∈ nodes then nodes.insertIdx (nodes.idxOf pos + 1) node else nodes ++ [node]

/-- What a call is for: what it is to return, and the sequence it is to leave. -/
def exec (q : Seq) : Op → Option Nat × Seq
  | .add node data => (none, ⟨node :: q.nodes, Function.update q.data node data⟩)
  | .addTail node data => (none, ⟨q.nodes ++ [node], Function.update q.data node data⟩)
  | .addBefore nodePos nodeNew data =>
      (none, if data = none then q
        else ⟨insertBefore nodePos nodeNew q.nodes, Function.update q.data nodeNew data⟩)
  | .addAfter nodePos nodeNew data =>
      (none, if data = none then q
        else ⟨insertAfter nodePos nodeNew q.nodes, Function.update q.data nodeNew data⟩)
  | .addPos pos node data =>
      (none, ⟨q.nodes.insertIdx (min pos q.nodes.length) node, Function.update q.data node data⟩)
  | .moveToHead node => (none, { q with nodes := node :: q.nodes.erase node })
  | .moveToTail node => (none, { q with nodes := q.nodes.erase node ++ [node] })
  | .delete node => (none, { q with nodes := q.nodes.erase node })
  | .popHead => (q.nodes.head?.bind q.data, { q with nodes := q.nodes.tail })
  | .popTail => (q.nodes.getLast?.bind q.data, { q with nodes := q.nodes.dropLast })

end Seq

section Moves

variable {s : State} {node : Nat}

theorem moveToHead_eq {xs : List Nat} (hl : IsList s.2 s.1 xs) (hnode : node ∈ xs)
    (hhead : s.1.head ≠ some node) :
    moveToHead s node =
      Linked.add (unlink s.1 s.2 node).1 (unlink s.1 s.2 node).2 node (s.2 node).data := by
  have hleave : ¬(s.1.head ≠ some node ∧ (s.2 node).next = none ∧ (s.2 node).prev = none) :=
    hl.not_orphan hnode
  have hdata : ∀ a b c d, (((s.2.setPrev a b).setNext c d) node).data = (s.2 node).data := by simp
  simp only [moveToHead, leave, Linked.add, unlink, if_neg hhead, if_neg hleave, hdata,
    update_idem, UInt64.sub_add_cancel]

theorem moveToTail_eq {xs : List Nat} (hl : IsList s.2 s.1 xs) (hnode : node ∈ xs)
    (htail : s.1.tail ≠ some node) :
    moveToTail s node =
      Linked.addTail (unlink s.1 s.2 node).1 (unlink s.1 s.2 node).2 node (s.2 node).data := by
  have hleave : ¬(s.1.head ≠ some node ∧ (s.2 node).next = none ∧ (s.2 node).prev = none) :=
    hl.not_orphan hnode
  have hdata : ∀ a b c d, (((s.2.setPrev a b).setNext c d) node).data = (s.2 node).data := by simp
  simp only [moveToTail, leave, Linked.addTail, unlink, if_neg htail, if_neg hleave, hdata,
    update_idem, UInt64.sub_add_cancel]

end Moves

/-- The list is well formed, holds the nodes of the sequence, counts them, and
each node has its data. -/
structure Models (s : State) (q : Seq) : Prop where
  list : IsList s.2 s.1 q.nodes
  size : s.1.size.toNat = q.nodes.length
  data : ∀ x ∈ q.nodes, (s.2 x).data = q.data x

def Address (node : Nat) : Prop := 0 < node ∧ node < 2 ^ 64

instance (node : Nat) : Decidable (Address node) := inferInstanceAs (Decidable (_ ∧ _))

/-- A node of the list, or one without neighbours. -/
def MemberOrOrphan (s : State) (q : Seq) (node : Nat) : Prop :=
  node ∈ q.nodes ∨ ((s.2 node).prev = none ∧ (s.2 node).next = none)

instance (s : State) (q : Seq) (node : Nat) : Decidable (MemberOrOrphan s q node) :=
  inferInstanceAs (Decidable (_ ∨ _))

/-- What callers promise: a node that is inserted is not in the list, and one
that is named is in it or an orphan. -/
def Op.Allowed (s : State) (q : Seq) : Op → Prop
  | .add node _ | .addTail node _ | .addPos _ node _ => Address node ∧ node ∉ q.nodes
  | .addBefore nodePos nodeNew _ | .addAfter nodePos nodeNew _ =>
      Address nodeNew ∧ nodeNew ∉ q.nodes ∧ MemberOrOrphan s q nodePos
  | .moveToHead node | .moveToTail node | .delete node => Address node ∧ MemberOrOrphan s q node
  | .popHead | .popTail => True

instance (s : State) (q : Seq) (o : Op) : Decidable (o.Allowed s q) := by
  cases o <;> unfold Op.Allowed <;> infer_instance

/-- The call takes no branch that links a node without counting it: it inserts
beside a node only with a null data pointer, which is refused, at a position
only where that is an end, and moves no orphan. -/
def Op.Counted (q : Seq) : Op → Prop
  | .addBefore _ _ data | .addAfter _ _ data => data = none
  | .addPos pos _ _ => pos = 0 ∨ q.nodes.length ≤ pos
  | .moveToHead node | .moveToTail node => node ∈ q.nodes
  | .add _ _ | .addTail _ _ | .delete _ | .popHead | .popTail => True

instance (q : Seq) (o : Op) : Decidable (o.Counted q) := by
  cases o <;> unfold Op.Counted <;> infer_instance

namespace Seq

def Addressed (q : Seq) : Prop := ∀ x ∈ q.nodes, Address x

variable {q : Seq} {pos node : Nat} {nodes : List Nat}

theorem length_insertBefore : (insertBefore pos node nodes).length = nodes.length + 1 := by
  unfold insertBefore
  split
  · rename_i hpos
    exact length_insertIdx_of_le_length (idxOf_le_length) _
  · rfl

theorem length_insertAfter : (insertAfter pos node nodes).length = nodes.length + 1 := by
  unfold insertAfter
  split
  · rename_i hpos
    exact length_insertIdx_of_le_length (idxOf_lt_length_of_mem hpos) _
  · simp

theorem length_exec_of_not_counted {s : State} {o : Op} (hallowed : o.Allowed s q)
    (hnot : ¬ o.Counted q) : (q.exec o).2.nodes.length = q.nodes.length + 1 := by
  cases o with
  | addBefore nodePos nodeNew data =>
      simp only [Op.Counted] at hnot
      simp [exec, hnot, length_insertBefore]
  | addAfter nodePos nodeNew data =>
      simp only [Op.Counted] at hnot
      simp [exec, hnot, length_insertAfter]
  | addPos pos node data =>
      exact length_insertIdx_of_le_length (Nat.min_le_right _ _) _
  | moveToHead node =>
      simp only [Op.Counted] at hnot
      simp [exec, erase_of_not_mem hnot]
  | moveToTail node =>
      simp only [Op.Counted] at hnot
      simp [exec, erase_of_not_mem hnot]
  | add | addTail | delete | popHead | popTail => exact absurd trivial hnot

theorem Addressed.exec {s : State} {o : Op} (hq : q.Addressed) (hallowed : o.Allowed s q) :
    (q.exec o).2.Addressed := by
  cases o with
  | add node data => exact forall_mem_cons.mpr ⟨hallowed.1, hq⟩
  | addTail node data =>
      exact forall_mem_append.mpr ⟨hq, forall_mem_singleton.mpr hallowed.1⟩
  | addBefore nodePos nodeNew data =>
      intro x hx
      simp only [Seq.exec, insertBefore] at hx
      grind [eq_or_mem_of_mem_insertIdx, Op.Allowed, Addressed]
  | addAfter nodePos nodeNew data =>
      intro x hx
      simp only [Seq.exec, insertAfter] at hx
      grind [eq_or_mem_of_mem_insertIdx, Op.Allowed, Addressed]
  | addPos pos node data =>
      intro x hx
      rcases eq_or_mem_of_mem_insertIdx hx with rfl | hx
      · exact hallowed.1
      · exact hq x hx
  | moveToHead node =>
      exact forall_mem_cons.mpr ⟨hallowed.1, fun x hx => hq x (mem_of_mem_erase hx)⟩
  | moveToTail node =>
      exact forall_mem_append.mpr ⟨fun x hx => hq x (mem_of_mem_erase hx),
        forall_mem_singleton.mpr hallowed.1⟩
  | delete node => exact fun x hx => hq x (mem_of_mem_erase hx)
  | popHead => exact fun x hx => hq x (mem_of_mem_tail hx)
  | popTail => exact fun x hx => hq x (mem_of_mem_dropLast hx)

end Seq

theorem size_of_isList {h : Heap} {l : DList} {q : Seq} (hl : IsList h l q.nodes)
    (hq : q.Addressed) : l.size.toNat = q.nodes.length := by
  have hsub : q.nodes ⊆ List.range' 1 (2 ^ 64 - 1) := fun x hx => by
    have := hq x hx
    simp only [Address, mem_range'_1] at this ⊢
    omega
  have hlen := (subperm_of_subset hl.nodup hsub).length_le
  rw [length_range'] at hlen
  rw [hl.size, UInt64.toNat_ofNat']
  exact Nat.mod_eq_of_lt (by omega)

section Step

variable {s s' : State} {q : Seq} {o : Op} {node nodePos : Nat} {data : Option Nat}

theorem Models.of_isList {q' : Seq} (hlist : IsList s'.2 s'.1 q'.nodes) (hq : q'.Addressed)
    (hdata : ∀ x ∈ q'.nodes, (s'.2 x).data = q'.data x) : Models s' q' :=
  ⟨hlist, size_of_isList hlist hq, hdata⟩

theorem data_update (hm : Models s q) {h : Heap}
    (hh : ∀ x, (h x).data = if x = node then data else (s.2 x).data) (x : Nat)
    (hx : x = node ∨ x ∈ q.nodes) : (h x).data = update q.data node data x := by
  rw [hh, update_apply]
  split
  · rfl
  · exact hm.data x (hx.resolve_left ‹_›)

theorem Models.add (hm : Models s q) (hq : q.Addressed) (ha : Address node) (hnode : node ∉ q.nodes) :
    Models (Linked.add s.1 s.2 node data) ⟨node :: q.nodes, update q.data node data⟩ :=
  .of_isList (hm.list.add hnode data) (forall_mem_cons.mpr ⟨ha, hq⟩) fun x hx =>
    data_update hm (fun _ => add_data) x (mem_cons.mp hx)

theorem Models.addTail (hm : Models s q) (hq : q.Addressed) (ha : Address node)
    (hnode : node ∉ q.nodes) :
    Models (Linked.addTail s.1 s.2 node data)
      ⟨q.nodes ++ [node], update q.data node data⟩ :=
  .of_isList (hm.list.addTail hnode data)
    (forall_mem_append.mpr ⟨hq, forall_mem_singleton.mpr ha⟩) fun x hx =>
    data_update hm (fun _ => addTail_data) x (by simpa [or_comm] using hx)

theorem Models.unlink (hm : Models s q) (hq : q.Addressed) (hnode : node ∈ q.nodes) :
    Models (Linked.unlink s.1 s.2 node) { q with nodes := q.nodes.erase node } :=
  .of_isList (hm.list.delete_eq hnode ▸ hm.list.delete hnode)
    (fun x hx => hq x (mem_of_mem_erase hx)) fun x hx => by
      rw [unlink_data]
      exact hm.data x (mem_of_mem_erase hx)

theorem Models.readd (hm : Models s q) (q' : Seq) (hnode : node ∈ q.nodes)
    (h : Models s' ⟨q'.nodes, update q.data node (s.2 node).data⟩) :
    Models s' { q with nodes := q'.nodes } := by
  have hdata : update q.data node (s.2 node).data = q.data := by
    rw [hm.data node hnode, update_eq_self]
  rwa [hdata] at h

theorem Models.moveToHead (hm : Models s q) (hq : q.Addressed) (hnode : node ∈ q.nodes) :
    Models (DLinkedList.moveToHead s node) { q with nodes := node :: q.nodes.erase node } := by
  by_cases hhead : s.1.head = some node
  · obtain ⟨rest, hnodes⟩ : ∃ rest, q.nodes = node :: rest :=
      head?_eq_some_iff.mp (hm.list.head.symm.trans hhead)
    have hsame : node :: q.nodes.erase node = q.nodes := by simp [hnodes]
    simpa [DLinkedList.moveToHead, hhead, hsame] using hm
  · rw [moveToHead_eq hm.list hnode hhead]
    have hout : node ∉ q.nodes.erase node := hm.list.nodup.not_mem_erase
    exact hm.readd ⟨_, q.data⟩ hnode ((hm.unlink hq hnode).add
      (fun x hx => hq x (mem_of_mem_erase hx)) (hq node hnode) hout)

theorem Models.moveToTail (hm : Models s q) (hq : q.Addressed) (hnode : node ∈ q.nodes) :
    Models (DLinkedList.moveToTail s node) { q with nodes := q.nodes.erase node ++ [node] } := by
  by_cases htail : s.1.tail = some node
  · obtain ⟨front, hnodes⟩ : ∃ front, q.nodes = front ++ [node] :=
      getLast?_eq_some_iff.mp (hm.list.tail.symm.trans htail)
    have hout : node ∉ front := fun hmem =>
      (nodup_append.mp (hnodes ▸ hm.list.nodup)).2.2 node hmem node
        (mem_singleton_self node) rfl
    have hsame : q.nodes.erase node ++ [node] = q.nodes := by
      rw [hnodes, erase_append_right _ hout, erase_cons_head, append_nil]
    simpa [DLinkedList.moveToTail, htail, hsame] using hm
  · rw [moveToTail_eq hm.list hnode htail]
    have hout : node ∉ q.nodes.erase node := hm.list.nodup.not_mem_erase
    exact hm.readd ⟨_, q.data⟩ hnode ((hm.unlink hq hnode).addTail
      (fun x hx => hq x (mem_of_mem_erase hx)) (hq node hnode) hout)

theorem Models.exec (hm : Models s q) (hq : q.Addressed) (hallowed : o.Allowed s q)
    (hcounted : o.Counted q) :
    ∃ s', o.exec s = some ((q.exec o).1, s') ∧ Models s' (q.exec o).2 := by
  cases o with
  | add node data => exact ⟨_, rfl, hm.add hq hallowed.1 hallowed.2⟩
  | addTail node data => exact ⟨_, rfl, hm.addTail hq hallowed.1 hallowed.2⟩
  | addBefore nodePos nodeNew data =>
      simp only [Op.Counted] at hcounted
      exact ⟨s, by simp [Op.exec, addBefore, hcounted, Seq.exec], by simpa [Seq.exec, hcounted]⟩
  | addAfter nodePos nodeNew data =>
      simp only [Op.Counted] at hcounted
      exact ⟨s, by simp [Op.exec, addAfter, hcounted, Seq.exec], by simpa [Seq.exec, hcounted]⟩
  | addPos pos node data =>
      by_cases hpos : pos = 0
      · refine ⟨_, by simp [Op.exec, addPos, hpos, Seq.exec]; rfl, ?_⟩
        simpa [Seq.exec, hpos] using hm.add hq hallowed.1 hallowed.2
      · have hend : q.nodes.length ≤ pos := hcounted.resolve_left hpos
        refine ⟨_, by simp [Op.exec, addPos, hpos, hm.size, hend, Seq.exec]; rfl, ?_⟩
        simpa [Seq.exec, Nat.min_eq_right hend] using hm.addTail hq hallowed.1 hallowed.2
  | moveToHead node => exact ⟨_, rfl, hm.moveToHead hq hcounted⟩
  | moveToTail node => exact ⟨_, rfl, hm.moveToTail hq hcounted⟩
  | delete node =>
      refine ⟨_, rfl, ?_⟩
      by_cases hnode : node ∈ q.nodes
      · rw [hm.list.delete_eq hnode]
        exact hm.unlink hq hnode
      · obtain ⟨hprev, hnext⟩ := hallowed.2.resolve_left hnode
        have hhead : s.1.head ≠ some node := fun heq =>
          hnode (mem_of_mem_head? (hm.list.head.symm.trans heq))
        rw [delete_orphan hhead hnext hprev]
        simpa [Seq.exec, erase_of_not_mem hnode] using hm
  | popHead =>
      cases hnodes : q.nodes with
      | nil =>
          have hhead : s.1.head = none := hm.list.head_none.mpr hnodes
          refine ⟨s, by simp [Op.exec, Linked.popHead, Seq.exec, hhead, hnodes], ?_⟩
          simpa [Seq.exec, hnodes] using hnodes ▸ hm
      | cons x xs =>
          have hx : x ∈ q.nodes := by simp [hnodes]
          have hpop := (hnodes ▸ hm.list : IsList s.2 s.1 (x :: xs)).popHead
          refine ⟨_, by simp [Op.exec, hpop, Seq.exec, hnodes, hm.data x hx]; rfl, ?_⟩
          simpa [Seq.exec, hnodes] using hm.unlink hq hx
  | popTail =>
      rcases eq_nil_or_concat q.nodes with hnodes | ⟨xs, x, hnodes⟩
      · have htail : s.1.tail = none := by simp [hm.list.tail, hnodes]
        refine ⟨s, by simp [Op.exec, Linked.popTail, Seq.exec, htail, hnodes], ?_⟩
        simpa [Seq.exec, hnodes] using hnodes ▸ hm
      · rw [concat_eq_append] at hnodes
        have hx : x ∈ q.nodes := by simp [hnodes]
        have hout : x ∉ xs := fun hmem =>
          (nodup_append.mp (hnodes ▸ hm.list.nodup)).2.2 x hmem x (mem_singleton_self x) rfl
        have hpop := (hnodes ▸ hm.list : IsList s.2 s.1 (xs ++ [x])).popTail
        refine ⟨_, by simp [Op.exec, hpop, Seq.exec, hnodes, hm.data x hx]; rfl, ?_⟩
        simpa [Seq.exec, hnodes, erase_append_right _ hout] using hm.unlink hq hx

/-- A call that takes another branch leaves the count as it was, or adds behind
the tail what belongs in front of it. -/
theorem Models.not_exec (hm : Models s q) (hallowed : o.Allowed s q) (hnot : ¬ o.Counted q)
    (hexec : o.exec s = some ((q.exec o).1, s')) : ¬ Models s' (q.exec o).2 := by
  intro hm'
  have hlen := Seq.length_exec_of_not_counted hallowed hnot
  have hcount : s'.1.size ≠ s.1.size := fun heq => by
    have := hm'.size
    rw [heq, hm.size] at this
    omega
  cases o with
  | addBefore nodePos nodeNew data =>
      simp only [Op.Counted] at hnot
      simp only [Op.exec, addBefore, if_neg hnot] at hexec
      cases hexec
      exact hcount rfl
  | addAfter nodePos nodeNew data =>
      simp only [Op.Counted] at hnot
      simp only [Op.exec, addAfter, if_neg hnot] at hexec
      cases hexec
      exact hcount rfl
  | addPos pos node data =>
      simp only [Op.Counted, not_or] at hnot
      obtain ⟨hpos, hmid⟩ := hnot
      have hsize : ¬ pos ≥ s.1.size.toNat := by
        rw [hm.size]
        exact hmid
      simp only [Op.exec, addPos, if_neg hpos, if_neg hsize] at hexec
      split at hexec
      · cases hexec
      · -- the walk met the end of the list first: the node went behind the tail
        cases hexec
        have hsame := (hm.list.addTail hallowed.2 data).unique hm'.list
        have hat := congrArg (·[pos]?) hsame
        simp only [Seq.exec, Nat.min_eq_left (by omega : pos ≤ q.nodes.length)] at hat
        rw [getElem?_append_left (by omega), getElem?_insertIdx_self] at hat
        rw [if_pos (by omega)] at hat
        exact hallowed.2 (mem_of_getElem? hat)
      · cases hexec
        exact hcount rfl
  | moveToHead node =>
      cases hexec
      apply hcount
      simp only [DLinkedList.moveToHead, leave]
      grind
  | moveToTail node =>
      cases hexec
      apply hcount
      simp only [DLinkedList.moveToTail, leave]
      grind
  | add | addTail | delete | popHead | popTail => exact hnot trivial

end Step

section Run

/-- Every call of a run is allowed where it is made. -/
def Allowed : List Op → State → Seq → Prop
  | [], _, _ => True
  | o :: ops, s, q =>
      o.Allowed s q ∧ ∀ r ∈ o.exec s, Allowed ops r.2 (q.exec o).2

/-- A run keeps in step with the sequence: before and after every call the list
models it, and every call ends and returns what it is to return. -/
def Follows : List Op → State → Seq → Prop
  | [], s, q => Models s q
  | o :: ops, s, q =>
      Models s q ∧ ∃ s', o.exec s = some ((q.exec o).1, s') ∧ Follows ops s' (q.exec o).2

def Counted : List Op → Seq → Prop
  | [], _ => True
  | o :: ops, q => o.Counted q ∧ Counted ops (q.exec o).2

instance instDecidableRunCounted : ∀ (ops : List Op) (q : Seq), Decidable (Counted ops q)
  | [], _ => isTrue trivial
  | o :: ops, q =>
      have := instDecidableRunCounted ops (q.exec o).2
      inferInstanceAs (Decidable (_ ∧ _))

instance instDecidableRunAllowed : ∀ (ops : List Op) (s : State) (q : Seq),
    Decidable (Allowed ops s q)
  | [], _, _ => isTrue trivial
  | o :: ops, _, q =>
      have := fun r : Option Nat × State => instDecidableRunAllowed ops r.2 (q.exec o).2
      inferInstanceAs (Decidable (_ ∧ _))

theorem Follows.models {ops : List Op} {s : State} {q : Seq} (hf : Follows ops s q) :
    Models s q := by
  cases ops with
  | nil => exact hf
  | cons => exact hf.1

theorem Models.follows_from {s : State} {q : Seq} (hm : Models s q) (hq : q.Addressed)
    {ops : List Op} (hallowed : Allowed ops s q) : Follows ops s q ↔ Counted ops q := by
  induction ops generalizing s q with
  | nil => exact iff_of_true hm trivial
  | cons o ops ih =>
      by_cases hcounted : o.Counted q
      · obtain ⟨s', hexec, hm'⟩ := hm.exec hq hallowed.1 hcounted
        have hrest := ih hm' (hq.exec hallowed.1) (hallowed.2 _ hexec)
        simp only [Follows, Counted, hm, hcounted, hexec, true_and]
        rw [← hrest]
        simp
      · refine iff_of_false (fun ⟨_, s', hexec, hrest⟩ => ?_) fun h => hcounted h.1
        exact hm.not_exec hallowed.1 hcounted hexec hrest.models

theorem models_empty (h : Heap) (data : Nat → Option Nat) : Models (.empty, h) ⟨[], data⟩ :=
  ⟨isList_empty h, rfl, fun _ hx => absurd hx not_mem_nil⟩

/-- **A run of calls keeps the list in step with the sequence exactly when every
call of it keeps count.** -/
theorem follows_iff (h : Heap) (data : Nat → Option Nat) (ops : List Op)
    (hallowed : Allowed ops (.empty, h) ⟨[], data⟩) :
    Follows ops (.empty, h) ⟨[], data⟩ ↔ Counted ops ⟨[], data⟩ :=
  (models_empty h data).follows_from (fun _ hx => absurd hx not_mem_nil) hallowed

/-- Nodes come in at both ends, move, are refused in the middle and leave. -/
theorem follows_mixed :
    Follows [.add 1 (some 7), .addTail 2 none, .addBefore 1 3 none, .addPos 5 4 (some 9),
      .moveToHead 2, .moveToTail 1, .delete 4, .delete 4, .popTail, .popHead, .popHead]
      (.empty, fun _ => .null) ⟨[], fun _ => none⟩ :=
  (follows_iff (fun _ => .null) (fun _ => none) _ (by decide)).mpr (by decide)

/-- A node put before the only one is linked and not counted. -/
theorem not_follows_addBefore :
    Allowed [.add 1 (some 7), .addBefore 1 2 (some 8)] (.empty, fun _ => .null)
        ⟨[], fun _ => none⟩ ∧
      ¬ Follows [.add 1 (some 7), .addBefore 1 2 (some 8)] (.empty, fun _ => .null)
        ⟨[], fun _ => none⟩ := by
  have hallowed : Allowed [.add 1 (some 7), .addBefore 1 2 (some 8)] (.empty, fun _ => .null)
      ⟨[], fun _ => none⟩ := by decide
  refine ⟨hallowed, fun hf => ?_⟩
  exact absurd (((models_empty _ _).follows_from (fun _ hx => absurd hx not_mem_nil)
    hallowed).mp hf) (by decide)

end Run

end DLinkedList

end BrbData
