import BrbFramework.Lib.Linked
import BrbFramework.Lib.Logs
import BrbFramework.Lib.Machine
import BrbFramework.Lib.Runs
import BrbFramework.Data.MemArena
import BrbFramework.Data.MemSlot

/-!
# Slot pools in memory

A `MemSlotBase` as the source keeps it: a queue of free ids, eight lists whose
nodes are in the metadata of the slots, and the arena that has their memory.
Which list a slot is in is said twice, by the links of its node and by its
`cur_list_id`, and every call goes by one and writes both.

`Refines` ties this pool to `MemSlotBase`, the pool of sequences. Two canaries
guard the metadata. They are sealed with the arithmetic of `int` and checked
with that of `long`, which is why `kept_run` has a bound on the slots that may
be freed.
-/

namespace BrbData

open Handler Linked Machine List Function

/-- A `SlotQueue` that is not mapped: the ids below `index` are free, and the one
at the top is granted next. -/
structure SlotQueue where
  arena : List Nat
  index : Nat
  deriving DecidableEq, Repr

namespace SlotQueue

/-- `SlotQueueInit`. -/
def init (slotCount : Nat) : SlotQueue := ⟨(List.range slotCount).reverse, slotCount⟩

/-- `SlotQueueGrab`. -/
def grab (q : SlotQueue) : Option (Nat × SlotQueue) :=
  match q.index with
  | 0 => none
  | index + 1 => some (q.arena.getD index 0, { q with index := index })

/-- `SlotQueueFree`, or `none` if it writes behind the array. -/
def free (q : SlotQueue) (slot : Nat) : Option SlotQueue :=
  if q.index < q.arena.length then
    some { arena := q.arena.set q.index slot, index := q.index + 1 }
  else none

/-- The free ids, in the order in which they will be granted. -/
def queue (q : SlotQueue) : List Nat := (q.arena.take q.index).reverse

variable {q : SlotQueue}

theorem length_queue (h : q.index ≤ q.arena.length) : q.queue.length = q.index := by
  simp [queue, h]

theorem queue_init (slotCount : Nat) : (init slotCount).queue = List.range slotCount := by
  have hlen : (List.range slotCount).reverse.length ≤ slotCount := by simp
  simp only [queue, init]
  rw [take_of_length_le hlen, reverse_reverse]

theorem grab_of_queue (h : q.index ≤ q.arena.length) {slot : Nat} {rest : List Nat}
    (hq : q.queue = slot :: rest) :
    ∃ q' : SlotQueue, q.grab = some (slot, q') ∧ q'.queue = rest ∧ q'.arena = q.arena ∧
      q'.index + 1 = q.index := by
  have hlen := length_queue h
  rw [hq, length_cons] at hlen
  obtain ⟨index, hindex⟩ : ∃ index, q.index = index + 1 := ⟨rest.length, hlen.symm⟩
  have hin : index < q.arena.length := by omega
  have htop : q.queue = q.arena[index] :: (q.arena.take index).reverse := by
    rw [queue, hindex, take_succ_eq_append_getElem hin, reverse_append]
    rfl
  rw [hq] at htop
  obtain ⟨hslot, hrest⟩ := List.cons.inj htop
  refine ⟨{ q with index := index }, ?_, hrest.symm, rfl, hindex.symm⟩
  rw [hslot, ← getD_eq_getElem q.arena 0 hin]
  simp only [grab, hindex]

theorem grab_of_empty (h : q.index ≤ q.arena.length) (hq : q.queue = []) : q.grab = none := by
  have hindex : q.index = 0 := by
    rw [← length_queue h, hq]
    rfl
  simp [grab, hindex]

theorem free_of_lt (h : q.index < q.arena.length) (slot : Nat) :
    ∃ q' : SlotQueue, q.free slot = some q' ∧ q'.queue = slot :: q.queue ∧
      q'.arena.length = q.arena.length ∧ q'.index = q.index + 1 := by
  refine ⟨_, if_pos h, ?_, length_set, rfl⟩
  have hlen : q.index < (q.arena.set q.index slot).length := by
    rw [length_set]
    exact h
  simp [queue, take_succ_eq_append_getElem hlen, take_set_of_le]

end SlotQueue

namespace MemSlotPool

/-- `MemSlotMetaData`, less the node. -/
structure MetaData where
  canary00 : Int := 0
  slotId : Nat := 0
  curListId : Int := 0
  canary01 : Int := 0
  deriving DecidableEq, Repr

inductive Note
  | granted (slot : Nat)
  | released (slot : Nat)
  deriving DecidableEq, Repr

inductive Fault
  /-- `MemSlotBaseSlotFree` finds a canary that it does not expect. -/
  | canary
  | arena (fault : MemArena.Fault)
  /-- A list that is not one of the eight. -/
  | listId
  /-- More ids are given back than there is room for. -/
  | queue
  deriving DecidableEq, Repr

end MemSlotPool

structure MemSlotPool where
  list : Fin 8 → DList
  slots : SlotQueue
  arena : MemArena
  /-- The node of each slot. -/
  heap : Heap
  metadata : Nat → MemSlotPool.MetaData
  /-- The grants and releases so far, which no function of the source reads. -/
  log : List MemSlotPool.Note

namespace MemSlotPool

abbrev M := EStateM Fault MemSlotPool

/-- `MemSlotBaseInit`, which passes its `long` on as an `int`. -/
def init (slotCount : Nat) : MemSlotPool where
  list := fun _ => .empty
  slots := .init (int32 slotCount).toNat
  arena := .new slotCount 16
  heap := fun _ => .null
  metadata := fun _ => {}
  log := []

/-- `memslot_base->list[list_id]`. -/
def listAt (listId : Int) : M (Fin 8) :=
  if h : 0 ≤ listId ∧ listId < 8 then pure ⟨listId.toNat, by omega⟩ else throw .listId

/-- `MemArenaGrabByID`. A block that was not there comes cleared. -/
def arenaGrabByID (slotId : Nat) : M PUnit := do
  let p ← get
  let cleared (i : Nat) : Bool :=
    i / p.arena.slotCount = slotId / p.arena.slotCount ∧
      (p.arena.data (slotId / p.arena.slotCount)).isNone
  match p.arena.grabByID slotId with
  | .error f => throw (.arena f)
  | .ok arena =>
    set { p with
      arena := arena
      heap := fun i => if cleared i then .null else p.heap i
      metadata := fun i => if cleared i then {} else p.metadata i }

/-- `MemArenaReleaseByID`. -/
def arenaReleaseByID (slotId : Nat) : M PUnit := do
  let p ← get
  match p.arena.releaseByID slotId with
  | .error f => throw (.arena f)
  | .ok arena => set { p with arena := arena }

/-- `SlotQueueFree` of the pool's queue. -/
def queueFree (slotId : Nat) : M PUnit := do
  let p ← get
  match p.slots.free slotId with
  | none => throw .queue
  | some slots => set { p with slots := slots }

/-- `DLinkedListDelete(&memslot_base->list[slot_meta->cur_list_id], &slot_meta->node)`. -/
def listDelete (slot : Nat) : M PUnit := do
  let p ← get
  let k ← listAt (p.metadata slot).curListId
  let (l, heap) := Linked.delete (p.list k) p.heap slot
  set { p with list := Function.update p.list k l, heap := heap }

/-- `DLinkedListAdd(&memslot_base->list[list_id], &slot_meta->node, slot_meta)`. -/
def listAdd (slot : Nat) (listId : Int) : M PUnit := do
  let p ← get
  let k ← listAt listId
  let (l, heap) := Linked.add (p.list k) p.heap slot (some slot)
  set { p with list := Function.update p.list k l, heap := heap }

/-- The same with `DLinkedListAddTail`. -/
def listAddTail (slot : Nat) (listId : Int) : M PUnit := do
  let p ← get
  let k ← listAt listId
  let (l, heap) := Linked.addTail (p.list k) p.heap slot (some slot)
  set { p with list := Function.update p.list k l, heap := heap }

/-- `slot_meta->cur_list_id = list_id`. -/
def setCurListId (slot : Nat) (listId : Int) : M PUnit :=
  modify fun p => { p with
    metadata := Function.update p.metadata slot { p.metadata slot with curListId := listId } }

def note (n : Note) : M PUnit := modify fun p => { p with log := p.log ++ [n] }

/-- The metadata of a slot that was granted and is in list `listId`.
`MEMSLOT_CANARY_SEED` is an `int`, and so is the id at the grab. -/
def sealed (slotId : Nat) (listId : Int) : MetaData where
  canary00 := int32 (0x0B * (slotId + 1))
  slotId := slotId
  curListId := listId
  canary01 := int32 (0x0B + (slotId + 1))

@[simp] theorem sealed_slotId (slotId : Nat) (listId : Int) :
    (sealed slotId listId).slotId = slotId := rfl

/-- The check of `MemSlotBaseSlotFree`, where the id is a `long`. -/
def MetaData.intact (d : MetaData) : Bool :=
  d.canary00 = 0x0B * ((d.slotId : Int) + 1) ∧ d.canary01 = 0x0B + ((d.slotId : Int) + 1)

/-- `MemSlotBaseSlotGrab`. -/
def slotGrab : M (Option Nat) := do
  let p ← get
  match p.slots.grab with
  | none => pure none
  | some (slotId, slots) =>
    set { p with slots := slots }
    arenaGrabByID slotId
    modify fun p => { p with metadata := Function.update p.metadata slotId (sealed slotId 0) }
    listAddTail slotId 0
    note (.granted slotId)
    pure (some slotId)

/-- `MemSlotBaseSlotFree`. -/
def slotFree (slot : Nat) : M PUnit := do
  let p ← get
  let slotMeta := p.metadata slot
  assertThat slotMeta.intact .canary
  queueFree slotMeta.slotId
  listDelete slot
  arenaReleaseByID slotMeta.slotId
  note (.released slot)

/-- `MemSlotBaseSlotListIDSwitch`. -/
def slotListIDSwitch (slotId listId : Int) : M PUnit := do
  if slotId < 0 ∨ listId ≥ 8 then pure ()
  else
    arenaGrabByID slotId.toNat
    listDelete slotId.toNat
    listAdd slotId.toNat listId
    setCurListId slotId.toNat listId

/-- `MemSlotBaseSlotListIDSwitchToTail`. -/
def slotListIDSwitchToTail (slotId listId : Int) : M PUnit := do
  if listId ≥ 8 ∨ slotId < 0 then pure ()
  else
    arenaGrabByID slotId.toNat
    listDelete slotId.toNat
    listAddTail slotId.toNat listId
    setCurListId slotId.toNat listId

/-- `MemSlotBaseSlotPointToHeadAndSwitchListID`. -/
def slotPointToHeadAndSwitchListID (curListId newListId : Int) : M (Option Nat) := do
  let k ← listAt curListId
  let p ← get
  match (p.list k).head with
  | none => pure none
  | some node =>
    match (p.heap node).data with
    | none => pure none
    | some slot =>
      listDelete slot
      listAddTail slot newListId
      setCurListId slot newListId
      pure (some slot)

/-- What `MemSlotBaseSlotPopHead` and `MemSlotBaseSlotPopTail` do with the list
that `pop` leaves. -/
def slotPop (pop : DList → Heap → Option Nat × DList × Heap) (listId : Int) : M (Option Nat) := do
  let k ← listAt listId
  let p ← get
  let (data, l, heap) := pop (p.list k) p.heap
  set { p with list := Function.update p.list k l, heap := heap }
  match data with
  | none => pure none
  | some slot =>
    queueFree (p.metadata slot).slotId
    note (.released slot)
    pure (some slot)

/-- `MemSlotBaseSlotPopHead`. -/
def slotPopHead (listId : Int) : M (Option Nat) := slotPop Linked.popHead listId

/-- `MemSlotBaseSlotPopTail`. -/
def slotPopTail (listId : Int) : M (Option Nat) := slotPop Linked.popTail listId

inductive Op
  | grab
  | free (slot : Nat)
  | switch (slotId listId : Int)
  | switchToTail (slotId listId : Int)
  | pointToHeadAndSwitch (curListId newListId : Int)
  | popHead (listId : Int)
  | popTail (listId : Int)
  deriving DecidableEq, Repr

def handle : Op → M PUnit
  | .grab => do let _ ← slotGrab
  | .free slot => slotFree slot
  | .switch slotId listId => slotListIDSwitch slotId listId
  | .switchToTail slotId listId => slotListIDSwitchToTail slotId listId
  | .pointToHeadAndSwitch cur new => do let _ ← slotPointToHeadAndSwitchListID cur new
  | .popHead listId => do let _ ← slotPopHead listId
  | .popTail listId => do let _ ← slotPopTail listId

/-- `MemSlotBaseSlotListSizeAll`. -/
def slotListSizeAll (p : MemSlotPool) : Nat :=
  ((List.finRange 8).map fun k => (p.list k).size.toNat).sum

/-! ## The pool and the sequences -/

def Note.about (slot : Nat) : Note → Option Bool
  | .granted i => if i = slot then some true else none
  | .released i => if i = slot then some false else none

/-- The slot was granted and has not been released since. -/
def Held (log : List Note) (slot : Nat) : Prop := Logs.lastOf (Note.about slot) log = some true

instance (log : List Note) (slot : Nat) : Decidable (Held log slot) :=
  inferInstanceAs (Decidable (_ = _))

theorem held_granted {log : List Note} {i slot : Nat} :
    Held (log ++ [.granted slot]) i ↔ i = slot ∨ Held log i := by
  by_cases h : slot = i
  · simp [Held, Logs.lastOf, Note.about, h]
  · simp [Held, Logs.lastOf, Note.about, h, Ne.symm h]

theorem held_released {log : List Note} {i slot : Nat} :
    Held (log ++ [.released slot]) i ↔ i ≠ slot ∧ Held log i := by
  by_cases h : slot = i
  · simp [Held, Logs.lastOf, Note.about, h]
  · simp [Held, Logs.lastOf, Note.about, h, Ne.symm h]

/-- The eight lists hold the nodes of the slots `xs`. -/
structure Links (list : Fin 8 → DList) (heap : Heap) (xs : Nat → List Nat) : Prop where
  family : Family heap list fun k : Fin 8 => xs k
  outside : ∀ l, 8 ≤ l → xs l = []
  data : ∀ l, ∀ i ∈ xs l, (heap i).data = some i

namespace Links

variable {list : Fin 8 → DList} {heap heap' : Heap} {xs : Nat → List Nat} {i l : Nat} {k : Fin 8}

theorem lt (h : Links list heap xs) (hi : i ∈ xs l) : l < 8 := by
  by_contra hl
  rw [h.outside l (by omega)] at hi
  cases hi

theorem congr (h : Links list heap xs) (hsame : ∀ l, ∀ i ∈ xs l, heap' i = heap i) :
    Links list heap' xs :=
  ⟨h.family.congr fun k => hsame k, h.outside, fun l i hi => by
    rw [hsame l i hi]
    exact h.data l i hi⟩

theorem update_fin (xs : Nat → List Nat) (k : Fin 8) (ys : List Nat) :
    (fun j : Fin 8 => update xs k ys j) = update (fun j : Fin 8 => xs j) k ys := by
  funext j
  simp [update_apply, Fin.ext_iff]

theorem outside_update (h : Links list heap xs) (k : Fin 8) (ys : List Nat) (l : Nat) (hl : 8 ≤ l) :
    update xs k ys l = [] := by
  rw [update_of_ne (by omega)]
  exact h.outside l hl

theorem delete (h : Links list heap xs) (hi : i ∈ xs k) :
    Links (update list k (Linked.delete (list k) heap i).1)
      (Linked.delete (list k) heap i).2 (update xs k ((xs k).erase i)) where
  family := by
    rw [update_fin]
    exact h.family.delete hi
  outside := h.outside_update k _
  data := fun l j hj => by
    rw [(h.family.isList k).delete_eq hi, unlink_data]
    rw [update_apply] at hj
    split at hj
    · exact h.data k j (mem_of_mem_erase hj)
    · exact h.data l j hj

theorem add (h : Links list heap xs) (hi : ∀ l, i ∉ xs l) (k : Fin 8) :
    Links (update list k (Linked.add (list k) heap i (some i)).1)
      (Linked.add (list k) heap i (some i)).2 (update xs k (i :: xs k)) where
  family := by
    rw [update_fin]
    exact h.family.add (fun k => hi k) k (some i)
  outside := h.outside_update k _
  data := fun l j hj => by
    rw [add_data]
    split
    · rename_i hji
      rw [hji]
    · rename_i hji
      rw [update_apply] at hj
      split at hj
      · exact h.data k j (mem_of_ne_of_mem hji hj)
      · exact h.data l j hj

theorem addTail (h : Links list heap xs) (hi : ∀ l, i ∉ xs l) (k : Fin 8) :
    Links (update list k (Linked.addTail (list k) heap i (some i)).1)
      (Linked.addTail (list k) heap i (some i)).2 (update xs k (xs k ++ [i])) where
  family := by
    rw [update_fin]
    exact h.family.addTail (fun k => hi k) k (some i)
  outside := h.outside_update k _
  data := fun l j hj => by
    rw [addTail_data]
    split
    · rename_i hji
      rw [hji]
    · rename_i hji
      rw [update_apply] at hj
      split at hj
      · exact h.data k j ((mem_append.mp hj).resolve_right fun h => hji (mem_singleton.mp h))
      · exact h.data l j hj

end Links

/-- The pool is the one of the sequences: what it says about free slots and about
the slots of its lists is what they say. -/
structure Refines (n : Nat) (p : MemSlotPool) (m : MemSlotBase PUnit) : Prop where
  wf : m.WF
  full : ∀ i, (i ∈ m.slots ∨ ∃ l, i ∈ m.list l) ↔ i < n
  links : Links p.list p.heap m.list
  arena : p.arena.WF
  live : ∀ l, ∀ i ∈ m.list l, p.metadata i = sealed i l ∧ p.arena.inUse i = true
  room : p.slots.arena.length = n
  index : p.slots.index ≤ n
  queue : p.slots.queue = m.slots
  held : ∀ i, Held p.log i → ∃ l, i ∈ m.list l
  apart : ∀ i, Logs.Separated p.log (.granted i) (.released i)
  settled : ∀ i, (∀ l, i ∉ m.list l) → Logs.Settled p.log (.granted i) (.released i)

theorem refines_init {slotCount : Nat} (h : slotCount < 2 ^ 31) :
    Refines slotCount (init slotCount) (MemSlotBase.init PUnit.unit slotCount) := by
  have hcount : (int32 slotCount).toNat = slotCount := by
    rw [int32_of_lt (by omega) (by omega)]
    rfl
  refine
    { wf := MemSlotBase.wf_init _ _
      full := fun i => by simp [MemSlotBase.init]
      links := ⟨⟨fun k => isList_empty _, fun _ _ _ hx => absurd hx not_mem_nil⟩,
        fun _ _ => rfl, fun _ _ hi => absurd hi not_mem_nil⟩
      arena := MemArena.wf_new _ (by decide)
      live := fun _ _ hi => absurd hi not_mem_nil
      room := by simp [init, SlotQueue.init, hcount]
      index := by simp [init, SlotQueue.init, hcount]
      queue := by simp [init, SlotQueue.queue_init, hcount, MemSlotBase.init]
      held := fun i hi => ?_
      apart := fun _ => Logs.separated_nil
      settled := fun _ _ => Logs.settled_nil }
  simp [Held, init] at hi

section Canary

/-- The slots whose product with the seed fits an `int`. -/
def canaryLimit : Nat := (2 ^ 31 - 1) / 0x0B

variable {slot : Nat} {listId : Int}

theorem intact_sealed (h : slot < canaryLimit) : (sealed slot listId).intact = true := by
  have h' : slot < 195225786 := h
  exact decide_eq_true
    ⟨int32_of_lt (by omega) (by omega), int32_of_lt (by omega) (by omega)⟩

theorem not_intact_sealed (h : canaryLimit ≤ slot) (hslot : slot < 2 ^ 31) :
    (sealed slot listId).intact = false := by
  have h' : 195225786 ≤ slot := h
  refine decide_eq_false fun ⟨heq, _⟩ => ?_
  change int32 (0x0B * ((slot : Int) + 1)) = 0x0B * ((slot : Int) + 1) at heq
  have hlt : int32 (0x0B * ((slot : Int) + 1)) < 2 ^ 31 := by
    unfold int32
    rw [Int.bmod_def]
    omega
  omega

end Canary

section Primitives

variable {p : MemSlotPool} {slot : Nat} {k : Fin 8}

theorem listAt_fin (k : Fin 8) : listAt ((k : Nat) : Int) = pure k := by
  have hk := k.isLt
  simp only [listAt]
  rw [dif_pos ⟨by omega, by omega⟩]
  rfl

theorem arenaGrabByID_ends (ha : p.arena.WF) (slot : Nat) :
    Ends (arenaGrabByID slot) p
      (fun _ p' => ∃ arena heap metadata,
        p' = { p with arena := arena, heap := heap, metadata := metadata } ∧ arena.WF ∧
          (∀ j, arena.inUse j = (decide (j = slot) || p.arena.inUse j)) ∧
          ∀ j, p.arena.inUse j = true → heap j = p.heap j ∧ metadata j = p.metadata j)
      fun _ _ => False := by
  obtain ⟨arena, hgrab, hwf, -, huse⟩ := ha.grabByID slot
  unfold arenaGrabByID
  rw [ends_bind, ends_get]
  simp only [hgrab, ends_set]
  refine ⟨_, _, _, rfl, hwf, huse, fun j hj => ?_⟩
  have hkept : ¬(j / p.arena.slotCount = slot / p.arena.slotCount ∧
      (p.arena.data (slot / p.arena.slotCount)).isNone) := by
    rintro ⟨hblock, hnone⟩
    rw [Option.isNone_iff_eq_none] at hnone
    simp [MemArena.inUse, hblock, hnone] at hj
  simp only [hkept, decide_false, Bool.false_eq_true, if_false, and_self]

theorem arenaReleaseByID_ends (ha : p.arena.WF) (hin : p.arena.inUse slot = true) :
    Ends (arenaReleaseByID slot) p
      (fun _ p' => ∃ arena, p' = { p with arena := arena } ∧ arena.WF ∧
        ∀ j, arena.inUse j = (decide (j ≠ slot) && p.arena.inUse j))
      fun _ _ => False := by
  obtain ⟨arena, hrelease, hwf, -, huse⟩ := ha.releaseByID hin
  unfold arenaReleaseByID
  rw [ends_bind, ends_get]
  simp only [hrelease, ends_set]
  exact ⟨arena, rfl, hwf, huse⟩

theorem queueFree_ends (h : p.slots.index < p.slots.arena.length) (slot : Nat) :
    Ends (queueFree slot) p
      (fun _ p' => ∃ slots : SlotQueue, p' = { p with slots := slots } ∧
        slots.queue = slot :: p.slots.queue ∧ slots.arena.length = p.slots.arena.length ∧
          slots.index = p.slots.index + 1)
      fun _ _ => False := by
  obtain ⟨slots, hfree, hrest⟩ := SlotQueue.free_of_lt h slot
  unfold queueFree
  rw [ends_bind, ends_get]
  simp only [hfree, ends_set]
  exact ⟨slots, rfl, hrest⟩

variable {Q : PUnit → MemSlotPool → Prop} {E : Fault → MemSlotPool → Prop}

theorem ends_listDelete (hk : (p.metadata slot).curListId = (k : Nat)) :
    Ends (listDelete slot) p Q E ↔
      Q ⟨⟩ { p with
        list := update p.list k (Linked.delete (p.list k) p.heap slot).1
        heap := (Linked.delete (p.list k) p.heap slot).2 } := by
  unfold listDelete
  rw [ends_bind, ends_get, hk, listAt_fin, ends_bind, ends_pure, ends_set]

theorem ends_listAdd :
    Ends (listAdd slot (k : Nat)) p Q E ↔
      Q ⟨⟩ { p with
        list := update p.list k (Linked.add (p.list k) p.heap slot (some slot)).1
        heap := (Linked.add (p.list k) p.heap slot (some slot)).2 } := by
  unfold listAdd
  rw [ends_bind, ends_get, listAt_fin, ends_bind, ends_pure, ends_set]

theorem ends_listAddTail :
    Ends (listAddTail slot (k : Nat)) p Q E ↔
      Q ⟨⟩ { p with
        list := update p.list k (Linked.addTail (p.list k) p.heap slot (some slot)).1
        heap := (Linked.addTail (p.list k) p.heap slot (some slot)).2 } := by
  unfold listAddTail
  rw [ends_bind, ends_get, listAt_fin, ends_bind, ends_pure, ends_set]

end Primitives

section Steps

variable {n i l l' : Nat} {p p' : MemSlotPool} {m m' : MemSlotBase PUnit}

namespace Refines

theorem lt (hr : Refines n p m) (hi : i ∈ m.list l) : i < n := (hr.full i).mp (.inr ⟨l, hi⟩)

theorem index_lt (hr : Refines n p m) (hi : i ∈ m.list l) :
    p.slots.index < p.slots.arena.length := by
  have hnodup : (i :: m.slots).Nodup :=
    nodup_cons.mpr ⟨fun hfree => hr.wf.free_unlinked i hfree l hi, hr.wf.free_nodup⟩
  have hsub : i :: m.slots ⊆ List.range n := fun j hj => by
    rw [mem_range, ← hr.full j]
    rcases mem_cons.mp hj with rfl | hj
    · exact .inr ⟨l, hi⟩
    · exact .inl hj
  have hlen := (subperm_of_subset hnodup hsub).length_le
  have hqueue := SlotQueue.length_queue (hr.room.symm ▸ hr.index)
  rw [hr.queue] at hqueue
  rw [length_cons, length_range] at hlen
  rw [hr.room]
  omega

theorem granted (hr : Refines n p m) (hgrab : m.slotGrab = some (i, m'))
    (hlinks : Links p'.list p'.heap m'.list) (harena : p'.arena.WF)
    (huse : ∀ j, j = i ∨ p.arena.inUse j = true → p'.arena.inUse j = true)
    (hself : p'.metadata i = sealed i 0)
    (hmeta : ∀ j, j ≠ i → p.arena.inUse j = true → p'.metadata j = p.metadata j)
    (hroom : p'.slots.arena = p.slots.arena) (hindex : p'.slots.index + 1 = p.slots.index)
    (hqueue : p'.slots.queue = m'.slots) (hlog : p'.log = p.log ++ [.granted i]) :
    Refines n p' m' := by
  have hslots := (MemSlotBase.slotGrab_eq_some hgrab).1
  have hmem : ∀ {k j}, j ∈ m'.list k ↔ (j = i ∧ k = 0) ∨ j ∈ m.list k :=
    MemSlotBase.mem_slotGrab hgrab
  have hlinked : ∀ j, (∃ k, j ∈ m'.list k) ↔ j = i ∨ ∃ k, j ∈ m.list k := fun j => by
    simp [hmem, exists_or]
  refine ⟨hr.wf.slotGrab hgrab, fun j => ?_, hlinks, harena, fun k j hj => ?_, ?_, ?_, hqueue,
    fun j hj => ?_, fun j => ?_, fun j hj => ?_⟩
  · rw [hlinked, ← hr.full j, hslots, mem_cons]
    tauto
  · rcases hmem.mp hj with ⟨rfl, rfl⟩ | hold
    · exact ⟨hself, huse j (.inl rfl)⟩
    · have hne : j ≠ i := fun heq => hr.wf.slotGrab_fresh hgrab k (heq ▸ hold)
      have hlive := hr.live k j hold
      exact ⟨(hmeta j hne hlive.2).trans hlive.1, huse j (.inr hlive.2)⟩
  · rw [hroom]
    exact hr.room
  · exact Nat.le_trans (by omega) hr.index
  · rw [hlog, held_granted] at hj
    exact (hlinked j).mpr (hj.imp_right (hr.held j))
  · rw [hlog]
    refine (hr.apart j).concat fun heq => hr.settled j fun k => ?_
    obtain rfl : i = j := by simpa using heq
    exact hr.wf.slotGrab_fresh hgrab k
  · rw [hlog]
    have hne : i ≠ j := fun heq => hj 0 (hmem.mpr (.inl ⟨heq.symm, rfl⟩))
    exact (hr.settled j fun k hk => hj k (hmem.mpr (.inr hk))).concat (by simpa using hne)

theorem moved (hr : Refines n p m) (hi : i ∈ m.list l) {dst : List Nat}
    (hdst : dst.Perm (i :: update m.list l ((m.list l).erase i) l'))
    (hlinks : Links p'.list p'.heap
      (update (update m.list l ((m.list l).erase i)) l' dst))
    (harena : p'.arena.WF) (huse : ∀ j, p.arena.inUse j = true → p'.arena.inUse j = true)
    (hself : p'.metadata i = sealed i l')
    (hmeta : ∀ j, j ≠ i → p.arena.inUse j = true → p'.metadata j = p.metadata j)
    (hslots : p'.slots = p.slots) (hlog : p'.log = p.log) :
    Refines n p' { m with
      list := update (update m.list l ((m.list l).erase i)) l' dst
      arena := update m.arena i { m.arena i with curListId := l' } } := by
  have hmem := fun k j => hr.wf.mem_move hi hdst (k := k) (i := j)
  have hlinked : ∀ j, (∃ k, j ∈ update (update m.list l ((m.list l).erase i)) l'
      dst k) ↔ ∃ k, j ∈ m.list k := fun j => by
    simp only [hmem]
    by_cases hj : j = i
    · subst hj
      exact iff_of_true ⟨l', .inl ⟨rfl, rfl⟩⟩ ⟨l, hi⟩
    · simp [hj]
  refine ⟨hr.wf.move hi hdst, fun j => ?_, hlinks, harena, fun k j hj => ?_, ?_, ?_, ?_,
    fun j hj => ?_, fun j => ?_, fun j hj => ?_⟩
  · rw [hlinked]
    exact hr.full j
  · rcases (hmem k j).mp hj with ⟨rfl, rfl⟩ | ⟨hne, hold⟩
    · exact ⟨hself, huse j (hr.live l j hi).2⟩
    · have hlive := hr.live k j hold
      exact ⟨(hmeta j hne hlive.2).trans hlive.1, huse j hlive.2⟩
  · rw [hslots]
    exact hr.room
  · rw [hslots]
    exact hr.index
  · rw [hslots]
    exact hr.queue
  · rw [hlog] at hj
    exact (hlinked j).mpr (hr.held j hj)
  · rw [hlog]
    exact hr.apart j
  · rw [hlog]
    exact hr.settled j (not_exists.mp fun h => not_exists.mpr hj ((hlinked j).mpr h))

theorem released (hr : Refines n p m) (hi : i ∈ m.list l)
    (hlinks : Links p'.list p'.heap (update m.list l ((m.list l).erase i)))
    (harena : p'.arena.WF)
    (huse : ∀ j, j ≠ i → p.arena.inUse j = true → p'.arena.inUse j = true)
    (hmeta : p'.metadata = p.metadata) (hqueue : p'.slots.queue = i :: p.slots.queue)
    (hroom : p'.slots.arena.length = p.slots.arena.length)
    (hindex : p'.slots.index = p.slots.index + 1) (hlog : p'.log = p.log ++ [.released i]) :
    Refines n p' (m.slotFree i) := by
  have hmem : ∀ {k j}, j ∈ (m.slotFree i).list k ↔ j ≠ i ∧ j ∈ m.list k := hr.wf.mem_slotFree hi
  have hlinked : ∀ j, (∃ k, j ∈ (m.slotFree i).list k) ↔ j ≠ i ∧ ∃ k, j ∈ m.list k := fun j => by
    simp [hmem]
  have hslots := hr.wf.slotFree_slots hi
  refine ⟨hr.wf.slotFree hi, fun j => ?_, ?_, harena, fun k j hj => ?_, ?_, ?_, ?_, fun j hj => ?_,
    fun j => ?_, fun j hj => ?_⟩
  · rw [hlinked, hslots, mem_cons, ← hr.full j]
    by_cases hj : j = i
    · subst hj
      exact iff_of_true (.inl (.inl rfl)) (.inr ⟨l, hi⟩)
    · simp [hj]
  · rw [hr.wf.slotFree_list hi]
    exact hlinks
  · obtain ⟨hne, hold⟩ := hmem.mp hj
    have hlive := hr.live k j hold
    rw [hmeta]
    exact ⟨hlive.1, huse j hne hlive.2⟩
  · rw [hroom]
    exact hr.room
  · have := hr.index_lt hi
    rw [hindex]
    rw [hr.room] at this
    exact this
  · rw [hqueue, hslots, hr.queue]
  · rw [hlog, held_released] at hj
    exact (hlinked j).mpr ⟨hj.1, hr.held j hj.2⟩
  · rw [hlog]
    exact (hr.apart j).concat fun heq => by simp at heq
  · rw [hlog]
    by_cases hji : j = i
    · subst hji
      exact Logs.settled_concat (by simp)
    · exact (hr.settled j fun k hk => hj k (hmem.mpr ⟨hji, hk⟩)).concat (by simp)

theorem curListId (hr : Refines n p m) (hi : i ∈ m.list l) :
    (p.metadata i).curListId = ((⟨l, hr.links.lt hi⟩ : Fin 8) : Nat) := by
  rw [(hr.live l i hi).1]
  rfl

theorem delete_out (hr : Refines n p m) (hi : i ∈ m.list l) (k : Nat) :
    i ∉ update m.list l ((m.list l).erase i) k :=
  hr.wf.unlink_out hi k

theorem slotGrab_none (hr : Refines n p m) (hslots : m.slots = []) :
    Ends slotGrab p (fun r p' => r = none ∧ p' = p) fun _ _ => False := by
  have hgrab := SlotQueue.grab_of_empty (hr.room.symm ▸ hr.index) (hr.queue.trans hslots)
  unfold slotGrab
  rw [ends_bind, ends_get]
  simp only [hgrab, ends_pure, and_self]

theorem slotGrab_some (hr : Refines n p m) (hgrab : m.slotGrab = some (i, m')) :
    Ends slotGrab p
      (fun r p' => r = some i ∧ Refines n p' m' ∧ p'.log = p.log ++ [.granted i])
      fun _ _ => False := by
  have hslots := (MemSlotBase.slotGrab_eq_some hgrab).1
  obtain ⟨slots, hq, hqueue, hroom, hindex⟩ :=
    SlotQueue.grab_of_queue (hr.room.symm ▸ hr.index) (hr.queue.trans hslots)
  unfold slotGrab
  rw [ends_bind, ends_get]
  simp only [hq, ends_bind, ends_set]
  refine (@arenaGrabByID_ends { p with slots := slots } hr.arena i).imp fun _ p₁ h => ?_
  obtain ⟨arena, heap, metadata, rfl, hwf, huse, hsame⟩ := h
  have hlinks : Links p.list heap m.list :=
    hr.links.congr fun k j hj => (hsame j (hr.live k j hj).2).1
  rw [ends_modify, show (0 : Int) = ((0 : Fin 8) : Nat) from rfl, ends_listAddTail, note,
    ends_modify, ends_pure]
  have hadd := hlinks.addTail (hr.wf.slotGrab_fresh hgrab) 0
  rw [Fin.val_zero, ← (MemSlotBase.slotGrab_eq_some hgrab).2.1] at hadd
  refine ⟨rfl, hr.granted hgrab hadd hwf (fun j hj => ?_) ?_ (fun j hne hj => ?_) hroom hindex
    hqueue rfl, rfl⟩
  · rw [huse]
    simpa using hj
  · simp
  · simpa [update_of_ne hne] using (hsame j hj).2

/-- The three calls that move a slot: it is taken out of its list, put into list
`l'` and its metadata says so. -/
theorem move_ends (hr : Refines n p m) (hi : i ∈ m.list l) (k : Fin 8) {relink : M PUnit}
    {dst : List Nat}
    (hdst : dst.Perm (i :: update m.list l ((m.list l).erase i) k))
    (hrelink : ∀ {q : MemSlotPool} {Q : PUnit → MemSlotPool → Prop} {E : Fault → MemSlotPool → Prop},
      Links q.list q.heap (update m.list l ((m.list l).erase i)) →
      (∀ list heap,
        Links list heap (update (update m.list l ((m.list l).erase i)) k dst) →
          Q ⟨⟩ { q with list := list, heap := heap }) → Ends relink q Q E)
    {heap : Heap} {arena : MemArena} {metadata : Nat → MetaData} (harena : arena.WF)
    (huse : ∀ j, p.arena.inUse j = true → arena.inUse j = true)
    (hsame : ∀ j, p.arena.inUse j = true → heap j = p.heap j ∧ metadata j = p.metadata j) :
    Ends (do listDelete i; relink; setCurListId i (k : Nat))
      { p with arena := arena, heap := heap, metadata := metadata }
      (fun _ p' => ∃ m', Refines n p' m') fun _ _ => False := by
  have hlinks : Links p.list heap m.list :=
    hr.links.congr fun k j hj => (hsame j (hr.live k j hj).2).1
  have hself := (hsame i (hr.live l i hi).2).2
  have hcur : (metadata i).curListId = ((⟨l, hr.links.lt hi⟩ : Fin 8) : Nat) := by
    rw [hself]
    exact hr.curListId hi
  rw [ends_bind, ends_listDelete hcur, ends_bind]
  refine hrelink (hlinks.delete hi) fun list heap hmoved => ?_
  rw [setCurListId, ends_modify]
  refine ⟨_, hr.moved hi hdst hmoved harena huse ?_ (fun j hne hj => ?_) rfl rfl⟩
  · simp [hself, (hr.live l i hi).1, sealed]
  · simpa [update_of_ne hne] using (hsame j hj).2

theorem add_relinks (hr : Refines n p m) (hi : i ∈ m.list l) (k : Fin 8) {q : MemSlotPool}
    {Q : PUnit → MemSlotPool → Prop} {E : Fault → MemSlotPool → Prop}
    (hq : Links q.list q.heap (update m.list l ((m.list l).erase i)))
    (hQ : ∀ list heap, Links list heap
      (update (update m.list l ((m.list l).erase i)) k
        (i :: update m.list l ((m.list l).erase i) k)) →
          Q ⟨⟩ { q with list := list, heap := heap }) : Ends (listAdd i (k : Nat)) q Q E :=
  ends_listAdd.mpr (hQ _ _ (hq.add (hr.delete_out hi) k))

theorem addTail_relinks (hr : Refines n p m) (hi : i ∈ m.list l) (k : Fin 8) {q : MemSlotPool}
    {Q : PUnit → MemSlotPool → Prop} {E : Fault → MemSlotPool → Prop}
    (hq : Links q.list q.heap (update m.list l ((m.list l).erase i)))
    (hQ : ∀ list heap, Links list heap
      (update (update m.list l ((m.list l).erase i)) k
        (update m.list l ((m.list l).erase i) k ++ [i])) →
          Q ⟨⟩ { q with list := list, heap := heap }) : Ends (listAddTail i (k : Nat)) q Q E :=
  ends_listAddTail.mpr (hQ _ _ (hq.addTail (hr.delete_out hi) k))

theorem slotListIDSwitch_ends (hr : Refines n p m) {slotId listId : Int}
    (h : slotId < 0 ∨ 8 ≤ listId ∨ (Held p.log slotId.toNat ∧ 0 ≤ listId)) :
    Ends (slotListIDSwitch slotId listId) p (fun _ p' => ∃ m', Refines n p' m')
      fun _ _ => False := by
  unfold slotListIDSwitch
  split
  · exact ⟨m, hr⟩
  · obtain ⟨hheld, hlist⟩ : Held p.log slotId.toNat ∧ 0 ≤ listId :=
      (h.resolve_left (by omega)).resolve_left (by omega)
    obtain ⟨l, hi⟩ := hr.held _ hheld
    obtain ⟨k, rfl⟩ : ∃ k : Fin 8, listId = (k : Nat) :=
      ⟨⟨listId.toNat, by omega⟩, by simp [hlist]⟩
    rw [ends_bind]
    refine (arenaGrabByID_ends hr.arena _).imp fun _ p₁ h => ?_
    obtain ⟨arena, heap, metadata, rfl, hwf, huse, hsame⟩ := h
    exact hr.move_ends hi k (.refl _) (hr.add_relinks hi k) hwf (fun j hj => by simp [huse, hj]) hsame

theorem slotListIDSwitchToTail_ends (hr : Refines n p m) {slotId listId : Int}
    (h : slotId < 0 ∨ 8 ≤ listId ∨ (Held p.log slotId.toNat ∧ 0 ≤ listId)) :
    Ends (slotListIDSwitchToTail slotId listId) p (fun _ p' => ∃ m', Refines n p' m')
      fun _ _ => False := by
  unfold slotListIDSwitchToTail
  split
  · exact ⟨m, hr⟩
  · obtain ⟨hheld, hlist⟩ : Held p.log slotId.toNat ∧ 0 ≤ listId :=
      (h.resolve_left (by omega)).resolve_left (by omega)
    obtain ⟨l, hi⟩ := hr.held _ hheld
    obtain ⟨k, rfl⟩ : ∃ k : Fin 8, listId = (k : Nat) :=
      ⟨⟨listId.toNat, by omega⟩, by simp [hlist]⟩
    rw [ends_bind]
    refine (arenaGrabByID_ends hr.arena _).imp fun _ p₁ h => ?_
    obtain ⟨arena, heap, metadata, rfl, hwf, huse, hsame⟩ := h
    exact hr.move_ends hi k (perm_append_singleton _ _) (hr.addTail_relinks hi k) hwf
      (fun j hj => by simp [huse, hj]) hsame

theorem slotPointToHeadAndSwitchListID_ends (hr : Refines n p m) (k k' : Fin 8) :
    Ends (slotPointToHeadAndSwitchListID (k : Nat) (k' : Nat)) p
      (fun _ p' => ∃ m', Refines n p' m') fun _ _ => False := by
  unfold slotPointToHeadAndSwitchListID
  rw [listAt_fin, ends_bind, ends_pure, ends_bind, ends_get]
  have hlist := hr.links.family.isList k
  cases hl : m.list k with
  | nil =>
      simp only [hlist.head_none.mpr hl, ends_pure]
      exact ⟨m, hr⟩
  | cons i rest =>
      have hi : i ∈ m.list k := by simp [hl]
      have hhead : (p.list k).head = some i := by rw [hlist.head, hl]; rfl
      simp only [hhead, hr.links.data k i hi]
      have hmove := hr.move_ends hi k' (perm_append_singleton _ _) (hr.addTail_relinks hi k')
        hr.arena (fun _ h => h) fun j _ => ⟨rfl, rfl⟩
      simpa only [ends_bind, ends_pure] using hmove

theorem slotPop_some (hr : Refines n p m) (k : Fin 8)
    {pop : DList → Heap → Option Nat × DList × Heap} (hi : i ∈ m.list k)
    (hpop : pop (p.list k) p.heap = ((p.heap i).data, Linked.unlink (p.list k) p.heap i)) :
    Ends (slotPop pop (k : Nat)) p (fun r p' => r = some i ∧ Refines n p' (m.slotFree i))
      fun _ _ => False := by
  unfold slotPop
  rw [listAt_fin, ends_bind, ends_pure, ends_bind, ends_get]
  have hid : (p.metadata i).slotId = i := by rw [(hr.live k i hi).1]; rfl
  have hlinks := hr.links.delete hi
  rw [(hr.links.family.isList k).delete_eq hi] at hlinks
  simp only [hpop, hr.links.data k i hi, ends_bind, ends_set, hid]
  refine (queueFree_ends (by exact hr.index_lt hi) i).imp fun _ p₁ h => ?_
  obtain ⟨slots, rfl, hqueue, hroom, hindex⟩ := h
  rw [note, ends_modify, ends_pure]
  exact ⟨rfl, hr.released hi hlinks hr.arena (fun _ _ h => h) rfl hqueue hroom hindex rfl⟩

theorem slotPop_ends (hr : Refines n p m) (k : Fin 8) {pop : DList → Heap → Option Nat × DList × Heap}
    (hnone : m.list k = [] → pop (p.list k) p.heap = (none, p.list k, p.heap))
    (hsome : m.list k ≠ [] → ∃ i ∈ m.list k,
      pop (p.list k) p.heap = ((p.heap i).data, Linked.unlink (p.list k) p.heap i)) :
    Ends (slotPop pop (k : Nat)) p (fun _ p' => ∃ m', Refines n p' m') fun _ _ => False := by
  by_cases hl : m.list k = []
  · unfold slotPop
    rw [listAt_fin, ends_bind, ends_pure, ends_bind, ends_get]
    simp only [hnone hl, ends_bind, ends_set, ends_pure, update_eq_self]
    exact ⟨m, hr⟩
  · obtain ⟨i, hi, hpop⟩ := hsome hl
    exact (hr.slotPop_some k hi hpop).imp fun _ _ h => ⟨_, h.2⟩

theorem slotPopHead_ends (hr : Refines n p m) (k : Fin 8) :
    Ends (slotPopHead (k : Nat)) p (fun _ p' => ∃ m', Refines n p' m') fun _ _ => False := by
  have hlist := hr.links.family.isList k
  refine hr.slotPop_ends k (fun hl => ?_) fun hl => ?_
  · simp [Linked.popHead, hlist.head_none.mpr hl]
  · obtain ⟨i, rest, hl⟩ := exists_cons_of_ne_nil hl
    exact ⟨i, by simp [hl], (hl ▸ hlist).popHead⟩

theorem slotPopHead_some (hr : Refines n p m) (k : Fin 8) {rest : List Nat}
    (hl : m.list k = i :: rest) :
    Ends (slotPopHead (k : Nat)) p (fun r p' => r = some i ∧ Refines n p' (m.slotFree i))
      fun _ _ => False :=
  hr.slotPop_some k (by simp [hl]) (hl ▸ hr.links.family.isList k).popHead

theorem slotPopTail_ends (hr : Refines n p m) (k : Fin 8) :
    Ends (slotPopTail (k : Nat)) p (fun _ p' => ∃ m', Refines n p' m') fun _ _ => False := by
  have hlist := hr.links.family.isList k
  refine hr.slotPop_ends k (fun hl => ?_) fun hl => ?_
  · simp [Linked.popTail, hlist.tail, hl]
  · obtain ⟨front, i, hl⟩ := (eq_nil_or_concat (m.list k)).resolve_left hl
    rw [concat_eq_append] at hl
    exact ⟨i, by simp [hl], (hl ▸ hlist).popTail⟩

theorem slotFree_ends (hr : Refines n p m) (hheld : Held p.log i) (hfit : i < canaryLimit) :
    Ends (slotFree i) p (fun _ p' => ∃ m', Refines n p' m') fun _ _ => False := by
  obtain ⟨l, hi⟩ := hr.held i hheld
  obtain ⟨hmeta, hin⟩ := hr.live l i hi
  unfold slotFree
  rw [ends_bind, ends_get]
  dsimp only
  rw [ends_bind, hmeta, intact_sealed hfit, ends_assertThat]
  refine ⟨fun _ => ?_, nofun⟩
  rw [ends_bind]
  refine (queueFree_ends (hr.index_lt hi) i).imp fun _ p₁ h => ?_
  obtain ⟨slots, rfl, hqueue, hroom, hindex⟩ := h
  rw [ends_bind]
  refine (ends_listDelete (by exact hr.curListId hi)).mpr ?_
  rw [ends_bind]
  refine (arenaReleaseByID_ends (by exact hr.arena) (by exact hin)).imp fun _ p₂ h => ?_
  obtain ⟨arena, rfl, hwf, huse⟩ := h
  rw [note, ends_modify]
  exact ⟨_, hr.released hi (hr.links.delete hi) hwf (fun j hne hj => by simp [huse, hne, hj]) rfl
    hqueue hroom hindex rfl⟩

theorem slotFree_aborts (hr : Refines n p m) (hheld : Held p.log i) (hover : canaryLimit ≤ i)
    (hn : n ≤ 2 ^ 31) :
    Ends (slotFree i) p (fun _ _ => False) fun f _ => f = .canary := by
  obtain ⟨l, hi⟩ := hr.held i hheld
  have hlt := hr.lt hi
  unfold slotFree
  rw [ends_bind, ends_get]
  dsimp only
  rw [ends_bind, (hr.live l i hi).1, not_intact_sealed hover (by omega), ends_assertThat]
  exact ⟨nofun, fun _ => rfl⟩

end Refines

end Steps

/-! ## Runs -/

def IsListId (listId : Int) : Prop := 0 ≤ listId ∧ listId < 8

instance (listId : Int) : Decidable (IsListId listId) := inferInstanceAs (Decidable (_ ∧ _))

/-- What callers promise: the slots they pass are held and the lists are of the
pool. A switch is also refused for a negative slot or a list behind the last. -/
def Op.Given (p : MemSlotPool) : Op → Prop
  | .grab => True
  | .free slot => Held p.log slot
  | .switch slotId listId | .switchToTail slotId listId =>
      slotId < 0 ∨ 8 ≤ listId ∨ (Held p.log slotId.toNat ∧ 0 ≤ listId)
  | .pointToHeadAndSwitch curListId newListId => IsListId curListId ∧ IsListId newListId
  | .popHead listId | .popTail listId => IsListId listId

instance (p : MemSlotPool) (o : Op) : Decidable (o.Given p) := by
  cases o <;> unfold Op.Given <;> infer_instance

/-- What the pool relies on: a slot that is freed has canaries that fit an `int`. -/
def Op.Fits (p : MemSlotPool) : Op → Prop
  | .free slot => Held p.log slot ∧ slot < canaryLimit
  | o => o.Given p

instance (p : MemSlotPool) (o : Op) : Decidable (o.Fits p) := by
  cases o <;> unfold Op.Fits <;> infer_instance

/-- The state the pool is to be in: `xs` are the slots of its lists. -/
structure Kept (n : Nat) (p : MemSlotPool) (xs : Fin 8 → List Nat) : Prop where
  lists : ∀ k, IsList p.heap (p.list k) (xs k)
  nodes : ∀ k, ∀ i ∈ xs k, (p.heap i).data = some i ∧ (p.metadata i).curListId = (k : Nat)
  free_nodup : p.slots.queue.Nodup
  bounded : ∀ i, (i ∈ p.slots.queue ∨ ∃ k, i ∈ xs k) → i < n
  once : ∀ i < n, (i ∈ p.slots.queue ∧ ∀ k, i ∉ xs k) ∨ (i ∉ p.slots.queue ∧ ∃! k, i ∈ xs k)
  sizes : p.slotListSizeAll + p.slots.index = n
  apart : ∀ i, Logs.Separated p.log (.granted i) (.released i)

section Run

variable {n : Nat} {p : MemSlotPool} {m : MemSlotBase PUnit}

namespace Refines

theorem perm_range (hr : Refines n p m) :
    (m.slots ++ (List.finRange 8).flatMap fun k : Fin 8 => m.list k).Perm (List.range n) := by
  have hlists : ((List.finRange 8).flatMap fun k : Fin 8 => m.list k).Nodup := by
    rw [nodup_flatMap]
    refine ⟨fun k _ => hr.wf.list_nodup k, (nodup_finRange 8).imp fun hne x hx hx' => ?_⟩
    exact hne (Fin.ext (hr.wf.list_unique hx hx'))
  refine (perm_ext_iff_of_nodup (hr.wf.free_nodup.append hlists fun i hi hi' => ?_)
    nodup_range).mpr fun i => ?_
  · obtain ⟨k, -, hk⟩ := mem_flatMap.mp hi'
    exact hr.wf.free_unlinked i hi k hk
  · rw [mem_append, mem_range, ← hr.full i]
    refine or_congr_right ⟨fun h => ?_, fun ⟨l, hl⟩ => ?_⟩
    · obtain ⟨k, -, hk⟩ := mem_flatMap.mp h
      exact ⟨k, hk⟩
    · exact mem_flatMap.mpr ⟨⟨l, hr.links.lt hl⟩, mem_finRange _, hl⟩

theorem size_eq (hr : Refines n p m) (hn : n < 2 ^ 64) (k : Fin 8) :
    (p.list k).size.toNat = (m.list k).length := by
  have hsub : m.list k ⊆ List.range n := fun i hi => mem_range.mpr (hr.lt hi)
  have hlen := (subperm_of_subset (hr.wf.list_nodup k) hsub).length_le
  rw [length_range] at hlen
  rw [(hr.links.family.isList k).size, UInt64.toNat_ofNat']
  exact Nat.mod_eq_of_lt (by omega)

theorem kept (hr : Refines n p m) (hn : n < 2 ^ 64) : Kept n p fun k => m.list k where
  lists := hr.links.family.isList
  nodes k i hi := ⟨hr.links.data k i hi, by rw [(hr.live k i hi).1]; rfl⟩
  free_nodup := hr.queue.symm ▸ hr.wf.free_nodup
  bounded i hi := by
    rw [hr.queue] at hi
    exact (hr.full i).mp (hi.imp_right fun ⟨k, hk⟩ => ⟨k, hk⟩)
  once i hi := by
    rw [hr.queue]
    rcases (hr.full i).mpr hi with hfree | ⟨l, hl⟩
    · exact .inl ⟨hfree, fun k => hr.wf.free_unlinked i hfree k⟩
    · refine .inr ⟨fun hfree => hr.wf.free_unlinked i hfree l hl, ⟨l, hr.links.lt hl⟩, hl,
        fun k hk => ?_⟩
      exact Fin.ext (hr.wf.list_unique hk hl)
  sizes := by
    have hlen := hr.perm_range.length_eq
    rw [length_append, length_flatMap, length_range] at hlen
    have hqueue := SlotQueue.length_queue (hr.room.symm ▸ hr.index)
    rw [hr.queue] at hqueue
    simp only [slotListSizeAll, hr.size_eq hn]
    omega
  apart := hr.apart

theorem handle_ends (hr : Refines n p m) {o : Op} (ho : o.Fits p) :
    Ends (handle o) p (fun _ p' => ∃ m', Refines n p' m') fun _ _ => False := by
  have hid : ∀ {listId : Int}, IsListId listId → ∃ k : Fin 8, listId = (k : Nat) := fun {listId} h =>
    ⟨⟨listId.toNat, by have := h.2; omega⟩, by have := h.1; simp [this]⟩
  cases o with
  | grab =>
      simp only [handle, ends_bind, ends_pure]
      cases hgrab : m.slotGrab with
      | none =>
          have hslots : m.slots = [] := by
            unfold MemSlotBase.slotGrab at hgrab
            split at hgrab
            · assumption
            · cases hgrab
          exact (hr.slotGrab_none hslots).imp fun _ _ h => ⟨m, h.2 ▸ hr⟩
      | some r => exact (hr.slotGrab_some hgrab).imp fun _ _ h => ⟨r.2, h.2.1⟩
  | free slot => exact hr.slotFree_ends ho.1 ho.2
  | switch slotId listId => exact hr.slotListIDSwitch_ends ho
  | switchToTail slotId listId => exact hr.slotListIDSwitchToTail_ends ho
  | pointToHeadAndSwitch cur new =>
      obtain ⟨k, rfl⟩ := hid ho.1
      obtain ⟨k', rfl⟩ := hid ho.2
      simpa only [handle, ends_bind, ends_pure] using hr.slotPointToHeadAndSwitchListID_ends k k'
  | popHead listId =>
      obtain ⟨k, rfl⟩ := hid ho
      simpa only [handle, ends_bind, ends_pure] using hr.slotPopHead_ends k
  | popTail listId =>
      obtain ⟨k, rfl⟩ := hid ho
      simpa only [handle, ends_bind, ends_pure] using hr.slotPopTail_ends k

end Refines

/-- **A pool is in order after every run of calls that it can rely on, and none
of its assertions fails.** -/
theorem kept_run {slotCount : Nat} (hcount : slotCount < 2 ^ 31) (ops : List Op)
    (hfits : Runs.Meets handle (fun p o => o.Fits p) (.live (init slotCount)) ops) :
    (Runs.run handle (.live (init slotCount)) ops).fault = none ∧
      ∃ xs, Kept slotCount (Runs.run handle (.live (init slotCount)) ops).state xs := by
  have hholds := Runs.invariant_run_of (I := fun p => ∃ m, Refines slotCount p m)
    (A := fun _ _ => False) (fun o p ⟨m, hr⟩ ho => hr.handle_ends ho)
    (c := .live (init slotCount)) ⟨_, refines_init hcount⟩ ops hfits
  obtain ⟨hfault, m, hr⟩ := hholds.safe
  exact ⟨hfault, _, hr.kept (by omega)⟩

/-- Three slots are granted, moved, popped, granted again and freed. -/
theorem kept_three :
    (Runs.run handle (.live (init 3)) [.grab, .grab, .switch 1 2, .popTail 0, .grab, .grab,
        .pointToHeadAndSwitch 2 7, .switchToTail 0 8, .free 1, .popHead 0]).fault = none ∧
      ∃ xs, Kept 3 (Runs.run handle (.live (init 3)) [.grab, .grab, .switch 1 2, .popTail 0, .grab,
        .grab, .pointToHeadAndSwitch 2 7, .switchToTail 0 8, .free 1, .popHead 0]).state xs :=
  kept_run (by decide) _ (by decide +kernel)

theorem run_grabs (hn : n < 2 ^ 31) {k : Nat} (hk : k ≤ n) :
    Runs.Holds (fun p => ∃ m, Refines n p m ∧ m.slots = List.range' k (n - k) ∧
      ∀ i < k, Held p.log i) (fun _ _ => False)
      (Runs.run handle (.live (init n)) (List.replicate k .grab)) := by
  induction k with
  | zero => exact ⟨_, refines_init hn, range_eq_range', (by simp)⟩
  | succ k ih =>
      rw [replicate_succ', Runs.run_append]
      refine Runs.holds_step_of (ih (by omega)) Op.grab fun _ hp => ?_
      obtain ⟨m, hr, hslots, hheld⟩ := hp
      have hcons : m.slots = k :: List.range' (k + 1) (n - (k + 1)) := by
        rw [hslots, show n - k = n - (k + 1) + 1 by omega, range'_succ]
      obtain ⟨m', hgrab⟩ : ∃ m', m.slotGrab = some (k, m') :=
        ⟨_, by simp only [MemSlotBase.slotGrab, hcons]; rfl⟩
      have hslots' := (MemSlotBase.slotGrab_eq_some hgrab).1
      simp only [handle, ends_bind, ends_pure]
      refine (hr.slotGrab_some hgrab).imp fun _ p' hp' => ?_
      obtain ⟨_, hr', hlog⟩ := hp'
      refine ⟨m', hr', ?_, ?_⟩
      · rw [hcons] at hslots'
        exact (List.cons.inj hslots').2.symm
      · intro i hi
        rw [hlog, held_granted]
        exact (Nat.lt_succ_iff_lt_or_eq.mp hi).symm.imp_right (hheld i)

theorem meets_grabs (c : Runs.Config Fault MemSlotPool) (k : Nat) {o : Op}
    (ho : (Runs.run handle c (List.replicate k .grab)).fault.isNone = true →
      o.Given (Runs.run handle c (List.replicate k .grab)).state) :
    Runs.Meets handle (fun p o => o.Given p) c (List.replicate k .grab ++ [o]) := by
  induction k generalizing c with
  | zero => exact ⟨ho, trivial⟩
  | succ k ih => exact ⟨fun _ => trivial, ih _ ho⟩

/-- In a pool with more slots than the canaries allow for, each of those can be
granted and then not be freed. -/
theorem free_aborts {i : Nat} (hover : canaryLimit ≤ i) (hi : i < n) (hn : n < 2 ^ 31) :
    Runs.Meets handle (fun p o => o.Given p) (.live (init n))
        (List.replicate (i + 1) .grab ++ [.free i]) ∧
      (Runs.run handle (.live (init n)) (List.replicate (i + 1) .grab ++ [.free i])).fault =
        some .canary := by
  obtain ⟨hfault, m, hr, -, hheld⟩ := (run_grabs hn (k := i + 1) hi).safe
  have hlast := hheld i (Nat.lt_succ_self i)
  refine ⟨meets_grabs _ _ fun _ => hlast, ?_⟩
  have hends := exec_of_ends (hr.slotFree_aborts hlast hover (by omega))
  rw [Runs.run_append, Runs.run_cons, Runs.run_nil, Runs.step, hfault]
  rcases hends with ⟨-, _, hf⟩ | ⟨f, hf, rfl⟩
  · exact hf.elim
  · exact hf

/-- The last slot of the smallest of those pools. -/
theorem not_kept_canary :
    Runs.Meets handle (fun p o => o.Given p) (.live (init 195225787))
        (List.replicate 195225787 .grab ++ [.free 195225786]) ∧
      (Runs.run handle (.live (init 195225787))
        (List.replicate 195225787 .grab ++ [.free 195225786])).fault = some .canary :=
  free_aborts (Nat.le_refl 195225786) (by decide) (by decide)

end Run

end MemSlotPool

end BrbData
