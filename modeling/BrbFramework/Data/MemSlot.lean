import Mathlib.Algebra.GroupWithZero.Nat
import Mathlib.Logic.Function.Basic
import Mathlib.Data.List.Nodup

/-!
# Slot pools: `MemSlotBase`

A `MemSlotBase` hands out numbered slots from a stack of free ids and links
every handed-out slot into one of eight lists. The free ids are kept as the
list in which they will be granted; a linked list is the sequence of its slot
ids from head to tail; the arena gives the metadata and the payload of a slot.

A request pointer of the source is the id of its slot here. A slot's own
`curListId` says which list it is to be deleted from, so `WF` is what makes
deletion act on the list that holds the slot.
-/

namespace BrbData

open List Function

variable {α : Type}

/-- `MemSlotMetaData` with the payload that lies behind it. -/
structure MemSlotMetaData (α : Type) where
  slotId : Nat
  curListId : Nat
  data : α

structure MemSlotBase (α : Type) where
  list : Nat → List Nat
  slots : List Nat
  arena : Nat → MemSlotMetaData α

namespace MemSlotBase

/-- `MEMSLOT_DEFAULT_LIST_COUNT`. -/
def defaultListCount : Nat := 8

/-- `MemSlotBaseInit`: all ids free, the lowest is granted first. -/
def init (zero : α) (slotCount : Nat) : MemSlotBase α where
  list := fun _ => []
  slots := List.range slotCount
  arena := fun _ => ⟨0, 0, zero⟩

def isEmptyList (m : MemSlotBase α) (listId : Nat) : Bool :=
  (m.list listId).isEmpty

def slotPointToHead (m : MemSlotBase α) (listId : Nat) : Option Nat :=
  (m.list listId).head?

def slotListIDSize (m : MemSlotBase α) (listId : Nat) : Nat :=
  if listId ≥ defaultListCount then 0 else (m.list listId).length

def slotListSizeAll (m : MemSlotBase α) : Nat :=
  ((List.range defaultListCount).map m.slotListIDSize).sum

def slotData (m : MemSlotBase α) (slot : Nat) : α := (m.arena slot).data

/-- `MemSlotBaseSlotGetID`: the id the slot was granted under. -/
def slotGetID (m : MemSlotBase α) (slot : Nat) : Nat := (m.arena slot).slotId

def modifyData (m : MemSlotBase α) (slot : Nat) (f : α → α) : MemSlotBase α :=
  { m with
    arena := Function.update m.arena slot
      { m.arena slot with data := f (m.arena slot).data } }

/-- `MemSlotBaseSlotGrab`: the next free slot joins the tail of list zero. -/
def slotGrab (m : MemSlotBase α) : Option (Nat × MemSlotBase α) :=
  match m.slots with
  | [] => none
  | slot :: rest =>
      some (slot,
        { list := Function.update m.list 0 (m.list 0 ++ [slot])
          slots := rest
          arena := Function.update m.arena slot
            { m.arena slot with slotId := slot, curListId := 0 } })

/-- `MemSlotBaseSlotListIDSwitch`: the slot leaves its list for the head of
list `listId`. -/
def slotListIDSwitch (m : MemSlotBase α) (slot listId : Nat) : MemSlotBase α :=
  if listId ≥ defaultListCount then m
  else
    let cur := (m.arena slot).curListId
    let list := Function.update m.list cur ((m.list cur).erase slot)
    { m with
      list := Function.update list listId (slot :: list listId)
      arena := Function.update m.arena slot
        { m.arena slot with curListId := listId } }

/-- The slot leaves its list for the tail of list `listId`. -/
def relinkTail (m : MemSlotBase α) (slot listId : Nat) : MemSlotBase α :=
  let cur := (m.arena slot).curListId
  let list := Function.update m.list cur ((m.list cur).erase slot)
  { m with
    list := Function.update list listId (list listId ++ [slot])
    arena := Function.update m.arena slot
      { m.arena slot with curListId := listId } }

/-- `MemSlotBaseSlotListIDSwitchToTail`. -/
def slotListIDSwitchToTail (m : MemSlotBase α) (slot listId : Nat) : MemSlotBase α :=
  if listId ≥ defaultListCount then m else m.relinkTail slot listId

/-- `MemSlotBaseSlotPointToHeadAndSwitchListID`. -/
def slotPointToHeadAndSwitchListID (m : MemSlotBase α) (curListId newListId : Nat) :
    Option (Nat × MemSlotBase α) :=
  match m.list curListId with
  | [] => none
  | slot :: _ => some (slot, m.relinkTail slot newListId)

/-- `MemSlotBaseSlotFree`: the id is granted next and the slot is unlinked. -/
def slotFree (m : MemSlotBase α) (slot : Nat) : MemSlotBase α :=
  let cur := (m.arena slot).curListId
  { m with
    list := Function.update m.list cur ((m.list cur).erase slot)
    slots := (m.arena slot).slotId :: m.slots }

/-- `MemSlotBaseSlotPopHead`: the head of a list is unlinked and its id is granted next. -/
def slotPopHead (m : MemSlotBase α) (listId : Nat) : Option (Nat × MemSlotBase α) :=
  match m.list listId with
  | [] => none
  | slot :: rest =>
      some (slot,
        { m with
          list := Function.update m.list listId rest
          slots := (m.arena slot).slotId :: m.slots })

/-- A slot is free once or linked once, in the list its metadata names. -/
structure WF (m : MemSlotBase α) : Prop where
  free_nodup : m.slots.Nodup
  list_nodup : ∀ l, (m.list l).Nodup
  linked : ∀ l, ∀ i ∈ m.list l, (m.arena i).curListId = l ∧ (m.arena i).slotId = i
  free_unlinked : ∀ i ∈ m.slots, ∀ l, i ∉ m.list l

theorem wf_init (zero : α) (n : Nat) : (init zero n).WF where
  free_nodup := nodup_range
  list_nodup := by simp [init]
  linked := by simp [init]
  free_unlinked := by simp [init]

theorem WF.list_unique {m : MemSlotBase α} (h : m.WF) {i l l' : Nat}
    (hi : i ∈ m.list l) (hi' : i ∈ m.list l') : l = l' :=
  (h.linked l i hi).1.symm.trans (h.linked l' i hi').1

section ModifyData

variable (m : MemSlotBase α) (slot : Nat) (f : α → α)

@[simp] theorem modifyData_list : (m.modifyData slot f).list = m.list := rfl

@[simp] theorem modifyData_slots : (m.modifyData slot f).slots = m.slots := rfl

@[simp] theorem slotData_modifyData_self :
    (m.modifyData slot f).slotData slot = f (m.slotData slot) := by
  simp [modifyData, slotData]

@[simp] theorem modifyData_id : (m.modifyData slot fun d => d) = m := by
  simp [modifyData]

theorem modifyData_modifyData (g : α → α) :
    (m.modifyData slot f).modifyData slot g = m.modifyData slot fun d => g (f d) := by
  simp [modifyData]

theorem slotData_modifyData_of_ne {i : Nat} (h : i ≠ slot) :
    (m.modifyData slot f).slotData i = m.slotData i := by
  simp [modifyData, slotData, update_of_ne h]

theorem slotData_modifyData_view {β : Type} (v : α → β)
    (hf : ∀ d, v (f d) = v d) (i : Nat) :
    v ((m.modifyData slot f).slotData i) = v (m.slotData i) := by
  by_cases h : i = slot
  · subst h
    simp [hf]
  · rw [slotData_modifyData_of_ne m slot f h]

theorem curListId_modifyData (i : Nat) :
    ((m.modifyData slot f).arena i).curListId = (m.arena i).curListId := by
  by_cases h : i = slot
  · subst h
    simp [modifyData]
  · simp [modifyData, update_of_ne h]

theorem slotId_modifyData (i : Nat) :
    ((m.modifyData slot f).arena i).slotId = (m.arena i).slotId := by
  by_cases h : i = slot
  · subst h
    simp [modifyData]
  · simp [modifyData, update_of_ne h]

variable {m}

theorem WF.modifyData (h : m.WF) : (m.modifyData slot f).WF where
  free_nodup := h.free_nodup
  list_nodup := h.list_nodup
  linked := fun l i hi => by
    rw [curListId_modifyData, slotId_modifyData]
    exact h.linked l i hi
  free_unlinked := h.free_unlinked

end ModifyData

section Grab

variable {m m' : MemSlotBase α} {slot : Nat}

theorem slotGrab_eq_some (h : m.slotGrab = some (slot, m')) :
    m.slots = slot :: m'.slots ∧
      m'.list = update m.list 0 (m.list 0 ++ [slot]) ∧
      m'.arena = update m.arena slot
        { m.arena slot with slotId := slot, curListId := 0 } := by
  unfold slotGrab at h
  cases hs : m.slots with
  | nil => simp [hs] at h
  | cons i rest =>
      simp only [hs, Option.some.injEq, Prod.mk.injEq] at h
      obtain ⟨rfl, rfl⟩ := h
      exact ⟨rfl, rfl, rfl⟩

theorem slotGrab_list_zero (h : m.slotGrab = some (slot, m')) :
    m'.list 0 = m.list 0 ++ [slot] := by
  simp [(slotGrab_eq_some h).2.1]

theorem slotGrab_list_of_ne (h : m.slotGrab = some (slot, m')) {l : Nat}
    (hl : l ≠ 0) : m'.list l = m.list l := by
  simp [(slotGrab_eq_some h).2.1, update_of_ne hl]

theorem mem_slotGrab (h : m.slotGrab = some (slot, m')) {k i : Nat} :
    i ∈ m'.list k ↔ (i = slot ∧ k = 0) ∨ i ∈ m.list k := by
  by_cases hk : k = 0
  · subst hk
    rw [slotGrab_list_zero h, mem_append, mem_singleton]
    simp [or_comm]
  · rw [slotGrab_list_of_ne h hk]
    simp [hk]

theorem slotGrab_data (h : m.slotGrab = some (slot, m')) (i : Nat) :
    m'.slotData i = m.slotData i := by
  unfold slotData
  rw [(slotGrab_eq_some h).2.2]
  by_cases hi : i = slot
  · subst hi
    simp
  · simp [update_of_ne hi]

theorem slotGrab_id (h : m.slotGrab = some (slot, m')) :
    m'.slotGetID slot = slot := by
  simp [slotGetID, (slotGrab_eq_some h).2.2]

theorem WF.slotGrab_fresh (hm : m.WF) (h : m.slotGrab = some (slot, m')) (l : Nat) :
    slot ∉ m.list l :=
  hm.free_unlinked slot (by simp [(slotGrab_eq_some h).1]) l

theorem WF.slotGrab (hm : m.WF) (h : m.slotGrab = some (slot, m')) : m'.WF := by
  obtain ⟨hslots, hlist, harena⟩ := slotGrab_eq_some h
  have hfresh := hm.slotGrab_fresh h
  have hfree := hm.free_nodup
  rw [hslots, nodup_cons] at hfree
  refine ⟨hfree.2, fun l => ?_, fun l i hi => ?_, fun i hi l hmem => ?_⟩
  · by_cases hl : l = 0
    · subst hl
      rw [slotGrab_list_zero h]
      exact (hm.list_nodup 0).append (nodup_singleton slot)
        (by simpa using hfresh 0)
    · rw [slotGrab_list_of_ne h hl]
      exact hm.list_nodup l
  · by_cases his : i = slot
    · subst his
      have hl : l = 0 := by
        by_contra hl
        rw [slotGrab_list_of_ne h hl] at hi
        exact hfresh l hi
      simp [harena, hl]
    · have hi' : i ∈ m.list l := by
        by_cases hl : l = 0
        · subst hl
          rw [slotGrab_list_zero h] at hi
          simpa [his] using hi
        · rwa [slotGrab_list_of_ne h hl] at hi
      simpa [harena, update_of_ne his] using hm.linked l i hi'
  · have hne : i ≠ slot := fun he => hfree.1 (he ▸ hi)
    have hold : i ∈ m.slots := by simp [hslots, hi]
    by_cases hl : l = 0
    · subst hl
      rw [slotGrab_list_zero h] at hmem
      exact hm.free_unlinked i hold 0 (by simpa [hne] using hmem)
    · rw [slotGrab_list_of_ne h hl] at hmem
      exact hm.free_unlinked i hold l hmem

end Grab

section Switch

variable {m : MemSlotBase α} {slot l l' : Nat}

@[simp] theorem slotListIDSwitch_slots : (m.slotListIDSwitch slot l').slots = m.slots := by
  unfold slotListIDSwitch
  split <;> rfl

@[simp] theorem slotListIDSwitch_data (i : Nat) :
    (m.slotListIDSwitch slot l').slotData i = m.slotData i := by
  unfold slotListIDSwitch slotData
  split
  · rfl
  · by_cases hi : i = slot
    · subst hi
      simp
    · simp [update_of_ne hi]

theorem WF.slotListIDSwitch_list (hm : m.WF) (hi : slot ∈ m.list l) (hne : l ≠ l')
    (hl' : l' < defaultListCount) :
    (m.slotListIDSwitch slot l').list =
      update (update m.list l ((m.list l).erase slot)) l'
        (slot :: m.list l') := by
  simp [slotListIDSwitch, (hm.linked l slot hi).1, update_of_ne hne.symm,
    Nat.not_le.2 hl']

theorem WF.unlink (hm : m.WF) (l slot : Nat) :
    ({ m with list := update m.list l ((m.list l).erase slot) } : MemSlotBase α).WF := by
  have hold : ∀ k i, i ∈ update m.list l ((m.list l).erase slot) k → i ∈ m.list k := by
    intro k i hmem
    rw [update_apply] at hmem
    split at hmem
    · rename_i hk
      exact hk ▸ mem_of_mem_erase hmem
    · exact hmem
  refine ⟨hm.free_nodup, fun k => ?_, fun k i hmem => hm.linked k i (hold k i hmem),
    fun i hi k hmem => hm.free_unlinked i hi k (hold k i hmem)⟩
  simp only [update_apply]
  split
  · exact (hm.list_nodup l).erase slot
  · exact hm.list_nodup k

theorem WF.unlink_out (hm : m.WF) (hi : slot ∈ m.list l) (k : Nat) :
    slot ∉ update m.list l ((m.list l).erase slot) k := by
  rw [update_apply]
  split
  · exact (hm.list_nodup l).not_mem_erase
  · rename_i hk
    exact fun hmem => hk (hm.list_unique hmem hi)

theorem WF.link (hm : m.WF) (hout : ∀ k, slot ∉ m.list k) (hfree : slot ∉ m.slots)
    {dst : List Nat} (hdst : dst.Perm (slot :: m.list l)) :
    ({ m with
        list := update m.list l dst
        arena := update m.arena slot { m.arena slot with slotId := slot, curListId := l } } :
      MemSlotBase α).WF := by
  have hcases : ∀ k i, i ∈ update m.list l dst k →
      (i = slot ∧ k = l) ∨ (i ≠ slot ∧ i ∈ m.list k) := by
    intro k i hmem
    rw [update_apply] at hmem
    split at hmem
    · rename_i hk
      rw [hdst.mem_iff, mem_cons] at hmem
      rcases hmem with rfl | hmem
      · exact .inl ⟨rfl, hk⟩
      · exact .inr ⟨ne_of_mem_of_not_mem hmem (hout l), hk ▸ hmem⟩
    · exact .inr ⟨ne_of_mem_of_not_mem hmem (hout k), hmem⟩
  refine ⟨hm.free_nodup, fun k => ?_, fun k i hmem => ?_, fun i hi k hmem => ?_⟩
  · simp only [update_apply]
    split
    · exact hdst.nodup_iff.mpr (nodup_cons.mpr ⟨hout l, hm.list_nodup l⟩)
    · exact hm.list_nodup k
  · rcases hcases k i hmem with ⟨rfl, rfl⟩ | ⟨hne, hold⟩
    · simp
    · simpa [update_of_ne hne] using hm.linked k i hold
  · rcases hcases k i hmem with ⟨rfl, -⟩ | ⟨-, hold⟩
    · exact hfree hi
    · exact hm.free_unlinked i hi k hold

theorem WF.move (hm : m.WF) (hi : slot ∈ m.list l) {dst : List Nat}
    (hdst : dst.Perm (slot :: update m.list l ((m.list l).erase slot) l')) :
    ({ m with
        list := update (update m.list l ((m.list l).erase slot)) l' dst
        arena := update m.arena slot { m.arena slot with curListId := l' } } :
      MemSlotBase α).WF := by
  have hlink := (hm.unlink l slot).link (hm.unlink_out hi)
    (fun hfree => hm.free_unlinked slot hfree l hi) hdst
  have hid := (hm.linked l slot hi).2
  simpa only [hid] using hlink

theorem WF.mem_move (hm : m.WF) (hi : slot ∈ m.list l) {dst : List Nat}
    (hdst : dst.Perm (slot :: update m.list l ((m.list l).erase slot) l')) {k i : Nat} :
    i ∈ update (update m.list l ((m.list l).erase slot)) l' dst k ↔
      (i = slot ∧ k = l') ∨ (i ≠ slot ∧ i ∈ m.list k) := by
  have hrest : ∀ k, i ∈ update m.list l ((m.list l).erase slot) k ↔
      i ≠ slot ∧ i ∈ m.list k := fun k => by
    rw [update_apply]
    split
    · rename_i hk
      rw [hk, (hm.list_nodup l).mem_erase_iff]
    · rename_i hk
      exact ⟨fun hmem => ⟨fun he => hk (hm.list_unique (he ▸ hmem) hi), hmem⟩, fun h => h.2⟩
  rw [update_apply]
  split
  · rename_i hk
    rw [hdst.mem_iff, mem_cons, hrest, hk]
    simp
  · rename_i hk
    rw [hrest]
    simp [hk]

theorem WF.relink (hm : m.WF) (hi : slot ∈ m.list l) (hne : l ≠ l') {m' : MemSlotBase α}
    {dst : List Nat} (hdst : dst.Perm (slot :: m.list l')) (hslots : m'.slots = m.slots)
    (hlist : m'.list =
      update (update m.list l ((m.list l).erase slot)) l' dst)
    (harena : m'.arena =
      update m.arena slot { m.arena slot with curListId := l' }) : m'.WF := by
  have hperm : dst.Perm (slot :: update m.list l ((m.list l).erase slot) l') := by
    rwa [update_of_ne hne.symm]
  have hmove := hm.move hi hperm
  rwa [← hslots, ← hlist, ← harena] at hmove

theorem WF.slotListIDSwitch (hm : m.WF) (hi : slot ∈ m.list l) (hne : l ≠ l')
    (hl' : l' < defaultListCount) : (m.slotListIDSwitch slot l').WF :=
  hm.relink hi hne (.refl _) slotListIDSwitch_slots (hm.slotListIDSwitch_list hi hne hl')
    (by simp [MemSlotBase.slotListIDSwitch, Nat.not_le.2 hl'])

@[simp] theorem relinkTail_data (i : Nat) :
    (m.relinkTail slot l').slotData i = m.slotData i := by
  unfold relinkTail slotData
  by_cases hi : i = slot
  · subst hi
    simp
  · simp [update_of_ne hi]

theorem WF.relinkTail_list (hm : m.WF) (hi : slot ∈ m.list l) (hne : l ≠ l') :
    (m.relinkTail slot l').list =
      update (update m.list l ((m.list l).erase slot)) l'
        (m.list l' ++ [slot]) := by
  simp [relinkTail, (hm.linked l slot hi).1, update_of_ne hne.symm]

theorem WF.mem_relinkTail (hm : m.WF) (hi : slot ∈ m.list l) (hne : l ≠ l') {k i : Nat} :
    i ∈ (m.relinkTail slot l').list k ↔ (i = slot ∧ k = l') ∨ (i ≠ slot ∧ i ∈ m.list k) := by
  rw [hm.relinkTail_list hi hne]
  by_cases hk' : k = l'
  · subst hk'
    rw [update_self, mem_append, mem_singleton]
    by_cases his : i = slot
    · simp [his]
    · simp [his]
  · rw [update_of_ne hk']
    by_cases hk : k = l
    · subst hk
      rw [update_self, (hm.list_nodup k).mem_erase_iff]
      simp [hk']
    · rw [update_of_ne hk]
      have hnot : i ∈ m.list k → i ≠ slot := fun hmem he => hk (hm.list_unique (he ▸ hmem) hi)
      simp only [hk', and_false, false_or]
      exact ⟨fun hmem => ⟨hnot hmem, hmem⟩, fun h => h.2⟩

theorem WF.relinkTail (hm : m.WF) (hi : slot ∈ m.list l) (hne : l ≠ l') :
    (m.relinkTail slot l').WF :=
  hm.relink hi hne (perm_append_singleton _ _) rfl (hm.relinkTail_list hi hne) rfl

end Switch

section Free

variable {m : MemSlotBase α} {slot l : Nat}

@[simp] theorem slotFree_data (i : Nat) : (m.slotFree slot).slotData i = m.slotData i := rfl

theorem WF.slotFree_list (hm : m.WF) (hi : slot ∈ m.list l) :
    (m.slotFree slot).list = update m.list l ((m.list l).erase slot) := by
  simp [slotFree, (hm.linked l slot hi).1]

theorem WF.slotFree_slots (hm : m.WF) (hi : slot ∈ m.list l) :
    (m.slotFree slot).slots = slot :: m.slots := by
  simp [slotFree, (hm.linked l slot hi).2]

theorem WF.slotFree (hm : m.WF) (hi : slot ∈ m.list l) : (m.slotFree slot).WF := by
  have hlist := hm.slotFree_list hi
  have hcases : ∀ k i, i ∈ (m.slotFree slot).list k → i ≠ slot ∧ i ∈ m.list k := by
    intro k i hmem
    rw [hlist] at hmem
    by_cases hk : k = l
    · subst hk
      rwa [update_self, (hm.list_nodup k).mem_erase_iff] at hmem
    · rw [update_of_ne hk] at hmem
      exact ⟨fun he => hk (hm.list_unique (he ▸ hmem) hi), hmem⟩
  refine ⟨?_, fun k => ?_, fun k i hmem => hm.linked k i (hcases k i hmem).2, ?_⟩
  · rw [hm.slotFree_slots hi]
    exact nodup_cons.2 ⟨fun hfree => hm.free_unlinked slot hfree l hi, hm.free_nodup⟩
  · rw [hlist]
    by_cases hk : k = l
    · subst hk
      simpa using (hm.list_nodup k).erase slot
    · simpa [update_of_ne hk] using hm.list_nodup k
  · intro i hfree k hmem
    rw [hm.slotFree_slots hi, mem_cons] at hfree
    rcases hfree with rfl | hfree
    · exact (hcases k i hmem).1 rfl
    · exact hm.free_unlinked i hfree k (hcases k i hmem).2

theorem WF.mem_slotFree (hm : m.WF) (hi : slot ∈ m.list l) {k i : Nat} :
    i ∈ (m.slotFree slot).list k ↔ i ≠ slot ∧ i ∈ m.list k := by
  rw [hm.slotFree_list hi]
  by_cases hk : k = l
  · subst hk
    rw [update_self, (hm.list_nodup k).mem_erase_iff]
  · rw [update_of_ne hk]
    exact ⟨fun hmem => ⟨fun he => hk (hm.list_unique (he ▸ hmem) hi), hmem⟩, fun h => h.2⟩

theorem WF.slotPopHead_eq (hm : m.WF) {rest : List Nat} (hl : m.list l = slot :: rest) :
    m.slotPopHead l = some (slot, m.slotFree slot) := by
  have hcur := (hm.linked l slot (by simp [hl])).1
  simp [MemSlotBase.slotPopHead, MemSlotBase.slotFree, hl, hcur]

end Free

end MemSlotBase

end BrbData
