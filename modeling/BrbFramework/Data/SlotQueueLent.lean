import BrbFramework.Data.MemSlotLinked

/-!
# Slots that a queue has lent

A `SlotQueue` without a map gives out the topmost slot below its index, and puts
one that comes back on top, so that the free slots may lie in any order.
`granted` is a history: the slots that were given out and did not come back.
`run_parted` says that these and the free ones are the slots of the queue, each
once, after every run in which only granted slots come back.
-/

namespace BrbData

open Handler Runs List

structure LentQueue where
  queue : SlotQueue
  count : Nat
  granted : List Nat := []
  deriving DecidableEq

namespace LentQueue

inductive Fault
  /-- `SlotQueueFree` writes behind the array. -/
  | outside
  deriving DecidableEq, Repr

abbrev M := EStateM Fault LentQueue

/-- `SlotQueueInit`. -/
def init (slotCount : Nat) : LentQueue where
  queue := .init slotCount
  count := slotCount

/-- `SlotQueueGrab`, whose -1 is none. -/
def grab : M (Option Nat) := do
  let q ← get
  match q.queue.grab with
  | none => return none
  | some (slot, queue) =>
    set { q with queue := queue, granted := q.granted ++ [slot] }
    return some slot

/-- `SlotQueueFree`. -/
def free (slot : Nat) : M PUnit := do
  let q ← get
  match q.queue.free slot with
  | none => throw .outside
  | some queue => set { q with queue := queue, granted := q.granted.erase slot }

inductive Op
  | grab
  | free (slot : Nat)
  deriving DecidableEq

def handle : Op → M PUnit
  | .grab => do let _ ← grab
  | .free slot => free slot

def Op.Fits (q : LentQueue) : Op → Prop
  | .grab => True
  | .free slot => slot ∈ q.granted

/-- The index stays inside the array, and each slot is granted or free, once. -/
structure Parted (q : LentQueue) : Prop where
  room : q.queue.arena.length = q.count
  index : q.queue.index ≤ q.count
  parts : (q.granted ++ q.queue.queue).Perm (List.range q.count)

/-- A grab fails exactly if all slots are granted, and gives out a free one otherwise. -/
def GrabsFree (q : LentQueue) : Prop :=
  Ends grab q
    (fun r _ => (r = none ↔ ∀ slot < q.count, slot ∈ q.granted) ∧
      ∀ slot, r = some slot → slot ∈ q.queue.queue)
    fun _ _ => False

theorem parted_init (slotCount : Nat) : Parted (init slotCount) where
  room := by simp [init, SlotQueue.init]
  index := Nat.le_refl _
  parts := by
    rw [init, nil_append, SlotQueue.queue_init]

section Parted

variable {q : LentQueue}

theorem Parted.nodup (h : Parted q) : (q.granted ++ q.queue.queue).Nodup :=
  h.parts.nodup_iff.mpr nodup_range

theorem Parted.le_length (h : Parted q) : q.queue.index ≤ q.queue.arena.length := by
  rw [h.room]
  exact h.index

theorem Parted.all_granted_iff (h : Parted q) :
    (∀ slot < q.count, slot ∈ q.granted) ↔ q.queue.queue = [] := by
  constructor
  · intro hall
    apply eq_nil_iff_forall_not_mem.mpr
    intro slot hfree
    have hslot := h.parts.subset (mem_append_right _ hfree)
    exact disjoint_of_nodup_append h.nodup (hall slot (mem_range.mp hslot)) hfree
  · intro hnil slot hslot
    have hmem := h.parts.symm.subset (mem_range.mpr hslot)
    rwa [hnil, append_nil] at hmem

theorem grab_ends (h : Parted q) :
    Ends grab q
      (fun r t => Parted t ∧ (r = none ↔ ∀ slot < q.count, slot ∈ q.granted) ∧
        ∀ slot, r = some slot → slot ∈ q.queue.queue)
      fun _ _ => False := by
  rw [grab, ends_bind, ends_get, h.all_granted_iff]
  cases hqueue : q.queue.queue with
  | nil =>
      rw [SlotQueue.grab_of_empty h.le_length hqueue]
      simp [h]
  | cons slot rest =>
      obtain ⟨queue, hgrab, hrest, harena, hindex⟩ := SlotQueue.grab_of_queue h.le_length hqueue
      have hle := h.index
      have hparts := h.parts
      rw [hqueue] at hparts
      simp only [hgrab, ends_bind, ends_set, ends_pure]
      refine ⟨⟨?_, ?_, ?_⟩, by simp, ?_⟩
      · rw [harena]
        exact h.room
      · simp only
        omega
      · rw [hrest, append_assoc]
        exact hparts
      · intro slot' hslot'
        cases hslot'
        exact mem_cons_self

theorem free_ends (h : Parted q) {slot : Nat} (hslot : slot ∈ q.granted) :
    Ends (free slot) q (fun _ t => Parted t) fun _ _ => False := by
  have hroom : q.queue.index < q.queue.arena.length := by
    have hlength := h.parts.length_eq
    have hpos := length_pos_of_mem hslot
    rw [length_append, length_range, SlotQueue.length_queue h.le_length] at hlength
    rw [h.room]
    omega
  obtain ⟨queue, hfree, hqueue, harena, hindex⟩ := SlotQueue.free_of_lt hroom slot
  rw [free, ends_bind, ends_get]
  simp only [hfree, ends_set]
  refine ⟨harena.trans h.room, ?_, ?_⟩
  · rw [h.room] at hroom
    rw [hindex]
    exact hroom
  · have hback : (q.granted.erase slot ++ slot :: q.queue.queue).Perm
        (slot :: q.granted.erase slot ++ q.queue.queue) := perm_middle
    rw [hqueue]
    apply hback.trans
    apply List.Perm.trans _ h.parts
    exact (perm_cons_erase hslot).symm.append_right _

end Parted

theorem handle_ends (op : Op) (q : LentQueue) (h : Parted q) (hfits : op.Fits q) :
    Ends (handle op) q (fun _ t => Parted t) fun _ _ => False := by
  cases op with
  | grab =>
      rw [handle, ends_bind]
      apply (grab_ends h).imp
      intro r t ht
      exact ht.1
  | free slot => exact free_ends h hfits

/-- **Slots.**  In every state of a run in which only granted slots come back, granted slots and
free slots are the slots of the queue, each once, the index is inside the array, and a grab fails
exactly if all slots are granted. -/
theorem run_parted (slotCount : Nat) (ops : List Op)
    (hfits : Meets handle (fun q op => op.Fits q) (.live (init slotCount)) ops) :
    Holds (fun q => Parted q ∧ (q.granted ++ q.queue.queue).Nodup ∧ GrabsFree q)
      (fun _ _ => False) (run handle (.live (init slotCount)) ops) := by
  have hinit : Holds Parted (fun _ _ => False) (.live (init slotCount) : Config Fault LentQueue) :=
    parted_init slotCount
  apply (invariant_run_of handle_ends hinit ops hfits).mono
  · intro q h
    refine ⟨h, h.nodup, ?_⟩
    apply (grab_ends h).imp
    intro r t ht
    exact ht.2
  · intro f q hfalse
    exact hfalse

instance instDecidableFits (q : LentQueue) (op : Op) : Decidable (op.Fits q) :=
  match op with
  | .grab => inferInstanceAs (Decidable True)
  | .free slot => inferInstanceAs (Decidable (slot ∈ q.granted))

/-- One grab too many, and the slots come back in the order in which they were granted. -/
theorem run_parted_in_order :
    Holds (fun q => Parted q ∧ (q.granted ++ q.queue.queue).Nodup ∧ GrabsFree q)
      (fun _ _ => False)
      (run handle (.live (init 2)) [.grab, .grab, .grab, .free 0, .grab, .free 1, .free 0]) :=
  run_parted 2 _ (by decide)

end LentQueue

end BrbData
