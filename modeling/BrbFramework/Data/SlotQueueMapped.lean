import BrbFramework.Data.DynBitMap
import BrbFramework.Lib.Runs
import Mathlib.Data.List.Perm.Basic
import Mathlib.Data.List.Perm.Subperm
import Mathlib.Data.List.Nodup

/-!
# Slot queues with a busy map

A `SlotQueue` in mapped mode keeps slots in one array. Below `index` are the
slots that a grab gives out, from the top down. A slot that is busy when its
turn comes is passed: its entry becomes minus the slot. A slot that is given
out leaves 9999. A slot that comes back is put to `index`, behind the entries
below zero that are there.

An access outside the array stops the model, and so does a bitmap that is asked
for an index below zero, which it does not look at before its table. `granted`
is a history: the slots that were given out and did not come back.

`run_sound` says along which runs no busy slot is given out, none is given out
twice, and none is lost.
-/

namespace BrbData

open Handler Runs

structure SlotQueueMapped where
  arena : List Int
  index : Int
  count : Nat
  /-- `busy_map.public`. -/
  publicMap : DynBitMap
  /-- `busy_map.private`. -/
  privateMap : DynBitMap
  granted : List Nat := []
  deriving DecidableEq

namespace SlotQueueMapped

inductive Fault
  /-- An index that is not in the array, or below zero in a bitmap. -/
  | outside
  /-- The assertion of `SlotQueueMappedSetFree` that the slot is found. -/
  | notFound
  /-- An assertion about the private map. -/
  | privateMap
  deriving DecidableEq, Repr

abbrev M := EStateM Fault SlotQueueMapped

/-- `SlotQueueMappedInit` of a queue that had `before` slots. -/
def mappedInit (before : Int) (slotCount : Nat) : SlotQueueMapped :=
  let minSlots := if before.tdiv 8 > 1 then before.tdiv 8 else 2
  { arena := ((List.range slotCount).map Int.ofNat).reverse
    index := slotCount
    count := slotCount
    publicMap := .new minSlots.toNat
    privateMap := .new minSlots.toNat }

/-- `arena[i]`. -/
def arenaGet (i : Int) : M Int := do
  let q ← get
  assertThat (0 ≤ i ∧ i < q.arena.length) .outside
  return q.arena.getD i.toNat 0

/-- `arena[i] = slot`. -/
def arenaSet (i slot : Int) : M PUnit := do
  let q ← get
  assertThat (0 ≤ i ∧ i < q.arena.length) .outside
  set { q with arena := q.arena.set i.toNat slot }

/-- `DynBitMapBitTest` of the public map. -/
def publicTest (slot : Int) : M Bool := do
  assertThat (0 ≤ slot) .outside
  return (← get).publicMap.bitTest slot.toNat

/-- `DynBitMapBitTest` of the private map. -/
def privateTest (slot : Int) : M Bool := do
  assertThat (0 ≤ slot) .outside
  return (← get).privateMap.bitTest slot.toNat

/-- `SlotQueueMappedSetBusy`. -/
def setBusy (slot : Int) : M Int := do
  if ← publicTest slot then return 0
  else if ← privateTest slot then return 0
  else
    modify fun q => { q with publicMap := q.publicMap.bitSet slot.toNat }
    return 1

/-- The search of `SlotQueueMappedSetFree`, for at most `n` entries from `i` on. -/
def search (slot : Int) : Nat → Int → M Int
  | 0, _ => return -1
  | n + 1, i => do
    if slot * -1 = (← arenaGet i) then return i
    else search slot n (i + 1)

/-- How `SlotQueueMappedSetFree` moves at most `n` entries to the left. -/
def moveLeft : Nat → Int → M PUnit
  | 0, _ => return
  | n + 1, i => do
    if i ≤ (← get).index then
      arenaSet i (← arenaGet (i + 1))
      moveLeft n (i + 1)

/-- `SlotQueueMappedSetFree`. -/
def setFree (slot : Int) : M Int := do
  if !(← publicTest slot) then return 0
  else
    modify fun q => { q with publicMap := q.publicMap.bitClear slot.toNat }
    let slotIdx ← search slot ((← get).count + 1) 0
    assertThat (0 ≤ slotIdx) .notFound
    if slotIdx ≤ (← get).index then
      arenaSet slotIdx slot
    else
      moveLeft ((← get).count + 1) slotIdx
      modify fun q => { q with index := q.index + 1 }
      arenaSet (← get).index slot
    return 1

/-- What `SlotQueueGrab` does with the slot that it found. -/
def grant (slot : Int) : M Int := do
  assertThat (0 ≤ slot) .outside
  modify fun q => { q with
    privateMap := q.privateMap.bitSet slot.toNat
    granted := q.granted ++ [slot.toNat] }
  return slot

/-- The loop of `SlotQueueGrab`, for at most `n` turns, with the slot of the last one. -/
def grabLoop : Nat → Int → M Int
  | 0, slot => grant slot
  | n + 1, _ => do
    modify fun q => { q with index := q.index - 1 }
    let slotCur := (← get).index
    let slot ← arenaGet slotCur
    if slotCur < 0 then return -1
    else if ← publicTest slot then
      arenaSet slotCur (slot * -1)
      grabLoop n slot
    else
      let set ← privateTest slot
      assertThat (!set) .privateMap
      arenaSet slotCur 9999
      grant slot

/-- `SlotQueueGrab`. -/
def grab : M Int := do
  let q ← get
  if q.index ≤ 0 then return -1
  else grabLoop (q.count + 1) 0

/-- The walk of `SlotQueueFree`, over at most `n` entries. -/
def walkUp : Nat → M PUnit
  | 0 => return
  | n + 1 => do
    if (← arenaGet (← get).index) < 0 then
      modify fun q => { q with index := q.index + 1 }
      walkUp n

/-- `SlotQueueFree`. -/
def free (slot : Int) : M PUnit := do
  if ← publicTest slot then
    let set ← privateTest slot
    assertThat (!set) .privateMap
    let _ ← setFree slot
  else
    walkUp ((← get).count + 1)
    arenaSet (← get).index slot
    modify fun q => { q with index := q.index + 1 }
    let set ← privateTest slot
    assertThat set .privateMap
    modify fun q => { q with
      privateMap := q.privateMap.bitClear slot.toNat
      granted := q.granted.erase slot.toNat }

inductive Op
  | grab
  | free (slot : Int)
  | setBusy (slot : Int)
  | setFree (slot : Int)
  deriving DecidableEq

def handle : Op → M PUnit
  | .grab => do let _ ← grab
  | .free slot => free slot
  | .setBusy slot => do let _ ← setBusy slot
  | .setFree slot => do let _ ← setFree slot

/-! ## Operations that the queue is good for -/

/-- Going down, the first entry that is no busy slot is a slot. -/
def Reaches (busy : DynBitMap) : List Int → Prop
  | [] => False
  | slot :: rest => 0 ≤ slot ∧ (busy.bitTest slot.toNat = true → Reaches busy rest)

instance instDecidableReaches (busy : DynBitMap) : ∀ slots, Decidable (Reaches busy slots)
  | [] => isFalse id
  | slot :: rest =>
      have := instDecidableReaches busy rest
      inferInstanceAs (Decidable (0 ≤ slot ∧ (busy.bitTest slot.toNat = true → _)))

/-- A slot that is freed was granted. No number of a slot is below zero. A grab does not come
to an entry below zero or to the end, a walk of a free does not come to the entry of slot zero,
and a slot that is set free is found below the index. -/
def Op.Fits (q : SlotQueueMapped) : Op → Prop
  | .grab => q.index ≤ 0 ∨ Reaches q.publicMap (q.arena.take q.index.toNat).reverse
  | .free slot =>
      0 ≤ slot ∧ slot.toNat ∈ q.granted ∧
        ((q.arena.drop q.index.toNat).dropWhile (· < 0)).head? ≠ some 0
  | .setBusy slot => 0 ≤ slot
  | .setFree slot =>
      0 ≤ slot ∧
        (q.publicMap.bitTest slot.toNat = true → slot * -1 ∈ q.arena.take q.index.toNat)

instance instDecidableFits (q : SlotQueueMapped) (op : Op) : Decidable (op.Fits q) := by
  cases op <;> unfold Op.Fits <;> infer_instance

/-- A slot can be had: some operations that the queue is good for give it out. -/
def Grantable (q : SlotQueueMapped) (slot : Nat) : Prop :=
  ∃ ops q', Meets handle (fun q op => op.Fits q) (.live q) ops ∧
    run handle (.live q) ops = .live q' ∧ slot ∈ q'.granted

/-- No slot is out twice, none is out that is busy, and each that is neither can be had. -/
structure Sound (q : SlotQueueMapped) : Prop where
  once : q.granted.Nodup
  idle : ∀ slot ∈ q.granted, slot < q.count ∧ q.publicMap.bitTest slot = false
  kept : ∀ slot < q.count, q.publicMap.bitTest slot = false → slot ∉ q.granted → Grantable q slot

end SlotQueueMapped

end BrbData
