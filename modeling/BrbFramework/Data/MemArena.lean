import BrbFramework.Data.DynBitMap
import Mathlib.Data.List.Count

/-!
# Memory arenas

A `MemArena` hands out the memory of numbered slots from blocks of `slotCount`
slots. A block is made when one of its slots is first grabbed and is given back
with the last of them; its header has a bit for each slot that is in use and
counts them. The list that the arena keeps of its blocks, which nothing here
reads, is left out.
-/

namespace BrbData

open List Function

/-- What `MemArenaGrabByID` and `MemArenaReleaseByID` assert. -/
inductive MemArena.Fault
  /-- A header without its canaries. -/
  | canary
  /-- A block that is not there. -/
  | inactive
  /-- A slot that is not in use. -/
  | notInUse
  deriving DecidableEq, Repr

structure MemArenaSlotHeader where
  canary00 : Int
  bitmap : DynBitMap
  busyCount : Int
  canary01 : Int
  deriving DecidableEq, Repr

structure MemArena where
  /-- `size[MEMARENA_SIZE_CAPACITY]`. -/
  capacity : Nat
  /-- `size[MEMARENA_SIZE_INITIAL]`. -/
  initial : Nat
  /-- `size[MEMARENA_SIZE_CURRENT]`. -/
  current : Nat
  /-- `slot[MEMARENA_SLOT_COUNT]`. -/
  slotCount : Nat
  data : Nat → Option MemArenaSlotHeader

/-- `MemArenaSlotHeaderInit`. -/
def MemArenaSlotHeader.init : MemArenaSlotHeader where
  canary00 := 0xDE
  bitmap := .new 64
  busyCount := 0
  canary01 := 0xAD

namespace MemArena

/-- `MemArenaNew`. -/
def new (arenaSize slotCount : Nat) : MemArena where
  capacity := arenaSize
  initial := arenaSize
  current := 0
  slotCount := slotCount
  data := fun _ => none

/-- `MemArenaGrabByID`. -/
def grabByID (a : MemArena) (id : Nat) : Except Fault MemArena :=
  let arenaId := id / a.slotCount
  let slotOffset := id % a.slotCount
  let capacity := if arenaId ≥ a.capacity then arenaId + a.initial else a.capacity
  let current := if (a.data arenaId).isNone then a.current + 1 else a.current
  let header := (a.data arenaId).getD .init
  if header.canary00 ≠ 0xDE ∨ header.canary01 ≠ 0xAD then .error .canary
  else
    let busyCount :=
      if header.bitmap.bitTest slotOffset then header.busyCount else header.busyCount + 1
    .ok { a with
      capacity := capacity
      current := current
      data := Function.update a.data arenaId
        (some { header with bitmap := header.bitmap.bitSet slotOffset, busyCount := busyCount }) }

/-- `MemArenaReleaseByID`. -/
def releaseByID (a : MemArena) (id : Nat) : Except Fault MemArena :=
  let arenaId := id / a.slotCount
  let slotOffset := id % a.slotCount
  match a.data arenaId with
  | none => .error .inactive
  | some header =>
      if header.canary00 ≠ 0xDE ∨ header.canary01 ≠ 0xAD then .error .canary
      else if header.bitmap.bitTest slotOffset = false then .error .notInUse
      else
        let bitmap := header.bitmap.bitClear slotOffset
        let busyCount := header.busyCount - 1
        .ok { a with
          data := Function.update a.data arenaId
            (if busyCount = 0 then none
              else some { header with bitmap := bitmap, busyCount := busyCount }) }

def inUse (a : MemArena) (id : Nat) : Bool :=
  match a.data (id / a.slotCount) with
  | none => false
  | some header => header.bitmap.bitTest (id % a.slotCount)

def busy (bitmap : DynBitMap) (slotCount : Nat) : Nat :=
  (List.range slotCount).countP bitmap.bitTest

structure Sound (header : MemArenaSlotHeader) (slotCount : Nat) : Prop where
  canary00 : header.canary00 = 0xDE
  canary01 : header.canary01 = 0xAD
  bitmap : header.bitmap.WF
  busyCount : header.busyCount = busy header.bitmap slotCount

structure WF (a : MemArena) : Prop where
  pos : 0 < a.slotCount
  header : ∀ b header, a.data b = some header → Sound header a.slotCount

theorem wf_new (arenaSize : Nat) {slotCount : Nat} (h : 0 < slotCount) :
    (new arenaSize slotCount).WF where
  pos := h
  header _ _ := nofun

theorem sound_init (slotCount : Nat) : Sound .init slotCount where
  canary00 := rfl
  canary01 := rfl
  bitmap := DynBitMap.wf_new 64
  busyCount := by
    have hnone : busy (.new 64) slotCount = 0 :=
      countP_eq_zero.mpr fun i _ => by simp
    simp [MemArenaSlotHeader.init, hnone]

section Busy

variable {bitmap : DynBitMap} {slotCount i : Nat}

theorem busy_change {bitmap' : DynBitMap} (hi : i < slotCount)
    (hsame : ∀ j, j ≠ i → bitmap'.bitTest j = bitmap.bitTest j) :
    busy bitmap' slotCount + (if bitmap.bitTest i then 1 else 0) =
      busy bitmap slotCount + (if bitmap'.bitTest i then 1 else 0) := by
  have hperm := perm_cons_erase (mem_range.mpr hi)
  have hrest : ((List.range slotCount).erase i).countP bitmap'.bitTest =
      ((List.range slotCount).erase i).countP bitmap.bitTest :=
    countP_congr fun j hj => by
      rw [hsame j ((nodup_range.mem_erase_iff).mp hj).1]
  unfold busy
  rw [hperm.countP_eq, hperm.countP_eq, countP_cons, countP_cons, hrest]
  omega

theorem busy_bitSet (h : bitmap.WF) (hi : i < slotCount) :
    busy (bitmap.bitSet i) slotCount + (if bitmap.bitTest i then 1 else 0) =
      busy bitmap slotCount + 1 := by
  have hchange := @busy_change bitmap slotCount i (bitmap.bitSet i) hi fun j hj => by
    simp [h.bitTest_bitSet, hj]
  simpa [h.bitTest_bitSet] using hchange

theorem busy_bitClear (h : bitmap.WF) (hi : i < slotCount) (hset : bitmap.bitTest i = true) :
    busy (bitmap.bitClear i) slotCount + 1 = busy bitmap slotCount := by
  have hchange := @busy_change bitmap slotCount i (bitmap.bitClear i) hi fun j hj => by
    simp [h.bitTest_bitClear, hj]
  simpa [h.bitTest_bitClear, hset] using hchange

end Busy

section Spec

variable {a : MemArena} {id i j : Nat}

theorem WF.inUse_sound (h : a.WF) {b : Nat} : Sound ((a.data b).getD .init) a.slotCount := by
  cases hb : a.data b with
  | none => exact sound_init _
  | some header => exact h.header b header hb

theorem inUse_update (a : MemArena) (id : Nat) {a' : MemArena} {header : Option MemArenaSlotHeader}
    (hcount : a'.slotCount = a.slotCount)
    (hdata : a'.data = update a.data (id / a.slotCount) header) (j : Nat) :
    a'.inUse j =
      if j / a.slotCount = id / a.slotCount then
        header.elim false fun header => header.bitmap.bitTest (j % a.slotCount)
      else a.inUse j := by
  unfold inUse
  rw [hcount, hdata]
  by_cases hdiv : j / a.slotCount = id / a.slotCount
  · rw [if_pos hdiv, hdiv, update_self]
    cases header <;> rfl
  · rw [if_neg hdiv, update_of_ne hdiv]

theorem inUse_eq (hb : j / a.slotCount = id / a.slotCount) :
    a.inUse j = ((a.data (id / a.slotCount)).getD .init).bitmap.bitTest (j % a.slotCount) := by
  unfold inUse
  rw [hb]
  cases a.data (id / a.slotCount) with
  | none => simp [MemArenaSlotHeader.init]
  | some header => rfl

theorem offset_eq_iff {n : Nat} (hdiv : i / n = j / n) : i % n = j % n ↔ i = j := by
  refine ⟨fun hmod => ?_, fun h => by rw [h]⟩
  rw [← Nat.div_add_mod i n, ← Nat.div_add_mod j n, hdiv, hmod]

theorem WF.grabByID (h : a.WF) (id : Nat) :
    ∃ a', a.grabByID id = .ok a' ∧ a'.WF ∧ a'.slotCount = a.slotCount ∧
      ∀ j, a'.inUse j = (decide (j = id) || a.inUse j) := by
  have hsound : Sound ((a.data (id / a.slotCount)).getD .init) a.slotCount := h.inUse_sound
  have hcanaries : ¬(((a.data (id / a.slotCount)).getD .init).canary00 ≠ 0xDE ∨
      ((a.data (id / a.slotCount)).getD .init).canary01 ≠ 0xAD) := by
    simp [hsound.canary00, hsound.canary01]
  simp only [MemArena.grabByID, if_neg hcanaries]
  refine ⟨_, rfl, ⟨h.pos, fun b header hb => ?_⟩, rfl, fun j => ?_⟩
  · simp only [update_apply] at hb
    split at hb
    · cases hb
      refine ⟨hsound.canary00, hsound.canary01, hsound.bitmap.bitSet _, ?_⟩
      have hbusy := busy_bitSet hsound.bitmap (Nat.mod_lt id h.pos)
      have hcount := hsound.busyCount
      simp only at hbusy ⊢
      split at hbusy <;> rename_i hbit
      · rw [if_pos hbit]
        omega
      · rw [if_neg hbit]
        omega
    · exact h.header b header hb
  · refine Eq.trans (inUse_update a id (by rfl) (by rfl) j) ?_
    split
    · rename_i hdiv
      rw [inUse_eq hdiv]
      simp only [Option.elim_some, hsound.bitmap.bitTest_bitSet, offset_eq_iff hdiv]
    · rename_i hdiv
      have hne : j ≠ id := fun heq => hdiv (by rw [heq])
      simp [hne]

theorem WF.releaseByID (h : a.WF) (hin : a.inUse id = true) :
    ∃ a', a.releaseByID id = .ok a' ∧ a'.WF ∧ a'.slotCount = a.slotCount ∧
      ∀ j, a'.inUse j = (decide (j ≠ id) && a.inUse j) := by
  cases hblock : a.data (id / a.slotCount) with
  | none => simp [inUse, hblock] at hin
  | some header =>
      have hsound := h.header _ _ hblock
      have hbit : header.bitmap.bitTest (id % a.slotCount) = true := by
        simpa [inUse, hblock] using hin
      have hbusy := busy_bitClear hsound.bitmap (Nat.mod_lt id h.pos) hbit
      have hcount := hsound.busyCount
      simp only [MemArena.releaseByID, hblock, hsound.canary00, hsound.canary01, hbit]
      refine ⟨_, rfl, ⟨h.pos, fun b header' hb => ?_⟩, rfl, fun j => ?_⟩
      · simp only [update_apply] at hb
        split at hb
        · split at hb
          · cases hb
          · cases hb
            exact ⟨rfl, rfl, hsound.bitmap.bitClear _, by
              simp only
              omega⟩
        · exact h.header b header' hb
      · refine Eq.trans (inUse_update a id (by rfl) (by rfl) j) ?_
        split
        · rename_i hdiv
          have hclear := hsound.bitmap.bitTest_bitClear (id % a.slotCount) (j % a.slotCount)
          rw [inUse_eq hdiv, hblock]
          simp only [ne_eq, offset_eq_iff hdiv] at hclear
          split
          · -- the last slot of its block: no bit is left
            rename_i hlast
            have hnone : busy (header.bitmap.bitClear (id % a.slotCount)) a.slotCount = 0 := by
              omega
            have hj := countP_eq_zero.mp hnone (j % a.slotCount)
              (mem_range.mpr (Nat.mod_lt j h.pos))
            simp only [Option.getD_some, Option.elim_none]
            exact (Bool.eq_false_iff.mpr hj).symm.trans (by simpa using hclear)
          · simpa using hclear
        · rename_i hdiv
          have hne : j ≠ id := fun heq => hdiv (by rw [heq])
          simp [hne]

/-- The blocks are inside the table of the arena, and their bitmaps have the bits of
all slots from the first. -/
def Roomy (a : MemArena) : Prop :=
  ∀ b header, a.data b = some header →
    b < a.capacity ∧ ∀ i < a.slotCount, (i + 7) / 8 < header.bitmap.capacity

theorem roomy_new (arenaSize slotCount : Nat) : (new arenaSize slotCount).Roomy :=
  fun _ _ hb => nomatch hb

theorem Roomy.grabByID (h : a.Roomy) (hpos : 0 < a.initial) (hcount : a.slotCount ≤ 500)
    {a' : MemArena} (hgrab : a.grabByID id = .ok a') : a'.Roomy ∧ a'.initial = a.initial := by
  unfold MemArena.grabByID at hgrab
  simp only at hgrab
  split at hgrab
  · cases hgrab
  · cases hgrab
    refine ⟨fun b header hb => ?_, rfl⟩
    simp only [update_apply] at hb ⊢
    split at hb
    · rename_i heq
      cases hb
      refine ⟨?_, fun i hi => Nat.lt_of_lt_of_le ?_ (DynBitMap.bitSet_capacity_le _)⟩
      · split <;> omega
      · cases hblock : a.data (id / a.slotCount) with
        | none =>
            change (i + 7) / 8 < 64
            omega
        | some header => exact (h _ _ hblock).2 i hi
    · obtain ⟨hlt, hbits⟩ := h b header hb
      refine ⟨?_, hbits⟩
      split <;> omega

theorem Roomy.releaseByID (h : a.Roomy) {a' : MemArena} (hrelease : a.releaseByID id = .ok a') :
    a'.Roomy ∧ a'.initial = a.initial := by
  unfold MemArena.releaseByID at hrelease
  simp only at hrelease
  split at hrelease
  · cases hrelease
  · rename_i header hblock
    split at hrelease
    · cases hrelease
    · split at hrelease
      · cases hrelease
      · cases hrelease
        refine ⟨fun b header' hb => ?_, rfl⟩
        simp only [update_apply] at hb ⊢
        split at hb
        · rename_i heq
          split at hb
          · cases hb
          · cases hb
            obtain ⟨hlt, hbits⟩ := h _ _ hblock
            refine ⟨heq ▸ hlt, fun i hi => ?_⟩
            rw [DynBitMap.bitClear_capacity]
            exact hbits i hi
        · exact h b header' hb

theorem WF.grabByID_eq_self (h : a.WF) (hroom : a.Roomy) (hin : a.inUse id = true) :
    a.grabByID id = .ok a := by
  cases hblock : a.data (id / a.slotCount) with
  | none => simp [inUse, hblock] at hin
  | some header =>
      have hsound := h.header _ _ hblock
      have hbit : header.bitmap.bitTest (id % a.slotCount) = true := by
        simpa [inUse, hblock] using hin
      obtain ⟨hlt, hbits⟩ := hroom _ _ hblock
      have hset : header.bitmap.bitSet (id % a.slotCount) = header.bitmap := by
        refine hsound.bitmap.bitSet_eq_self ?_ (hbits _ (Nat.mod_lt _ h.pos))
        rw [← hsound.bitmap.bitTest_eq, hbit]
      unfold MemArena.grabByID
      simp only [hblock, Option.getD_some, Option.isNone_some, Bool.false_eq_true, if_false, hbit,
        if_true, hset, hsound.canary00, hsound.canary01, ne_eq, not_true, or_self,
        if_neg (Nat.not_le.2 hlt)]
      rw [← hsound.canary00, ← hsound.canary01]
      have hdata : update a.data (id / a.slotCount) (some header) = a.data := by
        rw [← hblock, update_eq_self]
      simp only [hdata]

end Spec

end MemArena

end BrbData
