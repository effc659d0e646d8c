import BrbFramework.Data.MemArena
import BrbFramework.Lib.Runs
import Mathlib.Data.Finset.Card
import Mathlib.Data.Finset.Filter

/-!
# Memory arenas with locks

A block of an arena is there as long as its `busy_count` is not zero. Beside the
slots in use the locks count, which keep a block alive without a slot of it. The
count is all there is: a block does not know how much of it are locks.

`run_accounts` compares a run with a ledger of the ids that were grabbed and of
the locks, as long as no lock is given back that was not taken.

The table of the blocks is modelled with its capacity here, and the part that is
cleared when it grows. What is behind that part is taken as null: it is looked
at only if the arena was made with no blocks at all.
-/

namespace BrbData

open Handler Runs Function

structure MemArenaBlocks where
  /-- `size[MEMARENA_SIZE_CAPACITY]`. -/
  capacity : Nat
  /-- `size[MEMARENA_SIZE_INITIAL]`. -/
  initial : Nat
  /-- `size[MEMARENA_SIZE_CURRENT]`. -/
  current : Nat
  /-- `slot[MEMARENA_SLOT_SIZE]`. -/
  slotSize : Nat
  /-- `slot[MEMARENA_SLOT_COUNT]`. -/
  slotCount : Nat
  data : Nat → Option MemArenaSlotHeader

namespace MemArenaBlocks

inductive Fault
  /-- The table is read behind its end. -/
  | outside
  /-- A header without its canaries. -/
  | canary
  /-- A block that is not there. -/
  | inactive
  /-- A slot that is not in use. -/
  | notInUse
  deriving DecidableEq, Repr

abbrev M := EStateM Fault MemArenaBlocks

/-- A pointer into a block: the block, and the bytes from its begin. -/
abbrev Ptr := Nat × Nat

/-- `sizeof(MemArenaSlotHeader)`. -/
def slotHeaderSize : Nat := 72

/-- `MemArenaNew`. -/
def new (arenaSize slotSize slotCount : Nat) : MemArenaBlocks where
  capacity := arenaSize
  initial := arenaSize
  current := 0
  slotSize := slotSize
  slotCount := slotCount
  data := fun _ => none

/-- `area_cap`, the size of a block. -/
def areaCap (a : MemArenaBlocks) : Nat := slotHeaderSize + (a.slotCount + 1) * (a.slotSize + 1)

/-- `&data[arena_id][slot_offset * slot_size] + sizeof(MemArenaSlotHeader)`. -/
def slotPtr (a : MemArenaBlocks) (arenaId slotOffset : Nat) : Ptr :=
  (arenaId, slotOffset * a.slotSize + slotHeaderSize)

/-- `MemArenaFindByID`. -/
def findByID (a : MemArenaBlocks) (id : Int) : Option Ptr :=
  if id < 0 then none
  else
    let arenaId := id.toNat / a.slotCount
    let slotOffset := id.toNat % a.slotCount
    if arenaId ≥ a.capacity then none
    else
      match a.data arenaId with
      | none => none
      | some header =>
          if header.bitmap.bitTest slotOffset = false then none
          else some (a.slotPtr arenaId slotOffset)

/-- How `MemArenaGrabByID` grows the table. -/
def grown (arenaId : Nat) (a : MemArenaBlocks) : MemArenaBlocks :=
  if arenaId ≥ a.capacity then
    let newCap := arenaId + a.initial
    { a with
      data := fun i => if a.capacity ≤ i ∧ i < newCap then none else a.data i
      capacity := newCap }
  else a

/-- How `MemArenaGrabByID` makes a block that is not there. -/
def created (arenaId : Nat) (a : MemArenaBlocks) : MemArenaBlocks :=
  match a.data arenaId with
  | none =>
      { a with
        data := Function.update a.data arenaId (some .init)
        current := a.current + 1 }
  | some _ => a

/-- The header of a block, with the assertions on it. -/
def header (arenaId : Nat) : M MemArenaSlotHeader := do
  let a ← get
  assertThat (arenaId ≤ a.capacity) .outside
  match a.data arenaId with
  | none => throw .inactive
  | some header =>
    assertThat (header.canary00 = 0xDE ∧ header.canary01 = 0xAD) .canary
    return header

def setHeader (arenaId : Nat) (header : Option MemArenaSlotHeader) : M PUnit :=
  modify fun a => { a with data := Function.update a.data arenaId header }

/-- `MemArenaGrabByID`. -/
def grabByID (id : Int) : M (Option Ptr) := do
  if id < 0 then return none
  else
    let a ← get
    let arenaId := id.toNat / a.slotCount
    let slotOffset := id.toNat % a.slotCount
    modify (grown arenaId)
    modify (created arenaId)
    let h ← header arenaId
    let busyCount := if h.bitmap.bitTest slotOffset then h.busyCount else h.busyCount + 1
    setHeader arenaId (some { h with bitmap := h.bitmap.bitSet slotOffset, busyCount := busyCount })
    return some ((← get).slotPtr arenaId slotOffset)

/-- `MemArenaReleaseByID`. -/
def releaseByID (id : Int) : M PUnit := do
  if id < 0 then return
  else
    let a ← get
    let arenaId := id.toNat / a.slotCount
    let slotOffset := id.toNat % a.slotCount
    let h ← header arenaId
    assertThat (h.bitmap.bitTest slotOffset) .notInUse
    let h := { h with bitmap := h.bitmap.bitClear slotOffset, busyCount := h.busyCount - 1 }
    setHeader arenaId (if h.busyCount = 0 then none else some h)

/-- `MemArenaLockByID`. -/
def lockByID (id : Int) : M PUnit := do
  if id < 0 then return
  else
    let a ← get
    let arenaId := id.toNat / a.slotCount
    let h ← header arenaId
    setHeader arenaId (some { h with busyCount := h.busyCount + 1 })

/-- `MemArenaUnlockByID`, which says whether it freed the block. -/
def unlockByID (id : Int) : M Bool := do
  if id < 0 then return false
  else
    let a ← get
    let arenaId := id.toNat / a.slotCount
    let h ← header arenaId
    let h := { h with busyCount := h.busyCount - 1 }
    setHeader arenaId (if h.busyCount = 0 then none else some h)
    return h.busyCount = 0

inductive Op
  | grab (id : Int)
  | find (id : Int)
  | release (id : Int)
  | lock (id : Int)
  | unlock (id : Int)
  deriving DecidableEq

def handle : Op → M PUnit
  | .grab id => do let _ ← grabByID id
  | .find id => do
      let a ← get
      let _ := a.findByID id
  | .release id => releaseByID id
  | .lock id => lockByID id
  | .unlock id => do let _ ← unlockByID id

/-! ## The ledger -/

/-- What the callers hold: the ids that were grabbed and not released, and the locks on each
block. -/
structure Ledger where
  grabbed : Finset Nat := ∅
  locks : Nat → Nat := fun _ => 0

/-- The slots of a block that are grabbed, and its locks. -/
def Ledger.busy (l : Ledger) (slotCount b : Nat) : Nat :=
  (l.grabbed.filter fun id => id / slotCount = b).card + l.locks b

def Op.account (slotCount : Nat) (l : Ledger) : Op → Ledger
  | .grab id => if id < 0 then l else { l with grabbed := insert id.toNat l.grabbed }
  | .find _ => l
  | .release id => if id < 0 then l else { l with grabbed := l.grabbed.erase id.toNat }
  | .lock id =>
      if id < 0 then l
      else
        let b := id.toNat / slotCount
        { l with locks := Function.update l.locks b (l.locks b + 1) }
  | .unlock id =>
      if id < 0 then l
      else
        let b := id.toNat / slotCount
        { l with locks := Function.update l.locks b (l.locks b - 1) }

def Op.Paired (slotCount : Nat) (l : Ledger) : Op → Prop
  | .unlock id => 0 ≤ id → 0 < l.locks (id.toNat / slotCount)
  | _ => True

instance instDecidablePaired (slotCount : Nat) (l : Ledger) (op : Op) :
    Decidable (op.Paired slotCount l) := by
  cases op <;> unfold Op.Paired <;> infer_instance

structure Accounts (l : Ledger) (a : MemArenaBlocks) : Prop where
  busyCount : ∀ b header, a.data b = some header → header.busyCount = l.busy a.slotCount b
  freed : ∀ b, a.data b = none ↔ l.busy a.slotCount b = 0
  find : ∀ id : Int, (a.findByID id).isSome ↔ 0 ≤ id ∧ id.toNat ∈ l.grabbed
  inside : ∀ id p, a.findByID id = some p →
    (a.data p.1).isSome ∧ slotHeaderSize ≤ p.2 ∧ p.2 + a.slotSize ≤ a.areaCap
  disjoint : ∀ id id' p p', id ≠ id' → a.findByID id = some p → a.findByID id' = some p' →
    p.1 = p'.1 → p.2 + a.slotSize ≤ p'.2 ∨ p'.2 + a.slotSize ≤ p.2

/-! ## One operation -/

section Ledger

variable {l : Ledger} {n b id : Nat}

theorem busy_grab (h : id / n = b) :
    ({ l with grabbed := insert id l.grabbed } : Ledger).busy n b =
      if id ∈ l.grabbed then l.busy n b else l.busy n b + 1 := by
  by_cases hmem : id ∈ l.grabbed
  · rw [if_pos hmem, Finset.insert_eq_of_mem hmem]
  · have hnew : id ∉ l.grabbed.filter fun id => id / n = b :=
      fun hin => hmem (Finset.mem_filter.mp hin).1
    simp only [if_neg hmem, Ledger.busy]
    rw [Finset.filter_insert, if_pos h, Finset.card_insert_of_notMem hnew]
    omega

theorem busy_release (h : id / n = b) (hmem : id ∈ l.grabbed) :
    ({ l with grabbed := l.grabbed.erase id } : Ledger).busy n b + 1 = l.busy n b := by
  have hin : id ∈ l.grabbed.filter fun id => id / n = b := Finset.mem_filter.mpr ⟨hmem, h⟩
  have hcard := Finset.card_erase_add_one hin
  simp only [Ledger.busy]
  rw [Finset.filter_erase]
  omega

theorem busy_locks (locks : Nat → Nat) :
    ({ l with locks := locks } : Ledger).busy n b + l.locks b = l.busy n b + locks b := by
  simp only [Ledger.busy]
  omega

theorem busy_congr {l' : Ledger} (hgrabbed : ∀ id, id / n = b → (id ∈ l'.grabbed ↔ id ∈ l.grabbed))
    (hlocks : l'.locks b = l.locks b) : l'.busy n b = l.busy n b := by
  have hfilter : l'.grabbed.filter (fun id => id / n = b) =
      l.grabbed.filter fun id => id / n = b := by
    ext id
    simp only [Finset.mem_filter]
    constructor
    · rintro ⟨hmem, hb⟩
      exact ⟨(hgrabbed id hb).mp hmem, hb⟩
    · rintro ⟨hmem, hb⟩
      exact ⟨(hgrabbed id hb).mpr hmem, hb⟩
  unfold Ledger.busy
  rw [hfilter, hlocks]

end Ledger

def Block (n : Nat) (l : Ledger) (b : Nat) : Option MemArenaSlotHeader → Prop
  | none => l.busy n b = 0
  | some header =>
      header.canary00 = 0xDE ∧ header.canary01 = 0xAD ∧ header.bitmap.WF ∧
        (∀ id, id / n = b → (header.bitmap.bitTest (id % n) = true ↔ id ∈ l.grabbed)) ∧
        header.busyCount = l.busy n b ∧ 0 < l.busy n b

structure Tracks (n : Nat) (l : Ledger) (a : MemArenaBlocks) : Prop where
  slotCount : a.slotCount = n
  pos : 0 < n
  initial : 0 < a.initial
  below : ∀ b, a.capacity ≤ b → a.data b = none
  block : ∀ b, Block n l b (a.data b)

theorem tracks_new {arenaSize : Nat} (slotSize : Nat) {n : Nat} (harena : 0 < arenaSize)
    (hn : 0 < n) : Tracks n {} (new arenaSize slotSize n) where
  slotCount := rfl
  pos := hn
  initial := harena
  below _ _ := rfl
  block _ := rfl

section Step

variable {n : Nat} {l l' : Ledger} {a : MemArenaBlocks} {b id : Nat} {h : MemArenaSlotHeader}

theorem Block.congr {header : Option MemArenaSlotHeader} (hblock : Block n l b header)
    (hgrabbed : ∀ id, id / n = b → (id ∈ l'.grabbed ↔ id ∈ l.grabbed))
    (hlocks : l'.locks b = l.locks b) : Block n l' b header := by
  have hbusy := @busy_congr l n b l' hgrabbed hlocks
  cases header with
  | none => exact hbusy.trans hblock
  | some header =>
      obtain ⟨h00, h01, hwf, hbits, hcount, hpos⟩ := hblock
      refine ⟨h00, h01, hwf, fun id hid => (hbits id hid).trans (hgrabbed id hid).symm, ?_, ?_⟩
      · rw [hbusy]
        exact hcount
      · rw [hbusy]
        exact hpos

theorem Tracks.setHeader (htracks : Tracks n l a) (hb : b < a.capacity)
    {header : Option MemArenaSlotHeader} {current : Nat} (hblock : Block n l' b header)
    (hgrabbed : ∀ id, id / n ≠ b → (id ∈ l'.grabbed ↔ id ∈ l.grabbed))
    (hlocks : ∀ b', b' ≠ b → l'.locks b' = l.locks b') :
    Tracks n l' { a with data := update a.data b header, current := current } where
  slotCount := htracks.slotCount
  pos := htracks.pos
  initial := htracks.initial
  below b' hb' := by
    have hne : b' ≠ b := by
      intro heq
      subst heq
      exact absurd hb (Nat.not_lt.mpr hb')
    exact (update_of_ne hne _ _).trans (htracks.below b' hb')
  block b' := by
    by_cases heq : b' = b
    · subst heq
      simpa only [update_self] using hblock
    · simp only [update_of_ne heq]
      exact (htracks.block b').congr (fun id hid => hgrabbed id (hid ▸ heq)) (hlocks b' heq)

theorem ends_header {header : MemArenaSlotHeader} {Q : MemArenaSlotHeader → MemArenaBlocks → Prop}
    {E : Fault → MemArenaBlocks → Prop} (hdata : a.data b = some header) (hcap : b ≤ a.capacity)
    (h00 : header.canary00 = 0xDE) (h01 : header.canary01 = 0xAD) :
    Ends (MemArenaBlocks.header b) a Q E ↔ Q header a := by
  simp [MemArenaBlocks.header, hdata, hcap, h00, h01]

theorem Tracks.header_ends (htracks : Tracks n l a) {Q : MemArenaSlotHeader → MemArenaBlocks → Prop}
    (hok : ∀ header, a.data b = some header → b < a.capacity → Q header a) :
    Ends (header b) a Q fun f _ => f ≠ .canary := by
  cases hdata : a.data b with
  | none => simp [header, hdata]
  | some header =>
      have hblock := htracks.block b
      rw [hdata] at hblock
      have hlt : b < a.capacity := by
        by_contra hge
        rw [htracks.below b (Nat.le_of_not_lt hge)] at hdata
        cases hdata
      rw [ends_header hdata (Nat.le_of_lt hlt) hblock.1 hblock.2.1]
      exact hok header hdata hlt

theorem Tracks.grown_eq (htracks : Tracks n l a) (b : Nat) :
    a.grown b = { a with capacity := if b ≥ a.capacity then b + a.initial else a.capacity } := by
  unfold MemArenaBlocks.grown
  split
  · have hdata : (fun i => if a.capacity ≤ i ∧ i < b + a.initial then none else a.data i) =
        a.data := by
      funext i
      split
      · rename_i hi
        exact (htracks.below i hi.1).symm
      · rfl
    simp only [hdata]
  · rfl

theorem Tracks.grown (htracks : Tracks n l a) (b : Nat) :
    Tracks n l (a.grown b) ∧ b < (a.grown b).capacity := by
  have hinitial := htracks.initial
  rw [htracks.grown_eq b]
  refine ⟨⟨htracks.slotCount, htracks.pos, hinitial, ?_, htracks.block⟩, ?_⟩
  · intro i hi
    apply htracks.below i
    simp only at hi
    split at hi <;> omega
  · simp only
    split <;> omega

theorem Block.getD {header : Option MemArenaSlotHeader} (hblock : Block n l b header) :
    (header.getD .init).canary00 = 0xDE ∧ (header.getD .init).canary01 = 0xAD ∧
      (header.getD .init).bitmap.WF ∧
      (∀ id, id / n = b → ((header.getD .init).bitmap.bitTest (id % n) = true ↔ id ∈ l.grabbed)) ∧
      (header.getD .init).busyCount = l.busy n b := by
  cases header with
  | none =>
      have hempty : l.busy n b = 0 := hblock
      refine ⟨rfl, rfl, DynBitMap.wf_new 64, fun id hid => ?_, by rw [hempty]; rfl⟩
      have hnone : id ∉ l.grabbed := by
        intro hmem
        have hcard := Nat.eq_zero_of_add_eq_zero_right hempty
        have hin : id ∈ l.grabbed.filter fun id => id / n = b :=
          Finset.mem_filter.mpr ⟨hmem, hid⟩
        rw [Finset.card_eq_zero.mp hcard] at hin
        exact absurd hin (Finset.notMem_empty id)
      simp [MemArenaSlotHeader.init, hnone]
  | some header =>
      obtain ⟨h00, h01, hwf, hbits, hcount, -⟩ := hblock
      exact ⟨h00, h01, hwf, hbits, hcount⟩

theorem created_eq (b : Nat) (a : MemArenaBlocks) : a.created b =
    { a with
      data := update a.data b (some ((a.data b).getD .init))
      current := if (a.data b).isNone then a.current + 1 else a.current } := by
  unfold created
  split
  · rename_i hdata
    rw [hdata]
    rfl
  · rename_i header hdata
    have hsame : update a.data b (some ((a.data b).getD .init)) = a.data := by
      rw [hdata, Option.getD_some, ← hdata, update_eq_self]
    rw [hsame, hdata]
    rfl

theorem Block.grab {header : Option MemArenaSlotHeader} (hblock : Block n l b header)
    (hb : id / n = b) :
    Block n { l with grabbed := insert id l.grabbed } b
      (some { header.getD .init with
        bitmap := (header.getD .init).bitmap.bitSet (id % n)
        busyCount :=
          if (header.getD .init).bitmap.bitTest (id % n) then (header.getD .init).busyCount
          else (header.getD .init).busyCount + 1 }) := by
  obtain ⟨h00, h01, hwf, hbits, hcount⟩ := hblock.getD
  have hbusy := @busy_grab l n b id hb
  have hmem := hbits id hb
  have hpos : id ∈ l.grabbed → 0 < l.busy n b := by
    intro hin
    have hfilter : id ∈ l.grabbed.filter fun id => id / n = b := Finset.mem_filter.mpr ⟨hin, hb⟩
    have hcard := Finset.card_pos.mpr ⟨id, hfilter⟩
    unfold Ledger.busy
    omega
  refine ⟨h00, h01, hwf.bitSet _, fun j hj => ?_, ?_, ?_⟩
  · simp only [hwf.bitTest_bitSet, Finset.mem_insert, Bool.or_eq_true, decide_eq_true_eq,
      hbits j hj, MemArena.offset_eq_iff (hj.trans hb.symm)]
  · rw [hbusy]
    by_cases hin : id ∈ l.grabbed
    · rw [if_pos hin, if_pos (hmem.mpr hin), hcount]
    · rw [if_neg hin, if_neg (mt hmem.mp hin), hcount]
      rfl
  · rw [hbusy]
    split
    · exact hpos ‹_›
    · omega

theorem grab_ends (htracks : Tracks n l a) (id : Int) :
    Ends (grabByID id) a (fun _ t => Tracks n (Op.account n l (.grab id)) t)
      fun f _ => f ≠ .canary := by
  unfold grabByID Op.account
  by_cases hneg : id < 0
  · simpa [hneg] using htracks
  · obtain ⟨htracks₁, hb⟩ := htracks.grown (id.toNat / n)
    have hblock := htracks₁.block (id.toNat / n)
    have hn := htracks.slotCount
    obtain ⟨h00, h01, -, -, -⟩ := hblock.getD
    simp only [if_neg hneg, ends_bind, ends_get, ends_modify, hn, created_eq]
    refine (ends_header ?_ ?_ h00 h01).mpr ?_
    · exact update_self _ _ _
    · exact Nat.le_of_lt hb
    simp only [MemArenaBlocks.setHeader, ends_modify, ends_pure, update_idem]
    apply htracks₁.setHeader hb (hblock.grab rfl)
    · intro j hj
      have hne : j ≠ id.toNat := fun heq => hj (by rw [heq])
      simp [hne]
    · intro b' _
      rfl

theorem Block.back {header : MemArenaSlotHeader} (h00 : header.canary00 = 0xDE)
    (h01 : header.canary01 = 0xAD) (hwf : header.bitmap.WF)
    (hbits : ∀ id, id / n = b → (header.bitmap.bitTest (id % n) = true ↔ id ∈ l.grabbed))
    (hcount : header.busyCount = l.busy n b) :
    Block n l b (if header.busyCount = 0 then none else some header) := by
  split
  · rename_i hzero
    exact Int.ofNat_eq_zero.mp (hcount.symm.trans hzero)
  · refine ⟨h00, h01, hwf, hbits, hcount, ?_⟩
    omega

theorem release_ends (htracks : Tracks n l a) (id : Int) :
    Ends (releaseByID id) a (fun _ t => Tracks n (Op.account n l (.release id)) t)
      fun f _ => f ≠ .canary := by
  unfold releaseByID Op.account
  by_cases hneg : id < 0
  · simpa [hneg] using htracks
  · simp only [if_neg hneg, ends_bind, ends_get, htracks.slotCount]
    apply htracks.header_ends
    intro header hdata hlt
    have hblock := htracks.block (id.toNat / n)
    rw [hdata] at hblock
    obtain ⟨h00, h01, hwf, hbits, hcount, -⟩ := hblock
    rw [ends_assertThat]
    refine ⟨fun hset => ?_, fun _ => by simp⟩
    have hmem := (hbits id.toNat rfl).mp hset
    have hbusy := @busy_release l n (id.toNat / n) id.toNat rfl hmem
    simp only [MemArenaBlocks.setHeader, ends_modify]
    apply htracks.setHeader hlt
    · apply @Block.back n _ _ { header with
        bitmap := header.bitmap.bitClear (id.toNat % n)
        busyCount := header.busyCount - 1 }
      · exact h00
      · exact h01
      · exact hwf.bitClear _
      · intro j hj
        simp [hwf.bitTest_bitClear, hbits j hj, MemArena.offset_eq_iff hj]
      · simp only [hcount]
        omega
    · intro j hj
      have hne : j ≠ id.toNat := fun heq => hj (by rw [heq])
      simp [hne]
    · intro b' _
      rfl

theorem lock_ends (htracks : Tracks n l a) (id : Int) :
    Ends (lockByID id) a (fun _ t => Tracks n (Op.account n l (.lock id)) t)
      fun f _ => f ≠ .canary := by
  unfold lockByID Op.account
  by_cases hneg : id < 0
  · simpa [hneg] using htracks
  · simp only [if_neg hneg, ends_bind, ends_get, htracks.slotCount]
    apply htracks.header_ends
    intro header hdata hlt
    have hblock := htracks.block (id.toNat / n)
    rw [hdata] at hblock
    obtain ⟨h00, h01, hwf, hbits, hcount, hpos⟩ := hblock
    have hbusy := @busy_locks l n (id.toNat / n)
      (update l.locks (id.toNat / n) (l.locks (id.toNat / n) + 1))
    rw [update_self] at hbusy
    simp only [MemArenaBlocks.setHeader, ends_modify]
    apply htracks.setHeader hlt
    · refine ⟨h00, h01, hwf, hbits, ?_, ?_⟩
      · simp only [hcount]
        omega
      · omega
    · intro j _
      rfl
    · intro b' hne
      exact update_of_ne hne _ _

theorem unlock_ends (htracks : Tracks n l a) (id : Int) (hpaired : Op.Paired n l (.unlock id)) :
    Ends (unlockByID id) a (fun _ t => Tracks n (Op.account n l (.unlock id)) t)
      fun f _ => f ≠ .canary := by
  unfold unlockByID Op.account
  by_cases hneg : id < 0
  · simpa [hneg] using htracks
  · have htaken : 0 < l.locks (id.toNat / n) := hpaired (by omega)
    simp only [if_neg hneg, ends_bind, ends_get, htracks.slotCount]
    apply htracks.header_ends
    intro header hdata hlt
    have hblock := htracks.block (id.toNat / n)
    rw [hdata] at hblock
    obtain ⟨h00, h01, hwf, hbits, hcount, hpos⟩ := hblock
    have hbusy := @busy_locks l n (id.toNat / n)
      (update l.locks (id.toNat / n) (l.locks (id.toNat / n) - 1))
    rw [update_self] at hbusy
    simp only [MemArenaBlocks.setHeader, ends_modify, ends_pure]
    apply htracks.setHeader hlt
    · apply @Block.back n _ _ { header with busyCount := header.busyCount - 1 }
      · exact h00
      · exact h01
      · exact hwf
      · exact hbits
      · simp only [hcount]
        omega
    · intro j _
      rfl
    · intro b' hne
      exact update_of_ne hne _ _

/-- **One operation** keeps the arena in step with the ledger. -/
theorem handle_ends (op : Op) (l : Ledger) (a : MemArenaBlocks) (htracks : Tracks n l a)
    (hpaired : op.Paired n l) :
    Ends (handle op) a (fun _ => Tracks n (op.account n l)) fun f _ => f ≠ .canary := by
  cases op with
  | grab id =>
      rw [handle, ends_bind]
      exact grab_ends htracks id
  | find id => exact htracks
  | release id => exact release_ends htracks id
  | lock id => exact lock_ends htracks id
  | unlock id =>
      rw [handle, ends_bind]
      exact unlock_ends htracks id hpaired

/-! ## What the ledger says of an arena -/

theorem Tracks.findByID_eq_some (htracks : Tracks n l a) {id : Int} {p : Ptr} :
    a.findByID id = some p ↔
      (0 ≤ id ∧ id.toNat ∈ l.grabbed) ∧ p = a.slotPtr (id.toNat / n) (id.toNat % n) := by
  unfold findByID
  by_cases hneg : id < 0
  · rw [if_pos hneg]
    constructor
    · nofun
    · rintro ⟨⟨hle, -⟩, -⟩
      omega
  · have hblock := htracks.block (id.toNat / n)
    have hbelow := htracks.below (id.toNat / n)
    have hle : 0 ≤ id := by omega
    simp only [if_neg hneg, htracks.slotCount]
    cases hdata : a.data (id.toNat / n) with
    | none =>
        rw [hdata] at hblock
        have hempty := hblock.getD.2.2.2.1 id.toNat rfl
        have hnone : id.toNat ∉ l.grabbed := by
          intro hmem
          have hbit := hempty.mpr hmem
          simp [MemArenaSlotHeader.init] at hbit
        simp [hnone]
    | some header =>
        rw [hdata] at hblock
        obtain ⟨-, -, -, hbits, -, -⟩ := hblock
        have hlt : ¬ id.toNat / n ≥ a.capacity := by
          intro hge
          rw [hbelow hge] at hdata
          cases hdata
        rw [if_neg hlt]
        simp only
        by_cases hbit : header.bitmap.bitTest (id.toNat % n) = true
        · simp [hbit, (hbits id.toNat rfl).mp hbit, hle, eq_comm]
        · simp [hbit, mt (hbits id.toNat rfl).mpr hbit]

theorem slot_inside (htracks : Tracks n l a) (id : Nat) :
    id % n * a.slotSize + slotHeaderSize + a.slotSize ≤ a.areaCap := by
  have hlt : id % n < n := Nat.mod_lt id htracks.pos
  have hslots : (id % n + 1) * a.slotSize ≤ (a.slotCount + 1) * (a.slotSize + 1) := by
    rw [htracks.slotCount]
    exact Nat.mul_le_mul (by omega) (by omega)
  rw [Nat.add_mul] at hslots
  unfold areaCap
  omega

theorem Tracks.accounts (htracks : Tracks n l a) : Accounts l a where
  busyCount b header hdata := by
    have hblock := htracks.block b
    rw [hdata] at hblock
    rw [htracks.slotCount]
    exact hblock.2.2.2.2.1
  freed b := by
    have hblock := htracks.block b
    rw [htracks.slotCount]
    cases hdata : a.data b with
    | none =>
        rw [hdata] at hblock
        exact ⟨fun _ => hblock, fun _ => rfl⟩
    | some header =>
        rw [hdata] at hblock
        obtain ⟨-, -, -, -, -, hpos⟩ := hblock
        simp
        omega
  find id := by
    rw [Option.isSome_iff_exists]
    constructor
    · rintro ⟨p, hp⟩
      exact (htracks.findByID_eq_some.mp hp).1
    · intro hmem
      exact ⟨_, htracks.findByID_eq_some.mpr ⟨hmem, rfl⟩⟩
  inside id p hp := by
    obtain ⟨⟨-, hmem⟩, rfl⟩ := htracks.findByID_eq_some.mp hp
    refine ⟨?_, Nat.le_add_left _ _, slot_inside htracks id.toNat⟩
    have hblock := htracks.block (id.toNat / n)
    cases hdata : a.data (id.toNat / n) with
    | none =>
        rw [hdata] at hblock
        have hbit := (hblock.getD.2.2.2.1 id.toNat rfl).mpr hmem
        simp [MemArenaSlotHeader.init] at hbit
    | some header => simp [slotPtr, hdata]
  disjoint id id' p p' hne hp hp' hsame := by
    obtain ⟨⟨hle, -⟩, rfl⟩ := htracks.findByID_eq_some.mp hp
    obtain ⟨⟨hle', -⟩, rfl⟩ := htracks.findByID_eq_some.mp hp'
    have hdiv : id.toNat / n = id'.toNat / n := hsame
    have hoff : id.toNat % n ≠ id'.toNat % n := by
      intro heq
      have hid := (MemArena.offset_eq_iff hdiv).mp heq
      omega
    simp only [slotPtr]
    rcases Nat.lt_or_gt_of_ne hoff with hlt | hlt
    · have hslots := Nat.mul_le_mul_right a.slotSize (Nat.succ_le_of_lt hlt)
      rw [Nat.succ_mul] at hslots
      omega
    · have hslots := Nat.mul_le_mul_right a.slotSize (Nat.succ_le_of_lt hlt)
      rw [Nat.succ_mul] at hslots
      omega

end Step

/-! ## Runs -/

/-- **The accounts of an arena.**  Along a run in which no lock is given back that was not taken,
`busy_count` is the number of slots grabbed and locks held, a block is there iff that is not
zero, and exactly the ids that are grabbed are found, in regions of their own. If the run is
stopped, it is by the assertion that a block or a slot is in use. -/
theorem run_accounts (arenaSize slotSize slotCount : Nat) (harena : 0 < arenaSize)
    (hcount : 0 < slotCount) (ops : List Op)
    (hpaired : MeetsAlong handle (fun l op => op.account slotCount l)
      (fun l _ op => op.Paired slotCount l) {} (.live (new arenaSize slotSize slotCount)) ops) :
    Holds (Accounts (ops.foldl (fun l op => op.account slotCount l) {})) (fun f _ => f ≠ .canary)
      (run handle (.live (new arenaSize slotSize slotCount)) ops) := by
  have hrun := refines_run (R := Tracks slotCount) (fun op l a => @handle_ends slotCount op l a)
    (c := .live (new arenaSize slotSize slotCount)) (tracks_new slotSize harena hcount) ops hpaired
  apply hrun.mono
  · intro a htracks
    exact htracks.accounts
  · intro f a hf
    exact hf

/-- A block lives on its lock when its slot is released, and goes with the lock. -/
theorem run_accounts_of_lock :
    Holds (Accounts ([Op.grab 0, .lock 1, .grab 5, .release 0, .find 5, .unlock 0].foldl
        (fun l op => op.account 2 l) {})) (fun f _ => f ≠ .canary)
      (run handle (.live (new 1 8 2))
        [.grab 0, .lock 1, .grab 5, .release 0, .find 5, .unlock 0]) :=
  run_accounts 1 8 2 (by decide) (by decide)
    [.grab 0, .lock 1, .grab 5, .release 0, .find 5, .unlock 0] (by decide)

/-- A lock that nobody took is given back: the block goes, and the id that was grabbed with
it. -/
theorem unlock_frees_a_grabbed_slot :
    ¬ Holds (Accounts ([Op.grab 0, .unlock 0].foldl (fun l op => op.account 1 l) {}))
      (fun f _ => f ≠ .canary) (run handle (.live (new 1 8 1)) [.grab 0, .unlock 0]) := by
  intro h
  have haccounts : Accounts ([Op.grab 0, .unlock 0].foldl (fun l op => op.account 1 l) {})
      (run handle (.live (new 1 8 1)) [.grab 0, .unlock 0]).state := h
  exact absurd ((haccounts.find 0).mpr (by decide)) (by decide)

/-! ## Without locks -/

/-- What `MemArena` has of an arena. -/
def toMemArena (a : MemArenaBlocks) : MemArena where
  capacity := a.capacity
  initial := a.initial
  current := a.current
  slotCount := a.slotCount
  data := a.data

theorem grab_toMemArena {n : Nat} {l : Ledger} {a : MemArenaBlocks} (htracks : Tracks n l a)
    {id : Int} (hid : 0 ≤ id) :
    Ends (grabByID id) a (fun _ t => a.toMemArena.grabByID id.toNat = .ok t.toMemArena)
      fun _ _ => False := by
  have hneg : ¬ id < 0 := by omega
  have hn := htracks.slotCount
  obtain ⟨-, hb⟩ := htracks.grown (id.toNat / n)
  obtain ⟨h00, h01, -, -, -⟩ := (htracks.block (id.toNat / n)).getD
  rw [htracks.grown_eq] at hb
  simp only [grabByID, if_neg hneg, ends_bind, ends_get, ends_modify, hn, created_eq,
    htracks.grown_eq]
  refine (ends_header ?_ ?_ h00 h01).mpr ?_
  · exact update_self _ _ _
  · exact Nat.le_of_lt hb
  simp only [setHeader, ends_modify, ends_pure, update_idem]
  have hcanaries : ¬ (((a.data (id.toNat / n)).getD .init).canary00 ≠ 0xDE ∨
      ((a.data (id.toNat / n)).getD .init).canary01 ≠ 0xAD) := by
    simp [h00, h01]
  simp only [MemArena.grabByID, toMemArena, hn, if_neg hcanaries]

theorem release_toMemArena {n : Nat} {l : Ledger} {a : MemArenaBlocks} (htracks : Tracks n l a)
    {id : Int} (hid : 0 ≤ id) :
    Ends (releaseByID id) a (fun _ t => a.toMemArena.releaseByID id.toNat = .ok t.toMemArena)
      fun _ _ => ∃ f, a.toMemArena.releaseByID id.toNat = .error f := by
  have hneg : ¬ id < 0 := by omega
  have hn := htracks.slotCount
  have hblock := htracks.block (id.toNat / n)
  have hbelow := htracks.below (id.toNat / n)
  simp only [releaseByID, MemArena.releaseByID, if_neg hneg, ends_bind, ends_get, hn, toMemArena]
  cases hdata : a.data (id.toNat / n) with
  | none => simp [header, hdata]
  | some header =>
      rw [hdata] at hblock hbelow
      obtain ⟨h00, h01, -, -, -, -⟩ := hblock
      have hcap : id.toNat / n ≤ a.capacity := by
        by_contra hge
        cases hbelow (by omega)
      rw [ends_header hdata hcap h00 h01, ends_assertThat]
      have hcanaries : ¬ (header.canary00 ≠ 0xDE ∨ header.canary01 ≠ 0xAD) := by
        simp [h00, h01]
      simp only [if_neg hcanaries]
      constructor
      · intro hset
        simp [setHeader, hset, hn]
      · intro hclear
        simp [hclear]

end MemArenaBlocks

end BrbData
