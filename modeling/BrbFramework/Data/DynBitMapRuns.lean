import BrbFramework.Data.DynBitMap
import BrbFramework.Lib.Runs
import Mathlib.Algebra.Group.Int.Defs
import Mathlib.Algebra.GroupWithZero.Nat
import Mathlib.Data.Finset.Card

/-!
# Bitmaps over whole runs

The operations here take the `long` that the caller passes, and an access
outside the table stops the model. `run_agrees` compares a run of them with
the set of the indices that were set and not cleared.

`DynBitMapBitClearAll` clears the table and leaves `bitset_count` alone, so the
count is right only while nothing is cleared that way. An index below zero is
not looked at before the table is.
-/

namespace BrbData

open Handler Runs List

namespace DynBitMap

/-- An access to a byte that is not in the table. -/
inductive Fault
  | outside
  deriving DecidableEq, Repr

abbrev M := EStateM Fault DynBitMap

/-- `BITMASK_BIN`, which reads and writes the byte of the index. -/
def access (index : Int64) : M Nat := do
  let m ← get
  assertThat (0 ≤ index.toInt ∧ index.toNatClampNeg / 8 < m.data.length) .outside
  return index.toNatClampNeg

/-- `wanted_offset` of `DynBitMapGrowIfNeeded`, which wraps at the end of a `long`. -/
def wantedOffset (wantedIndex : Int64) : Int64 := (wantedIndex + 7) / 8 + 1

/-- `DynBitMapGrowIfNeeded`. -/
def growIfNeededAt (wantedIndex : Int64) (m : DynBitMap) : DynBitMap :=
  let newSize := ((wantedOffset wantedIndex).toInt + m.growRate).toNat
  if (m.capacity : Int) < (wantedOffset wantedIndex).toInt then
    { m with
      data := m.data.take m.capacity ++ List.replicate (newSize - m.capacity) 0#8
      capacity := newSize }
  else m

/-- `DynBitMapBitSet`. -/
def bitSetAt (index : Int64) : M PUnit := do
  modify fun m => { m with
    higherSeen := if (m.higherSeen : Int) < index.toInt then index.toNatClampNeg else m.higherSeen }
  modify (growIfNeededAt index)
  let i ← access index
  modify fun m =>
    if m.bit i then m.maskSet i
    else { m.maskSet i with bitsetCount := (m.maskSet i).bitsetCount + 1 }

/-- `DynBitMapBitTest`. -/
def bitTestAt (index : Int64) : M Bool := do
  let m ← get
  if (m.higherSeen : Int) < index.toInt then return false
  let i ← access index
  return m.bit i

/-- `DynBitMapBitClear`. -/
def bitClearAt (index : Int64) : M PUnit := do
  let m ← get
  if (m.higherSeen : Int) < index.toInt then return
  let i ← access index
  modify fun m =>
    if m.bit i then { m.maskClear i with bitsetCount := (m.maskClear i).bitsetCount - 1 }
    else m.maskClear i

/-- `DynBitMapBitClearAll`. -/
def bitClearAll : M PUnit := do
  let m ← get
  assertThat (m.capacity ≤ m.data.length) .outside
  set { m with data := List.replicate m.capacity 0#8 ++ m.data.drop m.capacity }

inductive Op
  | bitSet (index : Int64)
  | bitClear (index : Int64)
  | bitTest (index : Int64)
  | bitClearAll
  | grow (wantedIndex : Int64)
  deriving DecidableEq

def handle : Op → M PUnit
  | .bitSet index => bitSetAt index
  | .bitClear index => bitClearAt index
  | .bitTest index => do let _ ← bitTestAt index
  | .bitClearAll => bitClearAll
  | .grow wantedIndex => modify (growIfNeededAt wantedIndex)

/-- The indices set and not cleared since the last clear of all. -/
def Op.members (members : Finset Int) : Op → Finset Int
  | .bitSet index => insert index.toInt members
  | .bitClear index => members.erase index.toInt
  | .bitClearAll => ∅
  | .bitTest _ | .grow _ => members

/-- The bitmap answers for the set: it counts its elements, bounds them, and every test that
is not below zero stays in the table. -/
structure Agrees (members : Finset Int) (m : DynBitMap) : Prop where
  test : ∀ index : Int64, 0 ≤ index.toInt →
    Ends (bitTestAt index) m (fun b m' => m' = m ∧ (b = true ↔ index.toInt ∈ members))
      fun _ _ => False
  count : m.bitsetCount = members.card
  bound : ∀ i ∈ members, i ≤ m.higherSeen

def Op.Fits (_ : Finset Int) (m : DynBitMap) : Op → Prop
  | .bitSet index => 0 ≤ index.toInt ∧ index.toInt + 7 < 2 ^ 63
  | .bitClear index | .bitTest index => 0 ≤ index.toInt
  | .bitClearAll => m.bitsetCount = 0
  | .grow _ => True

instance (members : Finset Int) (m : DynBitMap) (op : Op) : Decidable (op.Fits members m) := by
  cases op <;> unfold Op.Fits <;> infer_instance

/-! ## One operation -/

structure Tracks (members : Finset Int) (m : DynBitMap) : Prop extends m.WF where
  nonempty : 0 < m.data.length
  room : m.higherSeen = 0 ∨ m.higherSeen / 8 < m.capacity
  natural : ∀ i ∈ members, 0 ≤ i
  bit_iff : ∀ i : Nat, m.bit i = true ↔ (i : Int) ∈ members
  count : m.bitsetCount = members.card

theorem tracks_new (growRate : Nat) : Tracks ∅ (new growRate) where
  toWF := wf_new growRate
  nonempty := by simp [new]
  room := .inl rfl
  natural := by simp
  bit_iff i := by simp [bit_new]
  count := rfl

section Step

variable {members : Finset Int} {m : DynBitMap} {index : Int64}

theorem natCast_index (h : 0 ≤ index.toInt) : (index.toNatClampNeg : Int) = index.toInt :=
  Int.toNat_of_nonneg h

theorem ends_access {Q : Nat → DynBitMap → Prop} (h : 0 ≤ index.toInt)
    (hroom : index.toNatClampNeg / 8 < m.data.length) :
    Ends (access index) m Q (fun _ _ => False) ↔ Q index.toNatClampNeg m := by
  simp [access, h, hroom]

theorem wantedOffset_toInt (h : 0 ≤ index.toInt) (hlast : index.toInt + 7 < 2 ^ 63) :
    (wantedOffset index).toInt = ((index.toNatClampNeg + 7) / 8 + 1 : Nat) := by
  have hindex := natCast_index h
  have hadd : (index + 7).toInt = index.toInt + 7 := by
    rw [Int64.toInt_add, show (7 : Int64).toInt = 7 from rfl]
    exact Int.bmod_eq_of_le (by omega) (by omega)
  have hdiv : ((index + 7) / 8).toInt = (index.toInt + 7) / 8 := by
    rw [Int64.toInt_div_of_ne_right _ _ (by decide), hadd, show (8 : Int64).toInt = 8 from rfl]
    exact Int.tdiv_eq_ediv_of_nonneg (by omega)
  rw [wantedOffset, Int64.toInt_add, hdiv, Int64.toInt_one,
    Int.bmod_eq_of_le (by omega) (by omega)]
  omega

theorem growIfNeededAt_of {i : Nat}
    (h : (wantedOffset index).toInt = ((i + 7) / 8 + 1 : Nat)) :
    growIfNeededAt index m = m.growIfNeeded i := by
  unfold growIfNeededAt growIfNeeded
  rw [h]
  norm_cast

theorem growIfNeededAt_cases (index : Int64) (m : DynBitMap) :
    growIfNeededAt index m = m ∨ ∃ i, growIfNeededAt index m = m.growIfNeeded i := by
  by_cases hpos : 0 < (wantedOffset index).toInt
  · right
    refine ⟨8 * ((wantedOffset index).toInt - 1).toNat, growIfNeededAt_of ?_⟩
    omega
  · left
    unfold growIfNeededAt
    simp only
    rw [if_neg (by omega)]

theorem WF.growIfNeeded (h : m.WF) (i : Nat) : (m.growIfNeeded i).WF where
  allocated := growIfNeeded_allocated i h.allocated
  inside j hj := by
    rw [h.growIfNeeded_bit] at hj
    exact Nat.lt_of_lt_of_le (h.inside j hj) (growIfNeeded_room i).2
  clear j hj := by
    rw [growIfNeeded_higherSeen] at hj
    rw [h.growIfNeeded_bit, h.clear j hj]

theorem growIfNeeded_bitsetCount (i : Nat) : (m.growIfNeeded i).bitsetCount = m.bitsetCount := by
  unfold growIfNeeded
  simp only
  split <;> rfl

theorem growIfNeeded_nonempty (h : 0 < m.data.length) (i : Nat) :
    0 < (m.growIfNeeded i).data.length := by
  unfold growIfNeeded
  simp only
  split
  · simp only [length_append, length_replicate]
    omega
  · exact h

theorem Tracks.grow (h : Tracks members m) (index : Int64) :
    Tracks members (growIfNeededAt index m) := by
  rcases growIfNeededAt_cases index m with heq | ⟨i, heq⟩
  · rw [heq]
    exact h
  · rw [heq]
    exact {
      toWF := h.toWF.growIfNeeded i
      nonempty := growIfNeeded_nonempty h.nonempty i
      room := by
        rw [growIfNeeded_higherSeen]
        exact h.room.imp_right fun hroom => Nat.lt_of_lt_of_le hroom (growIfNeeded_room i).2
      natural := h.natural
      bit_iff := fun j => by rw [h.toWF.growIfNeeded_bit, h.bit_iff]
      count := by rw [growIfNeeded_bitsetCount, h.count] }

/-! ### Setting -/

theorem bitSetAt_ends (h : 0 ≤ index.toInt) (hlast : index.toInt + 7 < 2 ^ 63)
    (halloc : m.capacity ≤ m.data.length) :
    Ends (bitSetAt index) m (fun _ m' => m' = m.bitSet index.toNatClampNeg) fun _ _ => False := by
  have hindex := natCast_index h
  obtain ⟨i, hi⟩ : ∃ i, index.toNatClampNeg = i := ⟨_, rfl⟩
  rw [hi] at hindex
  have hseen : (if (m.higherSeen : Int) < index.toInt then i else m.higherSeen) =
      if m.higherSeen < i then i else m.higherSeen := by
    simp only [← hindex, Int.ofNat_lt]
  simp only [bitSetAt, ends_bind, ends_modify]
  rw [hi, hseen, growIfNeededAt_of (by rw [wantedOffset_toInt h hlast, hi])]
  have hroom : i / 8 < (m.raised i).data.length :=
    Nat.lt_of_lt_of_le (growIfNeeded_room i).1 (growIfNeeded_allocated i halloc)
  rw [ends_access h (by rw [hi]; exact hroom), hi]
  rfl

theorem WF.bitSet_bitsetCount (h : m.WF) (i : Nat) :
    (m.bitSet i).bitsetCount = m.bitsetCount + if m.bit i then 0 else 1 := by
  have hbit : (m.raised i).bit i = m.bit i := (h.raise i).growIfNeeded_bit i i
  have hcount : (m.raised i).bitsetCount = m.bitsetCount := growIfNeeded_bitsetCount i
  have hset : m.bitSet i = if (m.raised i).bit i then (m.raised i).maskSet i else
      { (m.raised i).maskSet i with bitsetCount := ((m.raised i).maskSet i).bitsetCount + 1 } :=
    rfl
  rw [hset, hbit]
  split
  · exact hcount.trans (Int.add_zero _).symm
  · exact congrArg (· + 1) hcount

theorem Tracks.bitSet (h : Tracks members m) (i : Nat) :
    Tracks (insert (i : Int) members) (m.bitSet i) where
  toWF := h.toWF.bitSet i
  nonempty := by
    rw [bitSet_view (·.data) (fun _ _ => rfl)]
    simp only [maskSet, length_set]
    exact growIfNeeded_nonempty (m := { m with
      higherSeen := if m.higherSeen < i then i else m.higherSeen }) h.nonempty i
  room := by
    have hroom := growIfNeeded_room
      (m := { m with higherSeen := if m.higherSeen < i then i else m.higherSeen }) i
    rw [bitSet_higherSeen, bitSet_view (·.capacity) (fun _ _ => rfl)]
    change _ ∨ _ < (m.raised i).capacity
    rcases Nat.le_total m.higherSeen i with hle | hle
    · rw [Nat.max_eq_right hle]
      exact .inr hroom.1
    · rw [Nat.max_eq_left hle]
      exact h.room.imp_right fun hold => Nat.lt_of_lt_of_le hold hroom.2
  natural j hj := by
    rcases Finset.mem_insert.mp hj with rfl | hj
    · exact Int.natCast_nonneg i
    · exact h.natural j hj
  bit_iff j := by
    rw [h.toWF.bit_bitSet, Bool.or_eq_true, h.bit_iff, Finset.mem_insert, decide_eq_true_eq,
      Int.natCast_inj]
  count := by
    rw [h.toWF.bitSet_bitsetCount, h.count]
    by_cases hbit : m.bit i = true
    · rw [if_pos hbit, Finset.insert_eq_of_mem ((h.bit_iff i).mp hbit), Int.add_zero]
    · rw [if_neg hbit, Finset.card_insert_of_notMem fun hmem => hbit ((h.bit_iff i).mpr hmem)]
      rfl

/-! ### Clearing -/

theorem Tracks.seen_room (h : Tracks members m) {i : Nat} (hseen : i ≤ m.higherSeen) :
    i / 8 < m.data.length := by
  have halloc := h.allocated
  have hnonempty := h.nonempty
  have hle : i / 8 ≤ m.higherSeen / 8 := Nat.div_le_div_right hseen
  rcases h.room with hzero | hroom
  · rw [hzero] at hle
    omega
  · omega

theorem bitClearAt_ends (h : Tracks members m) (hindex : 0 ≤ index.toInt) :
    Ends (bitClearAt index) m (fun _ m' => m' = m.bitClear index.toNatClampNeg)
      fun _ _ => False := by
  have hcast := natCast_index hindex
  simp only [bitClearAt, ends_bind, ends_get]
  by_cases hseen : (m.higherSeen : Int) < index.toInt
  · rw [if_pos hseen, ends_pure, bitClear, if_pos (by omega)]
  · have hle : ¬ m.higherSeen < index.toNatClampNeg := by omega
    rw [if_neg hseen, ends_bind, ends_access hindex (h.seen_room (by omega)), ends_modify,
      bitClear, if_neg hle]

theorem bitClear_bitsetCount (m : DynBitMap) (i : Nat)
    (hclear : m.higherSeen < i → m.bit i = false) :
    (m.bitClear i).bitsetCount = m.bitsetCount - if m.bit i then 1 else 0 := by
  unfold DynBitMap.bitClear
  split
  · simp [hclear ‹_›]
  · simp only
    split
    · rfl
    · exact (Int.sub_zero _).symm

theorem Tracks.bitClear (h : Tracks members m) (i : Nat) :
    Tracks (members.erase (i : Int)) (m.bitClear i) where
  toWF := h.toWF.bitClear i
  nonempty := by
    by_cases hseen : m.higherSeen < i
    · rw [DynBitMap.bitClear, if_pos hseen]
      exact h.nonempty
    · rw [bitClear_view (·.data) (fun _ _ => rfl) hseen, maskClear, length_set]
      exact h.nonempty
  room := by
    by_cases hseen : m.higherSeen < i
    · rw [DynBitMap.bitClear, if_pos hseen]
      exact h.room
    · rw [bitClear_view (·.higherSeen) (fun _ _ => rfl) hseen,
        bitClear_view (·.capacity) (fun _ _ => rfl) hseen]
      exact h.room
  natural j hj := h.natural j (Finset.mem_of_mem_erase hj)
  bit_iff j := by
    rw [h.toWF.bit_bitClear, Bool.and_eq_true, h.bit_iff, Finset.mem_erase, decide_eq_true_eq,
      Ne, Ne, Int.natCast_inj]
  count := by
    rw [bitClear_bitsetCount m i (h.clear i), h.count]
    by_cases hbit : m.bit i = true
    · have hmem := (h.bit_iff i).mp hbit
      have hpos := Finset.card_pos.mpr ⟨_, hmem⟩
      rw [if_pos hbit, Finset.card_erase_of_mem hmem]
      omega
    · rw [if_neg hbit, Finset.erase_eq_of_notMem fun hmem => hbit ((h.bit_iff i).mpr hmem)]
      exact Int.sub_zero _

/-- The table after `DynBitMapBitClearAll`. -/
def cleared (m : DynBitMap) : DynBitMap :=
  { m with data := List.replicate m.capacity 0#8 ++ m.data.drop m.capacity }

theorem WF.bit_cleared (h : m.WF) (i : Nat) : m.cleared.bit i = false := by
  unfold bit cleared
  by_cases hbyte : i / 8 < m.capacity
  · rw [getD_append _ _ _ _ (by rw [length_replicate]; exact hbyte)]
    exact bit_replicate _ _ _
  · have hold : m.bit i = false := Bool.eq_false_iff.2 fun hset => hbyte (h.inside i hset)
    rw [getD_append_right _ _ _ _ (by rw [length_replicate]; omega),
      length_replicate, getD_eq_getElem?_getD, getElem?_drop,
      Nat.add_sub_cancel' (by omega), ← getD_eq_getElem?_getD]
    exact hold

theorem length_cleared (h : m.capacity ≤ m.data.length) :
    m.cleared.data.length = m.data.length := by
  simp only [cleared, length_append, length_replicate, length_drop]
  omega

theorem bitClearAll_ends (h : m.capacity ≤ m.data.length) :
    Ends bitClearAll m (fun _ m' => m' = m.cleared) fun _ _ => False := by
  simp [bitClearAll, cleared, h]

theorem Tracks.cleared (h : Tracks members m) (hcount : m.bitsetCount = 0) :
    Tracks ∅ m.cleared where
  allocated := by
    rw [length_cleared h.allocated]
    exact h.allocated
  inside i hi := by simp [h.toWF.bit_cleared] at hi
  clear i _ := h.toWF.bit_cleared i
  nonempty := by
    rw [length_cleared h.allocated]
    exact h.nonempty
  room := h.room
  natural := by simp
  bit_iff i := by simp [h.toWF.bit_cleared]
  count := hcount

/-! ### Testing -/

theorem bitTestAt_ends (h : Tracks members m) (hindex : 0 ≤ index.toInt) :
    Ends (bitTestAt index) m (fun b m' => m' = m ∧ (b = true ↔ index.toInt ∈ members))
      fun _ _ => False := by
  have hcast := natCast_index hindex
  have hbit := h.bit_iff index.toNatClampNeg
  rw [hcast] at hbit
  simp only [bitTestAt, ends_bind, ends_get]
  by_cases hseen : (m.higherSeen : Int) < index.toInt
  · rw [if_pos hseen, ends_pure, ← hbit, h.clear _ (by omega)]
    exact ⟨rfl, Iff.rfl⟩
  · rw [if_neg hseen, ends_bind, ends_access hindex (h.seen_room (by omega)), ends_pure]
    exact ⟨rfl, hbit⟩

theorem Tracks.agrees (h : Tracks members m) : Agrees members m where
  test _ hindex := bitTestAt_ends h hindex
  count := h.count
  bound i hi := by
    by_contra hlt
    have hcast : (i.toNat : Int) = i := Int.toNat_of_nonneg (h.natural i hi)
    have hclear := h.clear i.toNat (by omega)
    rw [← hcast, ← h.bit_iff, hclear] at hi
    cases hi

end Step

/-! ## Runs -/

/-- **One operation.** -/
theorem handle_ends (op : Op) (members : Finset Int) (m : DynBitMap) (h : Tracks members m)
    (hfits : op.Fits members m) :
    Ends (handle op) m (fun _ => Tracks (op.members members)) fun _ _ => False := by
  cases op with
  | bitSet index =>
      obtain ⟨hindex, hlast⟩ := hfits
      refine (bitSetAt_ends hindex hlast h.allocated).imp fun _ m' hm' => ?_
      rw [hm', Op.members, ← natCast_index hindex]
      exact h.bitSet _
  | bitClear index =>
      have hindex : 0 ≤ index.toInt := hfits
      refine (bitClearAt_ends h hindex).imp fun _ m' hm' => ?_
      rw [hm', Op.members, ← natCast_index hindex]
      exact h.bitClear _
  | bitTest index =>
      have hends := bitTestAt_ends h hfits
      rw [handle, ends_bind]
      refine hends.imp fun _ m' hm' => ?_
      rw [hm'.1]
      exact h
  | bitClearAll =>
      refine (bitClearAll_ends h.allocated).imp fun _ m' hm' => ?_
      rw [hm']
      exact h.cleared hfits
  | grow wantedIndex => exact h.grow wantedIndex

/-- **Bitmaps as sets.**  Along a run that sets no index below zero or among the last seven,
tests and clears none below zero, and clears all bits only when none is set, the bitmap
answers for the set, and every access is to its table. -/
theorem run_agrees (growRate : Nat) (ops : List Op)
    (hfits : MeetsAlong handle Op.members (fun members m op => op.Fits members m) ∅
      (.live (new growRate)) ops) :
    Holds (Agrees (ops.foldl Op.members ∅)) (fun _ _ => False)
      (run handle (.live (new growRate)) ops) := by
  have hrun := refines_run (A := fun _ _ => False) (R := Tracks) handle_ends
    (c := .live (new growRate)) (tracks_new growRate) ops hfits
  exact hrun.imp fun _ h => h.agrees

/-- Bits set twice, cleared and set again. -/
theorem run_agrees_four :
    Holds (Agrees ([.bitSet 9, .bitSet 9, .bitClear 9, .bitSet 100].foldl Op.members ∅))
      (fun _ _ => False)
      (run handle (.live (new 1)) [.bitSet 9, .bitSet 9, .bitClear 9, .bitSet 100]) :=
  run_agrees 1 [.bitSet 9, .bitSet 9, .bitClear 9, .bitSet 100] (by decide)

/-- The count is left where it was when all bits are cleared. -/
theorem clear_all_keeps_the_count :
    ¬ Holds (Agrees ([.bitSet 0, .bitClearAll].foldl Op.members ∅)) (fun _ _ => False)
      (run handle (.live (new 1)) [.bitSet 0, .bitClearAll]) := by
  intro h
  have hcount := Agrees.count h
  exact absurd hcount (by decide)

/-! ## Comparing -/

/-- `DynBitMapCompare`, with the smaller capacity in an `int`. -/
def compare (one two : DynBitMap) : Bool :=
  let capacity := if one.capacity < two.capacity then one.capacity else two.capacity
  let smallerCap := ((capacity : Int).bmod (2 ^ 32) % 2 ^ 64).toNat
  one.higherSeen == two.higherSeen && one.data.take smallerCap == two.data.take smallerCap

section Compare

variable {one two : DynBitMap} {members others : Finset Int} {i : Nat}

theorem Tracks.bit_beyond (h : Tracks members one) (htwo : two.WF)
    (hseen : one.higherSeen = two.higherSeen) (hcap : 0 < one.capacity)
    (hi : one.capacity ≤ i / 8) : one.bit i = two.bit i := by
  have hroom := h.room
  have hlow : one.higherSeen < i := by omega
  rw [h.clear i hlow, htwo.clear i (hseen ▸ hlow)]

/-- A map without a byte is equal to this one. -/
example : compare (new 0) ((new 1).bitSet 0) = true := by decide

end Compare

end DynBitMap

end BrbData
