import Mathlib.Data.List.GetD

/-!
# Growing bitmaps

A `DynBitMap` keeps one bit for each index in a table of bytes that grows with
the largest index set. `higherSeen` guards the reads: an index above it is not
looked up. The table of a new map is one byte longer than `capacity` says.
-/

namespace BrbData

open List

structure DynBitMap where
  data : List (BitVec 8)
  capacity : Nat
  growRate : Nat
  higherSeen : Nat := 0
  bitsetCount : Int := 0
  deriving DecidableEq, Repr

namespace DynBitMap

/-- `DynBitMapNew`. -/
def new (growRate : Nat) : DynBitMap :=
  { data := List.replicate (growRate + 1) 0#8, capacity := growRate, growRate := growRate }

/-- `BITMASK_TEST`. -/
def bit (m : DynBitMap) (index : Nat) : Bool :=
  (m.data.getD (index / 8) 0#8).getLsbD (index % 8)

/-- `DynBitMapGrowIfNeeded`. -/
def growIfNeeded (m : DynBitMap) (wantedIndex : Nat) : DynBitMap :=
  let wantedOffset := (wantedIndex + 7) / 8 + 1
  let newSize := wantedOffset + m.growRate
  if m.capacity < wantedOffset then
    { m with
      data := m.data.take m.capacity ++ List.replicate (newSize - m.capacity) 0#8
      capacity := newSize }
  else m

/-- `BITMASK_SET`. -/
def maskSet (m : DynBitMap) (index : Nat) : DynBitMap :=
  { m with
    data := m.data.set (index / 8) (m.data.getD (index / 8) 0#8 ||| 1#8 <<< (index % 8)) }

/-- `DynBitMapBitSet`. -/
def bitSet (m : DynBitMap) (index : Nat) : DynBitMap :=
  let m := { m with higherSeen := if m.higherSeen < index then index else m.higherSeen }
  let m := m.growIfNeeded index
  let m' := m.maskSet index
  if m.bit index then m' else { m' with bitsetCount := m'.bitsetCount + 1 }

/-- `BITMASK_CLR`. -/
def maskClear (m : DynBitMap) (index : Nat) : DynBitMap :=
  { m with
    data := m.data.set (index / 8) (m.data.getD (index / 8) 0#8 &&& ~~~(1#8 <<< (index % 8))) }

/-- `DynBitMapBitClear`. -/
def bitClear (m : DynBitMap) (index : Nat) : DynBitMap :=
  if m.higherSeen < index then m
  else
    let m' := m.maskClear index
    if m.bit index then { m' with bitsetCount := m'.bitsetCount - 1 } else m'

/-- `DynBitMapBitTest`. -/
def bitTest (m : DynBitMap) (index : Nat) : Bool :=
  if m.higherSeen < index then false else m.bit index

/-- `DynBitMapCheckMultiBlocks`. -/
def checkMultiBlocks (m : DynBitMap) (blockIdxBegin blockIdxFinish : Nat) : Bool :=
  (List.range' blockIdxBegin (blockIdxFinish + 1 - blockIdxBegin)).all m.bitTest

/-- The loop of `DynBitMapGetValidBlocks` from `i` over the `n` blocks that are left, with
the first and the last valid block so far. -/
def validFrom (m : DynBitMap) (i : Nat) : Nat → Option (Nat × Nat) → Option (Nat × Nat)
  | 0, found => found
  | n + 1, none => m.validFrom (i + 1) n (if m.bitTest i then some (i, i) else none)
  | n + 1, some (first, _) =>
      if m.bitTest i then m.validFrom (i + 1) n (some (first, i)) else some (first, i - 1)

/-- `DynBitMapGetValidBlocks`: the first run of set bits. -/
def getValidBlocks (m : DynBitMap) (blockIdxBegin : Nat) (blockIdxFinish : Int) :
    Option (Nat × Nat) :=
  if blockIdxBegin > m.higherSeen then none
  else
    let blockIdxFinish := if blockIdxFinish > m.higherSeen then (m.higherSeen : Int)
      else blockIdxFinish
    m.validFrom blockIdxBegin (blockIdxFinish + 1 - blockIdxBegin).toNat none

/-! ## Well-formed bitmaps -/

structure WF (m : DynBitMap) : Prop where
  allocated : m.capacity ≤ m.data.length
  /-- A bit that is set is not in the spare byte of a new table. -/
  inside : ∀ i, m.bit i = true → i / 8 < m.capacity
  clear : ∀ i, m.higherSeen < i → m.bit i = false

theorem bit_replicate (n i j : Nat) :
    ((List.replicate n 0#8).getD i 0#8).getLsbD j = false := by
  have hzero : (List.replicate n 0#8).getD i 0#8 = 0#8 := by
    by_cases h : i < n
    · rw [getD_eq_getElem _ _ (by rw [length_replicate]; exact h),
        getElem_replicate]
    · rw [getD_eq_default _ _ (by rw [length_replicate]; omega)]
  rw [hzero]
  simp

theorem bit_new (growRate i : Nat) : (new growRate).bit i = false := bit_replicate _ _ _

theorem wf_new (growRate : Nat) : (new growRate).WF where
  allocated := by simp [new]
  inside i h := by simp [bit_new] at h
  clear i _ := bit_new growRate i

@[simp] theorem bitTest_new (growRate i : Nat) : (new growRate).bitTest i = false := by
  unfold bitTest
  split
  · rfl
  · exact bit_new growRate i

theorem WF.bitTest_eq {m : DynBitMap} (h : m.WF) (i : Nat) : m.bitTest i = m.bit i := by
  unfold bitTest
  split
  · exact (h.clear i ‹_›).symm
  · rfl

variable {m : DynBitMap}

section Grow

variable (i : Nat)

@[simp] theorem growIfNeeded_higherSeen : (m.growIfNeeded i).higherSeen = m.higherSeen := by
  unfold growIfNeeded
  simp only
  split <;> rfl

theorem growIfNeeded_allocated (h : m.capacity ≤ m.data.length) :
    (m.growIfNeeded i).capacity ≤ (m.growIfNeeded i).data.length := by
  unfold growIfNeeded
  simp only
  split
  · simp only [length_append, length_take, length_replicate]
    omega
  · exact h

theorem growIfNeeded_room :
    i / 8 < (m.growIfNeeded i).capacity ∧ m.capacity ≤ (m.growIfNeeded i).capacity := by
  unfold growIfNeeded
  simp only
  split
  · simp only
    omega
  · omega

theorem WF.growIfNeeded_bit (h : m.WF) (j : Nat) : (m.growIfNeeded i).bit j = m.bit j := by
  have halloc := h.allocated
  unfold growIfNeeded
  simp only
  split
  · by_cases hj : j / 8 < m.capacity
    · unfold bit
      simp only [getD_eq_getElem?_getD]
      rw [getElem?_append_left (by rw [length_take]; omega),
        getElem?_take_of_lt hj]
    · have hold : m.bit j = false := Bool.eq_false_iff.2 fun hset => hj (h.inside j hset)
      rw [hold]
      unfold bit
      rw [getD_append_right _ _ _ _ (by rw [length_take]; omega)]
      exact bit_replicate _ _ _
  · rfl

end Grow

theorem getLsbD_or_bit (b : BitVec 8) {i j : Nat} (hi : i < 8) (hj : j < 8) :
    (b ||| 1#8 <<< i).getLsbD j = (decide (j = i) || b.getLsbD j) := by
  rw [BitVec.getLsbD_or, BitVec.getLsbD_shiftLeft, BitVec.getLsbD_one]
  by_cases hji : j = i
  · subst hji
    simp [hj]
  · by_cases hlt : j < i
    · simp [hji, hlt]
    · have hne : j - i ≠ 0 := by omega
      simp [hji, hne]

theorem maskSet_bit (i j : Nat) (h : i / 8 < m.data.length) :
    (m.maskSet i).bit j = (decide (j = i) || m.bit j) := by
  unfold maskSet bit
  simp only [getD_eq_getElem?_getD, getElem?_set]
  by_cases hbyte : i / 8 = j / 8
  · rw [if_pos hbyte, if_pos h, hbyte, Option.getD_some,
      getLsbD_or_bit _ (Nat.mod_lt _ (by omega)) (Nat.mod_lt _ (by omega))]
    congr 1
    rw [decide_eq_decide]
    omega
  · have hji : j ≠ i := by
      rintro rfl
      exact hbyte rfl
    rw [if_neg hbyte]
    simp [hji]

/-- The bitmap once `DynBitMapBitSet` has made room. -/
def raised (m : DynBitMap) (i : Nat) : DynBitMap :=
  ({ m with higherSeen := if m.higherSeen < i then i else m.higherSeen }).growIfNeeded i

theorem WF.raise (h : m.WF) (i : Nat) :
    ({ m with higherSeen := if m.higherSeen < i then i else m.higherSeen } : DynBitMap).WF where
  allocated := h.allocated
  inside := h.inside
  clear k hk := by
    refine h.clear k ?_
    simp only at hk
    split at hk <;> omega

theorem bitSet_view {β : Type} (v : DynBitMap → β)
    (hv : ∀ (m : DynBitMap) n, v { m with bitsetCount := n } = v m) (i : Nat) :
    v (m.bitSet i) = v ((m.raised i).maskSet i) := by
  have hset : m.bitSet i = if (m.raised i).bit i then (m.raised i).maskSet i else
      { (m.raised i).maskSet i with bitsetCount := ((m.raised i).maskSet i).bitsetCount + 1 } :=
    rfl
  rw [hset]
  split
  · rfl
  · exact hv _ _

/-- **One bit at a time.**  `DynBitMapBitSet` sets its index and changes no
other. -/
theorem WF.bit_bitSet (h : m.WF) (i j : Nat) :
    (m.bitSet i).bit j = (decide (j = i) || m.bit j) := by
  have hraise := h.raise i
  have hroom : i / 8 < (m.raised i).data.length :=
    Nat.lt_of_lt_of_le (growIfNeeded_room i).1 (growIfNeeded_allocated i hraise.allocated)
  have hsame : (m.raised i).bit j = m.bit j := hraise.growIfNeeded_bit i j
  rw [bitSet_view (fun m => m.bit j) (fun _ _ => rfl), maskSet_bit i j hroom, hsame]

theorem bitSet_higherSeen (i : Nat) : (m.bitSet i).higherSeen = max m.higherSeen i := by
  rw [bitSet_view (·.higherSeen) (fun _ _ => rfl)]
  simp only [raised, maskSet, growIfNeeded_higherSeen]
  split <;> omega

theorem WF.bitSet (h : m.WF) (i : Nat) : (m.bitSet i).WF where
  allocated := by
    rw [bitSet_view (·.capacity) (fun _ _ => rfl), bitSet_view (·.data) (fun _ _ => rfl)]
    simp only [maskSet, length_set]
    exact growIfNeeded_allocated i h.allocated
  inside j hj := by
    have hroom := growIfNeeded_room
      (m := { m with higherSeen := if m.higherSeen < i then i else m.higherSeen }) i
    rw [bitSet_view (·.capacity) (fun _ _ => rfl)]
    change j / 8 < (m.raised i).capacity
    rw [h.bit_bitSet, Bool.or_eq_true] at hj
    rcases hj with hji | hold
    · obtain rfl : j = i := by simpa using hji
      exact hroom.1
    · exact Nat.lt_of_lt_of_le (h.inside j hold) hroom.2
  clear j hj := by
    rw [bitSet_higherSeen] at hj
    rw [h.bit_bitSet, h.clear j (by omega)]
    simp only [Bool.or_false, decide_eq_false_iff_not]
    omega

theorem WF.bitTest_bitSet (h : m.WF) (i j : Nat) :
    (m.bitSet i).bitTest j = (decide (j = i) || m.bitTest j) := by
  rw [(h.bitSet i).bitTest_eq, h.bitTest_eq, h.bit_bitSet]

section Clear

theorem getLsbD_clear_bit (b : BitVec 8) {i j : Nat} (hi : i < 8) (hj : j < 8) :
    (b &&& ~~~(1#8 <<< i)).getLsbD j = (decide (j ≠ i) && b.getLsbD j) := by
  have hor := getLsbD_or_bit 0#8 hi hj
  rw [BitVec.zero_or, BitVec.getLsbD_zero, Bool.or_false] at hor
  rw [BitVec.getLsbD_and, BitVec.getLsbD_not, hor]
  simp [hj, Bool.and_comm]

theorem maskClear_bit (i j : Nat) : (m.maskClear i).bit j = (decide (j ≠ i) && m.bit j) := by
  unfold maskClear bit
  simp only [getD_eq_getElem?_getD, getElem?_set]
  by_cases hbyte : i / 8 = j / 8
  · have hmod : decide (j % 8 ≠ i % 8) = decide (j ≠ i) := by
      rw [decide_eq_decide]
      omega
    rw [if_pos hbyte, hbyte, ← hmod]
    by_cases hroom : j / 8 < m.data.length
    · rw [if_pos hroom, Option.getD_some,
        getLsbD_clear_bit _ (Nat.mod_lt _ (by omega)) (Nat.mod_lt _ (by omega))]
    · rw [if_neg hroom, getElem?_eq_none (by omega)]
      simp
  · have hji : j ≠ i := by
      rintro rfl
      exact hbyte rfl
    rw [if_neg hbyte]
    simp [hji]

theorem bitClear_view {β : Type} (v : DynBitMap → β)
    (hv : ∀ (m : DynBitMap) n, v { m with bitsetCount := n } = v m) {i : Nat}
    (hseen : ¬ m.higherSeen < i) : v (m.bitClear i) = v (m.maskClear i) := by
  unfold bitClear
  rw [if_neg hseen]
  simp only
  split
  · exact hv _ _
  · rfl

theorem WF.bit_bitClear (h : m.WF) (i j : Nat) :
    (m.bitClear i).bit j = (decide (j ≠ i) && m.bit j) := by
  by_cases hseen : m.higherSeen < i
  · rw [bitClear, if_pos hseen]
    by_cases hji : j = i
    · rw [hji, h.clear i hseen, Bool.and_false]
    · simp [hji]
  · rw [bitClear_view (fun m => m.bit j) (fun _ _ => rfl) hseen, maskClear_bit]

theorem WF.bitClear (h : m.WF) (i : Nat) : (m.bitClear i).WF := by
  by_cases hseen : m.higherSeen < i
  · rwa [DynBitMap.bitClear, if_pos hseen]
  · have hcap : (m.bitClear i).capacity = m.capacity :=
      bitClear_view (·.capacity) (fun _ _ => rfl) hseen
    have hlen : (m.bitClear i).data.length = m.data.length := by
      rw [bitClear_view (·.data) (fun _ _ => rfl) hseen, maskClear, length_set]
    have hhigh : (m.bitClear i).higherSeen = m.higherSeen :=
      bitClear_view (·.higherSeen) (fun _ _ => rfl) hseen
    have hold : ∀ j, (m.bitClear i).bit j = true → m.bit j = true := fun j hj => by
      rw [h.bit_bitClear, Bool.and_eq_true] at hj
      exact hj.2
    refine ⟨by rw [hcap, hlen]; exact h.allocated, fun j hj => ?_, fun j hj => ?_⟩
    · rw [hcap]
      exact h.inside j (hold j hj)
    · rw [hhigh] at hj
      rw [h.bit_bitClear, h.clear j hj, Bool.and_false]

theorem WF.bitTest_bitClear (h : m.WF) (i j : Nat) :
    (m.bitClear i).bitTest j = (decide (j ≠ i) && m.bitTest j) := by
  rw [(h.bitClear i).bitTest_eq, h.bitTest_eq, h.bit_bitClear]

theorem bitClear_capacity (i : Nat) : (m.bitClear i).capacity = m.capacity := by
  by_cases hseen : m.higherSeen < i
  · rw [bitClear, if_pos hseen]
  · exact bitClear_view (·.capacity) (fun _ _ => rfl) hseen

end Clear

section Again

theorem bitSet_capacity_le (i : Nat) : m.capacity ≤ (m.bitSet i).capacity := by
  rw [bitSet_view (·.capacity) (fun _ _ => rfl)]
  exact (growIfNeeded_room
    (m := { m with higherSeen := if m.higherSeen < i then i else m.higherSeen }) i).2

theorem maskSet_eq_self {i : Nat} (hset : m.bit i = true) : m.maskSet i = m := by
  have hbyte : m.data.getD (i / 8) 0#8 ||| 1#8 <<< (i % 8) = m.data.getD (i / 8) 0#8 := by
    refine BitVec.eq_of_getLsbD_eq fun j hj => ?_
    rw [getLsbD_or_bit _ (Nat.mod_lt _ (by omega)) hj]
    by_cases hji : j = i % 8
    · rw [hji, decide_eq_true rfl, Bool.true_or]
      exact hset.symm
    · rw [decide_eq_false hji, Bool.false_or]
  have hdata : m.data.set (i / 8) (m.data.getD (i / 8) 0#8) = m.data := by
    refine ext_getElem? fun j => ?_
    rw [getElem?_set]
    split
    · rename_i hij
      subst hij
      rw [getD_eq_getElem?_getD]
      split
      · rename_i hlt
        rw [getElem?_eq_getElem hlt, Option.getD_some]
      · rename_i hge
        rw [getElem?_eq_none (by omega)]
    · rfl
  unfold maskSet
  rw [hbyte, hdata]

theorem WF.bitSet_eq_self (h : m.WF) {i : Nat} (hset : m.bit i = true)
    (hroom : (i + 7) / 8 < m.capacity) : m.bitSet i = m := by
  have hseen : ¬m.higherSeen < i := fun hlt => by
    rw [h.clear i hlt] at hset
    cases hset
  have hgrow : m.growIfNeeded i = m := by
    unfold growIfNeeded
    rw [if_neg (by omega)]
  rw [DynBitMap.bitSet]
  simp only [if_neg hseen, hgrow, hset, if_true]
  exact maskSet_eq_self hset

end Again

section Valid

/-- The blocks from `first` to `last` are complete, and none of those from `i` to `first` is. -/
structure FirstRun (m : DynBitMap) (i first last : Nat) : Prop where
  begins : i ≤ first
  nonempty : first ≤ last
  set : ∀ k, first ≤ k → k ≤ last → m.bitTest k = true
  clear : ∀ k, i ≤ k → k < first → m.bitTest k = false

theorem validFrom_some (n : Nat) : ∀ {i b first last : Nat}, m.FirstRun b first last →
    last + 1 = i → ∃ last', m.validFrom i n (some (first, last)) = some (first, last') ∧
      m.FirstRun b first last' ∧ last' < i + n := by
  induction n with
  | zero =>
      intro i b first last hrun hnext
      exact ⟨last, rfl, hrun, by omega⟩
  | succ n ih =>
      intro i b first last hrun hnext
      have hnonempty := hrun.nonempty
      simp only [validFrom]
      by_cases hset : m.bitTest i = true
      · rw [if_pos hset]
        have hlonger : m.FirstRun b first i := by
          refine ⟨hrun.begins, by omega, fun k hlow hhigh => ?_, hrun.clear⟩
          by_cases hk : k = i
          · rw [hk]
            exact hset
          · exact hrun.set k hlow (by omega)
        obtain ⟨last', hfound, hrest, hlast⟩ := ih hlonger rfl
        exact ⟨last', hfound, hrest, by omega⟩
      · rw [if_neg hset]
        obtain rfl : last = i - 1 := by omega
        exact ⟨i - 1, rfl, hrun, by omega⟩

theorem validFrom_none (n : Nat) : ∀ {b i : Nat}, b ≤ i →
    (∀ k, b ≤ k → k < i → m.bitTest k = false) →
      (∃ first last, m.validFrom i n none = some (first, last) ∧ m.FirstRun b first last ∧
        last < i + n) ∨
      m.validFrom i n none = none ∧ ∀ k, b ≤ k → k < i + n → m.bitTest k = false := by
  induction n with
  | zero =>
      intro b i _ hclear
      exact .inr ⟨rfl, hclear⟩
  | succ n ih =>
      intro b i hle hclear
      simp only [validFrom]
      rw [show i + (n + 1) = i + 1 + n by omega]
      by_cases hset : m.bitTest i = true
      · rw [if_pos hset]
        have hrun : m.FirstRun b i i := by
          refine ⟨hle, Nat.le_refl i, fun k hlow hhigh => ?_, hclear⟩
          rw [show k = i by omega]
          exact hset
        obtain ⟨last, hfound, hrest, hlast⟩ := validFrom_some n hrun rfl
        exact .inl ⟨i, last, hfound, hrest, hlast⟩
      · rw [if_neg hset]
        apply ih (by omega)
        intro k hlow hhigh
        by_cases hk : k = i
        · rw [hk]
          simpa using hset
        · exact hclear k hlow (by omega)

/-- **The first run.**  What `DynBitMapGetValidBlocks` finds is the first run of complete
blocks from `first` to `last`, and it finds nothing only if there is none. -/
theorem getValidBlocks_cases (m : DynBitMap) (first : Nat) (last : Int) :
    (∃ first' last', m.getValidBlocks first last = some (first', last') ∧
      m.FirstRun first first' last' ∧ (last' : Int) ≤ last) ∨
    m.getValidBlocks first last = none ∧
      ∀ k : Nat, first ≤ k → (k : Int) ≤ last → m.bitTest k = false := by
  have hbehind : ∀ k, m.higherSeen < k → m.bitTest k = false := fun k hk => if_pos hk
  unfold getValidBlocks
  by_cases hseen : first > m.higherSeen
  · rw [if_pos hseen]
    exact .inr ⟨rfl, fun k hlow _ => hbehind k (by omega)⟩
  · rw [if_neg hseen]
    simp only
    obtain ⟨finish, hfinish⟩ : ∃ finish,
      (if last > m.higherSeen then (m.higherSeen : Int) else last) = finish := ⟨_, rfl⟩
    have hle : finish ≤ last ∧ (finish = last ∨ finish = m.higherSeen) := by
      split at hfinish <;> omega
    rw [hfinish]
    rcases validFrom_none (m := m) (finish + 1 - first).toNat (Nat.le_refl first)
        (fun k hlow hhigh => absurd hlow (Nat.not_le.2 hhigh)) with
      ⟨first', last', hfound, hrun, hlast⟩ | ⟨hfound, hclear⟩
    · have hbegins := hrun.begins
      have hnonempty := hrun.nonempty
      exact .inl ⟨first', last', hfound, hrun, by omega⟩
    · refine .inr ⟨hfound, fun k hlow hhigh => ?_⟩
      by_cases hin : m.higherSeen < k
      · exact hbehind k hin
      · exact hclear k hlow (by omega)

end Valid

end DynBitMap

end BrbData
