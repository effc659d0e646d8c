import BrbFramework.Lib.Machine
import BrbFramework.Lib.Runs
import Mathlib.Algebra.GroupWithZero.Nat
import Mathlib.Data.List.ReduceOption

/-!
# Dynamic arrays

A `DynArray` keeps pointers in a table that it grows. The table is a list of
pointers here, whose length is what was allocated, so that an access behind its
end stops the model. `capacity` is a field beside it and from the first growth
on one more than the length. The field `supplied` is a history: what was added
since the last clean.

The mutex and the busy flags of a thread-safe array are left out: no operation
calls another one while it holds them.
-/

namespace BrbData

open Handler Machine Runs List

structure DynArray (α : Type) where
  growRate : Nat
  elements : Nat := 0
  capacity : Nat := 0
  /-- The table, with null pointers in it. -/
  data : Option (List (Option α)) := none
  /-- There is a function that destroys items. -/
  itemdestroyFunc : Bool
  /-- The items that were destroyed. -/
  destroyed : List α := []
  supplied : List (Option α) := []
  deriving DecidableEq

namespace DynArray

variable {α : Type}

inductive Fault
  /-- An access outside the table. -/
  | outside
  deriving DecidableEq, Repr

abbrev M (α : Type) := EStateM Fault (DynArray α)

/-- A value as an unsigned integer of 32 bits keeps it. -/
def uint32 (x : Nat) : Nat := x % 2 ^ 32

theorem uint32_of_lt {x : Nat} (h : x < 2 ^ 32) : uint32 x = x := Nat.mod_eq_of_lt h

/-- `DynArrayNew`. -/
def new (growRate : Int32) (itemdestroyFunc : Bool) : DynArray α where
  growRate := if growRate = 0 then 64 else growRate.toUInt32.toNat
  itemdestroyFunc := itemdestroyFunc

/-- `realloc` of the table, with null for what it does not set. -/
def realloc (table : List (Option α)) (n : Nat) : List (Option α) :=
  table.take n ++ List.replicate (n - table.length) none

/-- The part of `DynArrayAdd` that makes room. -/
def grow : M α PUnit := do
  let a ← get
  if a.capacity = 0 then
    set { a with
      data := some (List.replicate a.growRate none)
      capacity := uint32 (a.capacity + a.growRate) }
  else if a.capacity ≤ uint32 (a.elements + 1) then
    let table := realloc (a.data.getD []) (uint32 (a.elements + a.growRate))
    assertThat (a.elements + a.growRate ≤ table.length) .outside
    set { a with
      data := some (splice table a.elements (List.replicate a.growRate none))
      capacity := uint32 (a.capacity + a.growRate) }

/-- `DynArrayAdd`. -/
def add (newData : Option α) : M α Int32 := do
  grow
  let a ← get
  let table := a.data.getD []
  assertThat (a.elements < table.length) .outside
  set { a with
    data := some (table.set a.elements newData)
    elements := uint32 (a.elements + 1)
    supplied := a.supplied ++ [newData] }
  return Int32.ofNat (a.elements + 1) - 1

/-- `DynArrayGetDataByPos`. The comparison is one of unsigned integers, the index is not. -/
def getDataByPos (pos : Int32) : M α (Option α) := do
  let a ← get
  match a.data with
  | none => return none
  | some table =>
    if a.elements < pos.toUInt32.toNat then return none
    assertThat (0 ≤ pos.toInt ∧ pos.toInt < table.length) .outside
    return (table[pos.toInt.toNat]?).join

/-- The loop of `DYNARRAY_FOREACH` in `DynArrayClean`, which has `n` elements left. -/
def destroyFrom (count : Nat) : Nat → M α PUnit
  | 0 => pure ()
  | n + 1 => do
    let elem ← getDataByPos (Int32.ofNat count)
    modify fun a => { a with destroyed := a.destroyed ++ elem.toList }
    destroyFrom (count + 1) n

/-- `DynArrayClean`. -/
def clean : M α Nat := do
  let a ← get
  if a.capacity = 0 then return 0
  if a.itemdestroyFunc then
    destroyFrom 0 (Int32.ofNat a.elements).toInt.toNat
  modify fun a => { a with
    elements := 0
    data := some (realloc (a.data.getD []) a.growRate)
    capacity := a.growRate
    supplied := [] }
  return a.growRate

inductive Op (α : Type)
  | add (newData : Option α)
  | getDataByPos (pos : Int32)
  | clean
  deriving DecidableEq

def handle : Op α → M α PUnit
  | .add newData => do let _ ← add newData
  | .getDataByPos pos => do let _ ← getDataByPos pos
  | .clean => do let _ ← clean

/-! ## What an array is for -/

/-- The element that was added at a position since the last clean. -/
def element (a : DynArray α) (pos : Int32) : Option α :=
  if 0 ≤ pos.toInt then (a.supplied[pos.toInt.toNat]?).join else none

/-- The array gives the element at the position, and null where there is none. -/
def Gives (a : DynArray α) (pos : Int32) : Prop :=
  Ends (getDataByPos pos) a (fun x _ => x = a.element pos) fun _ _ => False

/-- The position behind the last element lies in the table and holds null, if it is the one
asked for, and the number of elements is no negative position taken for an unsigned one. -/
def Apart (a : DynArray α) (pos : Int32) : Prop :=
  a.data = none ∨
    (pos.toInt = a.elements → (a.data.getD [])[a.elements]? = some none) ∧
      (pos.toInt < 0 → a.elements < pos.toUInt32.toNat)

/-- What an operation needs: a table that grows is counted in 32 bits. -/
def Op.Fits (a : DynArray α) : Op α → Prop
  | .add _ =>
    a.capacity = 0 ∨ a.elements + 1 < a.capacity ∨ a.capacity + a.growRate < 2 ^ 32
  | .getDataByPos pos => a.Apart pos
  | .clean => True

structure Stored (a : DynArray α) (table : List (Option α)) : Prop where
  elements : a.supplied = table.take a.elements
  room : a.elements ≤ table.length
  grown : a.growRate ≤ table.length
  capacity : a.capacity = table.length ∨ a.capacity = table.length + 1
  small : a.capacity < 2 ^ 32

structure Sound (a : DynArray α) : Prop where
  growRate : 0 < a.growRate ∧ a.growRate < 2 ^ 32
  count : a.elements = a.supplied.length
  table : match a.data with
    | none => a.capacity = 0 ∧ a.supplied = []
    | some table => a.Stored table

theorem sound_new (growRate : Int32) (itemdestroyFunc : Bool) :
    Sound (new growRate itemdestroyFunc : DynArray α) where
  growRate := by
    unfold new
    by_cases hzero : growRate = 0
    · simp [hzero]
    · have hlt : growRate.toUInt32.toNat < 2 ^ 32 := UInt32.toNat_lt _
      have hpos : growRate.toUInt32.toNat ≠ 0 := by
        intro h
        exact hzero (by
          rw [← Int32.toInt32_toUInt32 growRate,
            UInt32.toNat_inj.mp (h.trans UInt32.toNat_zero.symm)]
          rfl)
      simp only [hzero, if_false]
      omega
  count := rfl
  table := ⟨rfl, rfl⟩

theorem toNat_of_nonneg {pos : Int32} (h : 0 ≤ pos.toInt) :
    pos.toUInt32.toNat = pos.toInt.toNat :=
  Int32.toNat_toUInt32_of_le (Int32.le_iff_toInt_le.mpr h)

section Sound

variable {a : DynArray α} {table : List (Option α)}

theorem Sound.empty (h : Sound a) (hcap : a.capacity = 0) : a.data = none ∧ a.supplied = [] := by
  have htable := h.table
  cases hdata : a.data with
  | none =>
      rw [hdata] at htable
      exact ⟨rfl, htable.2⟩
  | some table =>
      rw [hdata] at htable
      have hgrown := htable.grown
      have hcapacity := htable.capacity
      have hrate := h.growRate.1
      omega

theorem Sound.stored (h : Sound a) (hcap : a.capacity ≠ 0) :
    ∃ table, a.data = some table ∧ a.Stored table := by
  have htable := h.table
  cases hdata : a.data with
  | none =>
      rw [hdata] at htable
      exact absurd htable.1 hcap
  | some table =>
      rw [hdata] at htable
      exact ⟨table, rfl, htable⟩

theorem length_realloc (table : List (Option α)) (n : Nat) : (realloc table n).length = n := by
  simp [realloc]
  omega

theorem take_realloc {n k : Nat} (hk : k ≤ table.length) (hn : k ≤ n) :
    (realloc table n).take k = table.take k := by
  rw [realloc, take_append_of_le_length (by rw [length_take]; omega), take_take,
    Nat.min_eq_left hn]

/-! ## What the operations do -/

theorem grow_ends (h : Sound a)
    (hfits : a.capacity = 0 ∨ a.elements + 1 < a.capacity ∨ a.capacity + a.growRate < 2 ^ 32) :
    Ends grow a
      (fun _ b => ∃ table capacity,
        b = { a with data := some table, capacity := capacity } ∧ b.Stored table ∧
          a.elements < table.length)
      fun _ _ => False := by
  obtain ⟨hrate, hrateLt⟩ := h.growRate
  rw [grow, ends_bind, ends_get]
  by_cases hcap : a.capacity = 0
  · have hcount : a.elements = 0 := by
      rw [h.count, (h.empty hcap).2]
      rfl
    rw [if_pos hcap, ends_set, hcap, Nat.zero_add, uint32_of_lt hrateLt]
    have hstored : Stored { a with
        data := some (List.replicate a.growRate none), capacity := a.growRate }
        (List.replicate a.growRate none) := by
      constructor <;> simp [h.empty hcap, hcount]
      exact hrateLt
    exact ⟨_, _, rfl, hstored, by simpa [hcount] using hrate⟩
  · obtain ⟨table, hdata, hstored⟩ := h.stored hcap
    have hroom := hstored.room
    have hcapacity := hstored.capacity
    have hsmall := hstored.small
    rw [if_neg hcap, uint32_of_lt (by omega)]
    by_cases hfull : a.capacity ≤ a.elements + 1
    · -- The capacity is the number of elements here, or one more.
      have hlen := length_realloc table (a.elements + a.growRate)
      have hend : a.elements + (List.replicate a.growRate (none : Option α)).length ≤
          (realloc table (a.elements + a.growRate)).length := by
        rw [hlen, length_replicate]
      rw [if_pos hfull, hdata, Option.getD_some, uint32_of_lt (by omega), uint32_of_lt (by omega),
        ends_bind, ends_assertThat]
      simp only [hlen, Nat.le_refl, decide_true, forall_true_left, ends_set]
      refine ⟨⟨_, _, rfl, ?_, ?_⟩, by simp⟩
      · constructor
        · simp only [splice]
          rw [append_assoc,
            take_append_of_le_length (by rw [length_take, hlen]; omega), take_take, Nat.min_self,
            take_realloc hroom (by omega)]
          exact hstored.elements
        · simp only [length_splice hend, hlen]
          omega
        · simp only [length_splice hend, hlen]
          omega
        · simp only [length_splice hend, hlen]
          omega
        · simp only
          omega
      · rw [length_splice hend, hlen]
        omega
    · rw [if_neg hfull]
      exact ⟨table, a.capacity, by rw [← hdata], hstored, by omega⟩

theorem add_ends (h : Sound a) (newData : Option α)
    (hfits : a.capacity = 0 ∨ a.elements + 1 < a.capacity ∨ a.capacity + a.growRate < 2 ^ 32) :
    Ends (add newData) a (fun _ b => Sound b ∧ b.supplied = a.supplied ++ [newData])
      fun _ _ => False := by
  rw [add, ends_bind]
  apply (grow_ends h hfits).total
  intro _ b hb
  obtain ⟨table, capacity, rfl, hstored, hlt⟩ := hb
  have hlast : a.elements + 1 < 2 ^ 32 := by
    have hcapacity := hstored.capacity
    have hsmall := hstored.small
    simp only at hcapacity hsmall
    omega
  simp only [ends_bind, ends_get, Option.getD_some, ends_assertThat, hlt, decide_true,
    forall_true_left, ends_set, ends_pure, uint32_of_lt hlast]
  refine ⟨⟨⟨h.growRate, ?_, ?_⟩, trivial⟩, by simp⟩
  · rw [length_append, h.count]
    rfl
  · have hsupplied : a.supplied = table.take a.elements := hstored.elements
    refine ⟨?_, ?_, ?_, ?_, hstored.small⟩
    · rw [hsupplied, take_add_one, take_set_of_le (Nat.le_refl _),
        getElem?_set_self hlt]
      rfl
    · rw [length_set]
      exact hlt
    · rw [length_set]
      exact hstored.grown
    · rw [length_set]
      exact hstored.capacity

theorem getDataByPos_ends (hdata : a.data = some table) (pos : Int32)
    {Q : Option α → DynArray α → Prop} {E : Fault → DynArray α → Prop} :
    Ends (getDataByPos pos) a Q E ↔
      if a.elements < pos.toUInt32.toNat then Q none a
      else if 0 ≤ pos.toInt ∧ pos.toInt < table.length then Q (table[pos.toInt.toNat]?).join a
      else E .outside a := by
  rw [getDataByPos, ends_bind, ends_get, hdata]
  by_cases hbehind : a.elements < pos.toUInt32.toNat
  · simp [hbehind]
  · by_cases hin : 0 ≤ pos.toInt ∧ pos.toInt < table.length
    · simp [hbehind, hin]
    · simp [hbehind, hin]

theorem getDataByPos_keeps (a : DynArray α) (pos : Int32) :
    Ends (getDataByPos pos) a (fun _ b => b = a) fun _ b => b = a := by
  cases hdata : a.data with
  | none => simp [getDataByPos, hdata]
  | some table =>
      rw [getDataByPos_ends hdata]
      simp

theorem Stored.getElem? (h : a.Stored table) {i : Nat} (hi : i < a.elements) :
    table[i]? = a.supplied[i]? := by
  rw [h.elements, getElem?_take_of_lt hi]

theorem gives_iff (h : Sound a) (pos : Int32) : a.Gives pos ↔ a.Apart pos := by
  have htable := h.table
  cases hdata : a.data with
  | none =>
      rw [hdata] at htable
      simp [Gives, Apart, getDataByPos, hdata, element, htable.2]
  | some table =>
      rw [hdata] at htable
      have hroom := htable.room
      have hcount := h.count
      rw [Gives, getDataByPos_ends hdata, Apart, hdata, Option.getD_some]
      by_cases hneg : pos.toInt < 0
      · have hne : pos.toInt ≠ a.elements := by omega
        have hnot : ¬ 0 ≤ pos.toInt := by omega
        simp [hneg, hne, hnot, element]
      · obtain ⟨i, hi⟩ : ∃ i : Nat, pos.toInt = i := ⟨pos.toInt.toNat, by omega⟩
        have helement : a.element pos = (a.supplied[i]?).join := by simp [element, hi]
        rw [toNat_of_nonneg (by omega), helement, hi, Int.toNat_natCast]
        have hnonneg : ¬ (i : Int) < 0 := by omega
        by_cases hbehind : a.elements < i
        · have hnone : a.supplied[i]? = none := getElem?_eq_none (by omega)
          have hne : i ≠ a.elements := by omega
          simp [hbehind, hnone, hne, hnonneg]
        · by_cases hend : i = a.elements
          · subst hend
            have hnone : a.supplied[a.elements]? = none := getElem?_eq_none (by omega)
            by_cases hin : a.elements < table.length
            · simp [hin, hnone, hnonneg]
            · simp [hin, hnonneg]
          · have hsame := htable.getElem? (i := i) (by omega)
            have hin : i < table.length := by omega
            rw [if_neg hbehind, if_pos (by omega), hsame]
            simp [hend, hnonneg]

theorem Sound.setDestroyed (h : Sound a) (destroyed : List α) :
    Sound { a with destroyed := destroyed } := by
  refine ⟨h.growRate, h.count, ?_⟩
  have htable := h.table
  cases hdata : a.data with
  | none =>
      rw [hdata] at htable
      exact htable
  | some table =>
      rw [hdata] at htable
      exact ⟨htable.elements, htable.room, htable.grown, htable.capacity, htable.small⟩

theorem destroyFrom_ends (h : Sound a) (count n : Nat) (hcount : count + n ≤ a.elements)
    (hn : count + n ≤ 2 ^ 31) :
    Ends (destroyFrom count n) a
      (fun _ b => b = { a with
        destroyed := a.destroyed ++ ((a.supplied.drop count).take n).reduceOption })
      fun _ _ => False := by
  induction n generalizing a count with
  | zero => simp [destroyFrom, List.reduceOption]
  | succ n ih =>
      obtain ⟨table, hdata, hstored⟩ := h.stored (by
        intro hcap
        have hempty := (h.empty hcap).2
        have helements := h.count
        rw [hempty] at helements
        simp only [length_nil] at helements
        omega)
      have hpos : (Int32.ofNat count).toInt = count := Int32.toInt_ofNat_of_lt (by omega)
      have hroom := hstored.room
      have hlt : count < a.supplied.length := by
        have helements := h.count
        omega
      rw [destroyFrom, ends_bind, getDataByPos_ends hdata, toNat_of_nonneg (by omega), hpos,
        Int.toNat_natCast, if_neg (by omega), if_pos (by omega), ends_bind, ends_modify,
        hstored.getElem? (by omega), getElem?_eq_getElem hlt, drop_eq_getElem_cons hlt]
      obtain ⟨b, hb⟩ : ∃ b, b = { a with
          destroyed := a.destroyed ++ (some a.supplied[count]).join.toList } := ⟨_, rfl⟩
      have hsound : Sound b := by
        rw [hb]
        exact h.setDestroyed _
      have helements : b.elements = a.elements := by rw [hb]
      rw [← hb]
      apply (ih hsound (count + 1) (by omega) (by omega)).imp
      intro _ t ht
      rw [ht, hb, take_succ_cons]
      cases a.supplied[count] with
      | none => simp [List.reduceOption]
      | some x => simp [List.reduceOption]

theorem toNat_ofNat_le {n : Nat} (h : n < 2 ^ 32) : (Int32.ofNat n).toInt.toNat ≤ n := by
  by_cases hlt : n < 2 ^ 31
  · rw [Int32.toInt_ofNat_of_lt hlt]
    exact Nat.le_of_eq (Int.toNat_natCast n)
  · have hneg : (Int32.ofNat n).toInt < 0 := by
      rw [Int32.toInt_ofNat', Int.bmod_def]
      simp only [Int32.size]
      omega
    omega

theorem clean_ends (h : Sound a) :
    Ends clean a
      (fun _ b => Sound b ∧ b.supplied = [] ∧
        (a.itemdestroyFunc = true → a.elements < 2 ^ 31 →
          b.destroyed = a.destroyed ++ a.supplied.reduceOption))
      fun _ _ => False := by
  rw [clean, ends_bind, ends_get]
  by_cases hcap : a.capacity = 0
  · obtain ⟨-, hempty⟩ := h.empty hcap
    simp [hcap, h, hempty, List.reduceOption]
  · obtain ⟨table, hdata, hstored⟩ := h.stored hcap
    have hroom := hstored.room
    have hlt : a.elements < 2 ^ 32 := by
      have hcapacity := hstored.capacity
      have hsmall := hstored.small
      omega
    -- What is left where only items were destroyed before the table shrinks.
    have hshrunk : ∀ destroyed : List α,
        Sound { a with
          elements := 0
          data := some (realloc table a.growRate)
          capacity := a.growRate
          destroyed := destroyed
          supplied := [] } := by
      intro destroyed
      have hlen := length_realloc table a.growRate
      refine ⟨h.growRate, rfl, ⟨?_, ?_, ?_, ?_, h.growRate.2⟩⟩
      · simp
      · exact Nat.zero_le _
      · exact Nat.le_of_eq hlen.symm
      · exact Or.inl hlen.symm
    rw [if_neg hcap]
    by_cases hfunc : a.itemdestroyFunc = true
    · have hle := toNat_ofNat_le hlt
      have hloop := destroyFrom_ends h 0 (Int32.ofNat a.elements).toInt.toNat (by omega) (by
        have hmax := Int32.toInt_lt (Int32.ofNat a.elements)
        omega)
      rw [if_pos hfunc, ends_bind]
      apply hloop.imp
      intro _ b hb
      rw [hb, ends_bind, ends_modify, ends_pure, hdata, Option.getD_some]
      refine ⟨hshrunk _, rfl, ?_⟩
      intro _ hsmall
      have hall : (Int32.ofNat a.elements).toInt.toNat = a.supplied.length := by
        rw [Int32.toInt_ofNat_of_lt hsmall, Int.toNat_natCast, h.count]
      rw [hall, drop_zero, take_length]
    · rw [if_neg hfunc, ends_bind, ends_modify, ends_pure, hdata, Option.getD_some]
      exact ⟨hshrunk _, rfl, fun hfunc' => absurd hfunc' hfunc⟩

theorem handle_ends (op : Op α) (a : DynArray α) (h : Sound a) (hfits : op.Fits a) :
    Ends (handle op) a (fun _ b => Sound b) fun _ _ => False := by
  cases op with
  | add newData =>
      rw [handle, ends_bind]
      apply (add_ends h newData hfits).imp
      intro _ b hb
      exact hb.1
  | getDataByPos pos =>
      rw [handle, ends_bind]
      apply (((gives_iff h pos).mpr hfits).and (getDataByPos_keeps a pos)).mono
      · intro _ b hb
        rw [hb.2]
        exact h
      · intro _ b hb
        exact hb.1
  | clean =>
      rw [handle, ends_bind]
      apply (clean_ends h).imp
      intro _ b hb
      exact hb.1

end Sound

/-- **What an array gives.**  In every state of a run whose operations find what they need, no
operation has left the table, and exactly at a position that stands apart the array gives the
element that was added there since the last clean, or null behind the last one. -/
theorem run_gives (growRate : Int32) (itemdestroyFunc : Bool) (ops : List (Op α))
    (hfits : Meets handle (fun a op => op.Fits a) (.live (new growRate itemdestroyFunc)) ops) :
    Holds (fun a => ∀ pos, a.Gives pos ↔ a.Apart pos) (fun _ _ => False)
      (run handle (.live (new growRate itemdestroyFunc)) ops) := by
  have hnew : Holds Sound (fun _ _ => False)
      (.live (new growRate itemdestroyFunc) : Config Fault (DynArray α)) :=
    sound_new growRate itemdestroyFunc
  apply (invariant_run_of handle_ends hnew ops hfits).mono
  · intro a h pos
    exact gives_iff h pos
  · intro f a hfalse
    exact hfalse

instance instDecidableApart [DecidableEq α] (a : DynArray α) (pos : Int32) :
    Decidable (a.Apart pos) :=
  inferInstanceAs (Decidable (_ ∨ _ ∧ _))

instance instDecidableGives [DecidableEq α] (a : DynArray α) (pos : Int32) :
    Decidable (a.Gives pos) :=
  inferInstanceAs (Decidable (Ends _ _ _ _))

instance instDecidableFits [DecidableEq α] (a : DynArray α) (op : Op α) : Decidable (op.Fits a) :=
  match op with
  | .add _ => inferInstanceAs (Decidable (_ ∨ _ ∨ _))
  | .getDataByPos pos => inferInstanceAs (Decidable (a.Apart pos))
  | .clean => inferInstanceAs (Decidable True)

/-- The table grows twice, and is looked at in its second half. -/
theorem run_gives_of_adds :
    Holds (fun a => ∀ pos, a.Gives pos ↔ a.Apart pos) (fun _ _ => False)
      (run handle (.live (new 2 true))
        [.add (some 5), .add none, .add (some 7), .add (some 8), .getDataByPos 3, .clean,
          .add (some 9)]) :=
  run_gives 2 true _ (by decide)

/-- After a clean the first slot still holds the element that was removed. Where the table is
full, a look at the position behind the last element leaves it. -/
theorem stale_and_outside :
    ¬ Holds (fun a => ∀ pos, a.Gives pos) (fun _ _ => False)
        (run handle (.live (new 0 false)) [.add (some 5), .clean]) ∧
      ¬ Holds (fun a => ∀ pos, a.Gives pos) (fun _ _ => False)
        (run handle (.live (new 2 false)) [.add (some 5), .add (some 6), .add (some 7)]) := by
  constructor
  · intro h
    have hfirst := h 0
    exact absurd hfirst (by decide)
  · intro h
    have hbehind := h 3
    exact absurd hbehind (by decide)

end DynArray

end BrbData
