import BrbFramework.Data.DynBitMapRuns
import BrbFramework.Lib.Machine

/-!
# Runs of set bits

The two searches of a `DynBitMap` for any `long` the caller passes. `DynBitMapGetValidBlocks`
counts in an `int`: a beginning from `2 ^ 31` on is another index, and a search that gets to
the largest `int` overflows. An index below zero is looked up in front of the table.
-/

namespace BrbData

open Machine

namespace DynBitMap

/-- `DynBitMapBitTest`, which fails where the index is not in the table. -/
def testAt (m : DynBitMap) (index : Int) : Option Bool :=
  if (m.higherSeen : Int) < index then some false
  else if 0 ≤ index ∧ index.toNat / 8 < m.data.length then some (m.bit index.toNat)
  else none

/-- The loop of `DynBitMapCheckMultiBlocks` over the blocks that are left. -/
def checkFrom (m : DynBitMap) : Nat → Int → Option Bool
  | 0, _ => some true
  | left + 1, i =>
    match m.testAt i with
    | none => none
    | some false => some false
    | some true => m.checkFrom left (i + 1)

/-- `DynBitMapCheckMultiBlocks`. -/
def checkMultiBlocksAt (m : DynBitMap) (blockIdxBegin blockIdxFinish : Int64) : Option Bool :=
  m.checkFrom (blockIdxFinish.toInt + 1 - blockIdxBegin.toInt).toNat blockIdxBegin.toInt

/-- The largest `int`. -/
abbrev intMax : Int := 2147483647

/-- The loop of `DynBitMapGetValidBlocks` over the blocks that are left, with the first and the
last valid block so far. It fails where `i++` overflows. -/
def validLoop (m : DynBitMap) : Nat → Int → Option (Int × Int) → Option (Option (Int × Int))
  | 0, _, found => some found
  | left + 1, i, found => do
    let isSet ← m.testAt i
    match found with
    | none =>
      if i = intMax then none
      else m.validLoop left (i + 1) (if isSet then some (i, i) else none)
    | some (first, _) =>
      if isSet = false then some (some (first, i - 1))
      else if i = intMax then none
      else m.validLoop left (i + 1) (some (first, i))

/-- `DynBitMapGetValidBlocks`. -/
def getValidBlocksAt (m : DynBitMap) (blockIdxBegin blockIdxFinish : Int64) :
    Option (Option (Int × Int)) :=
  if blockIdxBegin.toInt > m.higherSeen then some none
  else
    let finish := if blockIdxFinish.toInt > m.higherSeen then (m.higherSeen : Int)
      else blockIdxFinish.toInt
    let i := int32 blockIdxBegin.toInt
    m.validLoop (finish + 1 - i).toNat i none

/-! ## What the searches are for -/

structure Readable (m : DynBitMap) : Prop extends m.WF where
  room : ∀ i ≤ m.higherSeen, i / 8 < m.data.length

theorem Tracks.readable {members : Finset Int} {m : DynBitMap} (h : Tracks members m) :
    Readable m :=
  ⟨h.toWF, fun _ hi => h.seen_room hi⟩

def IsSet (m : DynBitMap) (i : Int) : Prop := 0 ≤ i ∧ m.bit i.toNat = true

/-- The first maximal run of set bits from `first` to `last`, or that there is none. -/
def IsFirstRun (m : DynBitMap) (first last : Int) : Option (Int × Int) → Prop
  | some (a, z) => first ≤ a ∧ a ≤ z ∧ z ≤ last ∧ (∀ k, first ≤ k → k < a → ¬ m.IsSet k) ∧
      (∀ k, a ≤ k → k ≤ z → m.IsSet k) ∧ (z < last → ¬ m.IsSet (z + 1))
  | none => ∀ k, first ≤ k → k ≤ last → ¬ m.IsSet k

/-- Both searches answer, and answer for the range. -/
def Answers (m : DynBitMap) (first last : Int64) : Prop :=
  (∃ run, m.getValidBlocksAt first last = some run ∧
    m.IsFirstRun first.toInt (min last.toInt m.higherSeen) run) ∧
  ∃ b, m.checkMultiBlocksAt first last = some b ∧
    (b = true ↔ ∀ k, first.toInt ≤ k → k ≤ last.toInt → m.IsSet k)

/-- A run from `first` on ends in front of the largest `int`. -/
def EndsBefore (m : DynBitMap) (first : Int) : Prop :=
  ∃ x y, first ≤ x ∧ x < y ∧ y ≤ intMax ∧ m.IsSet x ∧ ¬ m.IsSet y

/-- The ranges that are searched to their end, where they begin at `first` as an `int`. -/
def Searched (m : DynBitMap) (first last : Int) : Prop :=
  last < int32 first ∨ 0 ≤ int32 first ∧
    if int32 first = first then last < intMax ∨ m.EndsBefore first
    else last < intMax ∧ ∀ k, int32 first ≤ k → k ≤ last → ¬ m.IsSet k

/-- Nothing below zero is asked for, and what `DynBitMapGetValidBlocks` looks through ends in
time. -/
def Fits (m : DynBitMap) (first last : Int64) : Prop :=
  (first.toInt < 0 → last.toInt < first.toInt) ∧
    (first.toInt ≤ m.higherSeen → m.Searched first.toInt (min last.toInt m.higherSeen))

section Search

variable {m : DynBitMap} {first last : Int}

theorem testAt_of_neg {i : Int} (hi : i < 0) : m.testAt i = none := by
  rw [testAt, if_neg (by omega), if_neg (by omega)]

theorem Readable.testAt (h : Readable m) {i : Int} (hi : 0 ≤ i) :
    ∃ b, m.testAt i = some b ∧ (b = true ↔ m.IsSet i) := by
  by_cases hseen : (m.higherSeen : Int) < i
  · refine ⟨false, if_pos hseen, iff_of_false Bool.false_ne_true fun hset => ?_⟩
    have hclear := h.clear i.toNat (by omega)
    exact Bool.false_ne_true (hclear.symm.trans hset.2)
  · have hroom := h.room i.toNat (by omega)
    refine ⟨m.bit i.toNat, ?_, (and_iff_right hi).symm⟩
    rw [DynBitMap.testAt, if_neg hseen, if_pos ⟨hi, hroom⟩]

theorem Readable.checkFrom (h : Readable m) (left : Nat) : ∀ i : Int, 0 ≤ i →
    ∃ b, m.checkFrom left i = some b ∧ (b = true ↔ ∀ k, i ≤ k → k < i + left → m.IsSet k) := by
  induction left with
  | zero => exact fun i _ => ⟨true, rfl, iff_of_true rfl fun k hlow hhigh => absurd hlow (by omega)⟩
  | succ left ih =>
    intro i hi
    obtain ⟨b, hb, hset⟩ := h.testAt hi
    rw [DynBitMap.checkFrom, hb]
    cases b with
    | false =>
      refine ⟨false, rfl, iff_of_false Bool.false_ne_true fun hall => ?_⟩
      exact Bool.false_ne_true (hset.mpr (hall i (Int.le_refl i) (by omega)))
    | true =>
      obtain ⟨b, hb, hiff⟩ := ih (i + 1) (by omega)
      refine ⟨b, hb, hiff.trans ⟨fun hall k hlow hhigh => ?_, fun hall k hlow hhigh => ?_⟩⟩
      · by_cases hk : k = i
        · rw [hk]
          exact hset.mp rfl
        · exact hall k (by omega) (by omega)
      · exact hall k (by omega) (by omega)

/-- What the loop knows at `i`. -/
def Known (m : DynBitMap) (first i : Int) (found : Option (Int × Int)) : Prop :=
  m.IsFirstRun first (i - 1) found ∧ ∀ a z, found = some (a, z) → z = i - 1

/-- That the loop may still stop at a block that is clear. -/
def Pending (m : DynBitMap) (i : Int) : Option (Int × Int) → Prop
  | none => m.EndsBefore i
  | some _ => ∃ y, i ≤ y ∧ y ≤ intMax ∧ ¬ m.IsSet y

theorem Known.clear {i : Int} (h : Known m first i none) (hi : ¬ m.IsSet i) :
    Known m first (i + 1) none := by
  refine ⟨fun k hlow hhigh => ?_, fun a z heq => by cases heq⟩
  by_cases hk : k = i
  · rw [hk]
    exact hi
  · exact h.1 k hlow (by omega)

theorem Known.set {i : Int} (h : Known m first i none) (hfirst : first ≤ i) (hi : m.IsSet i) :
    Known m first (i + 1) (some (i, i)) := by
  refine ⟨⟨hfirst, Int.le_refl i, by omega, fun k hlow hhigh => h.1 k hlow (by omega),
    fun k hlow hhigh => ?_, fun hlt => absurd hlt (by omega)⟩, fun a z heq => ?_⟩
  · rw [Int.le_antisymm hhigh hlow]
    exact hi
  · cases heq
    omega

theorem Known.more {i a z : Int} (h : Known m first i (some (a, z))) (hi : m.IsSet i) :
    Known m first (i + 1) (some (a, i)) := by
  obtain ⟨⟨hfirst, haz, -, hbefore, hall, -⟩, hz⟩ := h
  have hz := hz a z rfl
  refine ⟨⟨hfirst, by omega, by omega, hbefore, fun k hlow hhigh => ?_,
    fun hlt => absurd hlt (by omega)⟩, fun a' z' heq => ?_⟩
  · by_cases hk : k = i
    · rw [hk]
      exact hi
    · exact hall k hlow (by omega)
  · cases heq
    omega

/-- **The loop.**  What it finds is the first run, and it ends unless it gets to the largest
`int`. -/
theorem Readable.validLoop (h : Readable m) (left : Nat) : ∀ (i : Int) (found : Option (Int × Int)),
    0 ≤ i → i ≤ intMax → first ≤ i → i + left = last + 1 → Known m first i found →
    (∀ run, m.validLoop left i found = some run →
      m.IsFirstRun first last run ∧ ∀ a z, run = some (a, z) → a ≤ intMax) ∧
    ((∃ run, m.validLoop left i found = some run) ↔ last < intMax ∨ m.Pending i found) := by
  induction left with
  | zero =>
    intro i found _ hmax _ hleft hknown
    have hlast : i - 1 = last := by omega
    refine ⟨fun run hrun => ?_, iff_of_true ⟨found, rfl⟩ (.inl (by omega))⟩
    cases Option.some.inj hrun
    refine ⟨hlast ▸ hknown.1, fun a z heq => ?_⟩
    have hz := hknown.2 a z heq
    rw [heq] at hknown
    have haz := hknown.1.2.1
    omega
  | succ left ih =>
    intro i found hi hmax hfirst hleft hknown
    obtain ⟨b, hb, hset⟩ := h.testAt hi
    -- the loop goes on with what it knows then
    have hgo : ∀ found', m.validLoop (left + 1) i found =
          (if i = intMax then none else m.validLoop left (i + 1) found') →
        Known m first (i + 1) found' →
        (m.Pending i found ↔ i < intMax ∧ m.Pending (i + 1) found') →
        (∀ run, m.validLoop (left + 1) i found = some run →
          m.IsFirstRun first last run ∧ ∀ a z, run = some (a, z) → a ≤ intMax) ∧
        ((∃ run, m.validLoop (left + 1) i found = some run) ↔
          last < intMax ∨ m.Pending i found) := by
      intro found' heq hknown' hpending
      rw [heq, hpending]
      by_cases hend : i = intMax
      · rw [if_pos hend]
        refine ⟨fun run hrun => (by cases hrun), iff_of_false ?_ ?_⟩
        · rintro ⟨run, hrun⟩
          cases hrun
        · rintro (hlast | hlt)
          · omega
          · exact absurd hend (Int.ne_of_lt hlt.1)
      · rw [if_neg hend]
        have hlt : i < intMax := by omega
        have hrest := ih (i + 1) found' (by omega) (by omega) (by omega) (by omega) hknown'
        exact ⟨hrest.1, hrest.2.trans (or_congr_right (and_iff_right hlt).symm)⟩
    cases found with
    | none =>
      cases b with
      | false =>
        have hclear : ¬ m.IsSet i := fun hi => Bool.false_ne_true (hset.mpr hi)
        refine hgo none (by simp [DynBitMap.validLoop, hb]) (hknown.clear hclear) ⟨?_, ?_⟩
        · rintro ⟨x, y, hx, hxy, hy, hxset, hyclear⟩
          have hne : x ≠ i := fun heq => hclear (heq ▸ hxset)
          exact ⟨by omega, x, y, by omega, hxy, hy, hxset, hyclear⟩
        · rintro ⟨-, x, y, hx, hrest⟩
          exact ⟨x, y, by omega, hrest⟩
      | true =>
        have hbit := hset.mp rfl
        refine hgo (some (i, i)) (by simp [DynBitMap.validLoop, hb]) (hknown.set hfirst hbit)
          ⟨?_, ?_⟩
        · rintro ⟨x, y, hx, hxy, hy, -, hyclear⟩
          exact ⟨by omega, y, by omega, hy, hyclear⟩
        · rintro ⟨-, y, hlow, hy, hyclear⟩
          exact ⟨i, y, Int.le_refl i, by omega, hy, hbit, hyclear⟩
    | some run =>
      obtain ⟨a, z⟩ := run
      cases b with
      | true =>
        have hbit := hset.mp rfl
        refine hgo (some (a, i)) (by simp [DynBitMap.validLoop, hb]) (hknown.more hbit) ⟨?_, ?_⟩
        · rintro ⟨y, hlow, hy, hyclear⟩
          have hne : y ≠ i := fun heq => hyclear (heq ▸ hbit)
          exact ⟨by omega, y, by omega, hy, hyclear⟩
        · rintro ⟨-, y, hlow, hrest⟩
          exact ⟨y, by omega, hrest⟩
      | false =>
        have hclear : ¬ m.IsSet i := fun hi => Bool.false_ne_true (hset.mpr hi)
        obtain ⟨⟨hbegin, haz, -, hbefore, hall, -⟩, hz⟩ := hknown
        obtain rfl := hz a z rfl
        have hstop : m.validLoop (left + 1) i (some (a, i - 1)) = some (some (a, i - 1)) := by
          simp [DynBitMap.validLoop, hb]
        rw [hstop]
        refine ⟨fun run hrun => ?_, iff_of_true ⟨_, rfl⟩ (.inr ⟨i, Int.le_refl i, hmax, hclear⟩)⟩
        obtain rfl := Option.some.inj hrun
        refine ⟨⟨hbegin, haz, by omega, hbefore, hall, fun _ => ?_⟩, fun a' z' heq => ?_⟩
        · rwa [Int.sub_add_cancel]
        · cases heq
          omega

theorem int32_bounds (x : Int) : -2147483648 ≤ int32 x ∧ int32 x ≤ intMax := by
  unfold int32
  have hlow := @Int.le_bmod x 4294967296 (by decide)
  have hhigh := @Int.bmod_lt x 4294967296 (by decide)
  exact ⟨hlow, Int.le_of_lt_add_one hhigh⟩

theorem int32_eq_self {x : Int} (h : -2147483648 ≤ x ∧ x ≤ intMax) : int32 x = x := by
  unfold int32
  exact Int.bmod_eq_of_le h.1 (Int.lt_add_one_of_le h.2)

theorem Readable.validLoop_iff (h : Readable m) (hlast : first ≤ last → 0 ≤ first) :
    (∃ run, m.validLoop (last + 1 - int32 first).toNat (int32 first) none = some run ∧
      m.IsFirstRun first last run) ↔ m.Searched first last := by
  obtain ⟨hlow, hhigh⟩ := int32_bounds first
  have hself := @int32_eq_self first
  obtain ⟨i, hi⟩ : ∃ i, int32 first = i := ⟨_, rfl⟩
  rw [hi] at hlow hhigh hself
  rw [Searched, hi]
  by_cases hempty : last < i
  · have hleft : (last + 1 - i).toNat = 0 := by omega
    rw [hleft]
    refine iff_of_true ⟨none, rfl, fun k hk hk' => ?_⟩ (.inl hempty)
    omega
  · rw [or_iff_right hempty]
    obtain ⟨left, hleft⟩ : ∃ left, (last + 1 - i).toNat = left + 1 :=
      ⟨(last - i).toNat, by omega⟩
    rw [hleft]
    by_cases hneg : i < 0
    · refine iff_of_false ?_ fun hsearched => absurd hneg (Int.not_lt.mpr hsearched.1)
      rintro ⟨run, hrun, -⟩
      rw [DynBitMap.validLoop, testAt_of_neg hneg] at hrun
      cases hrun
    · rw [and_iff_right (Int.not_lt.mp hneg)]
      have hknown : Known m i i none :=
        ⟨fun k hk hk' => absurd hk' (by omega), fun a z heq => by cases heq⟩
      obtain ⟨hsound, hends⟩ := @Readable.validLoop m i last h (left + 1) i none
        (Int.not_lt.mp hneg) hhigh (Int.le_refl i) (by omega) hknown
      by_cases hfirst : i = first
      · rw [if_pos hfirst, ← hfirst]
        refine Iff.trans ⟨?_, ?_⟩ hends
        · rintro ⟨run, hrun, -⟩
          exact ⟨run, hrun⟩
        · rintro ⟨run, hrun⟩
          exact ⟨run, hrun, (hsound run hrun).1⟩
      · rw [if_neg hfirst]
        -- the range begins behind the largest `int`
        have hbehind : first ≤ last → intMax < first := by
          intro hle
          by_contra hnot
          exact hfirst (hself ⟨by omega, by omega⟩)
        constructor
        · rintro ⟨run, hrun, hrange⟩
          obtain ⟨hfound, hmax⟩ := hsound run hrun
          cases run with
          | none =>
            refine ⟨?_, hfound⟩
            rcases hends.mp ⟨_, hrun⟩ with hlt | ⟨x, y, hx, hxy, hy, hxset, -⟩
            · exact hlt
            · by_contra hnot
              exact hfound x hx (by omega) hxset
          | some run =>
            obtain ⟨a, z⟩ := run
            obtain ⟨hfa, haz, hzl, -⟩ := hrange
            have ha := hmax a z rfl
            have hfirst' := hbehind (by omega)
            omega
        · rintro ⟨hlt, hclear⟩
          obtain ⟨run, hrun⟩ := hends.mpr (.inl hlt)
          refine ⟨run, hrun, ?_⟩
          have hfound := (hsound run hrun).1
          cases run with
          | none =>
            intro k hk hk'
            have hfirst' := hbehind (by omega)
            omega
          | some run =>
            obtain ⟨a, z⟩ := run
            obtain ⟨hia, haz, hzl, -, hall, -⟩ := hfound
            exact absurd (hall a (Int.le_refl a) haz) (hclear a hia (by omega))

theorem Readable.checkMultiBlocksAt_iff (h : Readable m) (first last : Int64) :
    (∃ b, m.checkMultiBlocksAt first last = some b ∧
      (b = true ↔ ∀ k, first.toInt ≤ k → k ≤ last.toInt → m.IsSet k)) ↔
    (first.toInt < 0 → last.toInt < first.toInt) := by
  rw [checkMultiBlocksAt]
  by_cases hempty : last.toInt < first.toInt
  · have hleft : (last.toInt + 1 - first.toInt).toNat = 0 := by omega
    rw [hleft]
    refine iff_of_true ⟨true, rfl, iff_of_true rfl fun k hk hk' => ?_⟩ fun _ => hempty
    omega
  · by_cases hneg : first.toInt < 0
    · refine iff_of_false ?_ fun hall => hempty (hall hneg)
      rintro ⟨b, hb, -⟩
      obtain ⟨left, hleft⟩ : ∃ left, (last.toInt + 1 - first.toInt).toNat = left + 1 :=
        ⟨(last.toInt - first.toInt).toNat, by omega⟩
      rw [hleft, DynBitMap.checkFrom, testAt_of_neg hneg] at hb
      cases hb
    · refine iff_of_true ?_ fun hlt => absurd hlt hneg
      obtain ⟨b, hb, hiff⟩ := h.checkFrom (last.toInt + 1 - first.toInt).toNat first.toInt
        (Int.not_lt.mp hneg)
      refine ⟨b, hb, hiff.trans ⟨fun hall k hk hk' => ?_, fun hall k hk hk' => ?_⟩⟩
      · exact hall k hk (by omega)
      · exact hall k hk (by omega)

theorem Readable.getValidBlocksAt_iff (h : Readable m) {first last : Int64}
    (hneg : first.toInt < 0 → last.toInt < first.toInt) :
    (∃ run, m.getValidBlocksAt first last = some run ∧
      m.IsFirstRun first.toInt (min last.toInt m.higherSeen) run) ↔
    (first.toInt ≤ m.higherSeen → m.Searched first.toInt (min last.toInt m.higherSeen)) := by
  have hlast : (if last.toInt > m.higherSeen then (m.higherSeen : Int) else last.toInt) =
      min last.toInt m.higherSeen := by
    split <;> omega
  rw [getValidBlocksAt, hlast]
  by_cases hbehind : first.toInt > m.higherSeen
  · rw [if_pos hbehind]
    refine iff_of_true ⟨none, rfl, fun k hk hk' => ?_⟩ fun hle => absurd hbehind (by omega)
    omega
  · rw [if_neg hbehind, imp_iff_right (by omega)]
    exact h.validLoop_iff fun hle => by omega

end Search

/-- **Runs of set bits.**  The ranges that both searches answer for. -/
theorem answers_iff {m : DynBitMap} (h : Readable m) (first last : Int64) :
    m.Answers first last ↔ m.Fits first last := by
  rw [Answers, h.checkMultiBlocksAt_iff, Fits, and_comm]
  exact and_congr_right fun hneg => h.getValidBlocksAt_iff hneg

theorem answers_iff_one : ((new 1).bitSet 3).Answers 0 5 := by
  refine (answers_iff ((tracks_new 1).bitSet 3).readable 0 5).mpr ⟨fun hlt => ?_, fun _ => .inr ?_⟩
  · exact absurd hlt (by decide)
  · rw [int32_eq_self (by decide)]
    exact ⟨by decide, by rw [if_pos rfl]; exact .inl (by decide)⟩

/-- A search of the block with the largest `int` as its index does not end. -/
theorem largest_int_overflows : ¬ ((new 1).bitSet 2147483647).Answers 2147483647 2147483647 := by
  have htracks := (tracks_new 1).bitSet 2147483647
  have hseen := htracks.agrees.bound 2147483647 (Finset.mem_insert_self _ _)
  have hindex : (2147483647 : Int64).toInt = 2147483647 := rfl
  have hlast : min (2147483647 : Int) ((new 1).bitSet 2147483647).higherSeen = 2147483647 :=
    Int.min_eq_left hseen
  rintro ⟨hvalid, -⟩
  have hsearched := (htracks.readable.getValidBlocksAt_iff fun hlt => absurd hlt (by decide)).mp
    hvalid hseen
  rw [hindex, hlast, Searched, int32_eq_self (by decide), if_pos rfl] at hsearched
  rcases hsearched with hlt | ⟨-, hlt | ⟨x, y, hx, hxy, hy, -⟩⟩
  · exact absurd hlt (by decide)
  · exact absurd hlt (by decide)
  · exact absurd (Int.lt_of_le_of_lt hx hxy) (Int.not_lt.mpr hy)

end DynBitMap

end BrbData
