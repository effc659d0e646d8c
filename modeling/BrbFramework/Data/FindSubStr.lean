import Mathlib.Data.List.Basic

/-!
# Finding a substring

`BrbStrFindSubStr` goes back to the byte behind the start of a match that failed, so no
occurrence is skipped. Both loops compare the byte behind the end of either string, which
the model gives some value. Where the match runs past the end of a string of the largest
size, the index of the outer loop overflows.
-/

namespace BrbData

namespace FindSubStr

abbrev Bytes := Nat → UInt8

/-- The arguments of a call. A size below zero ends the loop as zero does. -/
structure Call where
  bufStr : Bytes
  bufSz : Nat
  substringStr : Bytes
  substringSz : Nat

namespace Call

/-- The inner loop, over the bytes that are left: the answer, or the indices where it ends. -/
def matchLoop (c : Call) : Nat → Nat → Nat → Nat ⊕ Nat × Nat
  | 0, idx, tokenIdx => .inr (idx, tokenIdx)
  | left + 1, idx, tokenIdx =>
    if tokenIdx < c.substringSz then
      if c.bufStr (idx + 1) ≠ c.substringStr (tokenIdx + 1) then
        if tokenIdx + 1 = c.substringSz then .inl (idx + 1 - 1)
        else .inr (idx + 1 - (tokenIdx + 1), tokenIdx + 1)
      else c.matchLoop left (idx + 1) (tokenIdx + 1)
    else .inr (idx, tokenIdx)

/-- The outer loop. It fails where `idx` overflows, and where `fuel` is used up. -/
def findLoop (c : Call) : Nat → Nat → Nat → Option Int
  | 0, _, _ => none
  | fuel + 1, idx, tokenIdx =>
    if idx < c.bufSz ∧ tokenIdx < c.substringSz then
      if c.bufStr idx ≠ c.substringStr 0 then c.findLoop fuel (idx + 1) 0
      else
        match c.matchLoop (c.bufSz - idx) idx 0 with
        | .inl answer => some answer
        | .inr (idx, tokenIdx) =>
          if tokenIdx = c.substringSz then some (idx - 1)
          else if idx = 2147483647 then none
          else c.findLoop fuel (idx + 1) tokenIdx
    else some (-1)

/-! ## Occurrences -/

/-- The substring is in the buffer from `start` on. -/
def Occurs (c : Call) (start : Nat) : Prop :=
  start + c.substringSz ≤ c.bufSz ∧ ∀ k < c.substringSz, c.bufStr (start + k) = c.substringStr k

/-- The index of the last byte of the first occurrence, or -1. -/
def IsAnswer (c : Call) (answer : Int) : Prop :=
  (∃ start, c.Occurs start ∧ (∀ before < start, ¬ c.Occurs before) ∧
    answer = (start + c.substringSz : Nat) - 1) ∨
  (∀ start, ¬ c.Occurs start) ∧ answer = -1

/-- What is equal from `start` on goes on behind the end of the buffer. -/
def RunsPast (c : Call) (start : Nat) : Prop :=
  start < c.bufSz ∧ c.bufSz - start < c.substringSz ∧
    ∀ k ≤ c.bufSz - start, c.bufStr (start + k) = c.substringStr k

/-- The buffer has the largest size, and a match runs past its end. -/
def Overflows (c : Call) : Prop :=
  c.bufSz = 2147483647 ∧ (∀ start, ¬ c.Occurs start) ∧ ∃ start, c.RunsPast start

end Call

open Call

def call (bufStr : Bytes) (bufSz : Int32) (substringStr : Bytes) (substringSz : Int32) : Call :=
  ⟨bufStr, bufSz.toNatClampNeg, substringStr, substringSz.toNatClampNeg⟩

/-- `BrbStrFindSubStr`. -/
def findSubStr (bufStr : Bytes) (bufSz : Int32) (substringStr : Bytes) (substringSz : Int32) :
    Option Int :=
  (call bufStr bufSz substringStr substringSz).findLoop (bufSz.toNatClampNeg + 1) 0 0

section Search

variable {c : Call} {start : Nat}

theorem matchLoop_spec (left : Nat) : ∀ t, start + t + left = c.bufSz → t < c.substringSz →
    (∀ k ≤ t, c.bufStr (start + k) = c.substringStr k) →
    (c.Occurs start ∧
      (c.matchLoop left (start + t) t =
          .inl (start + c.substringSz - 1) ∨
        c.matchLoop left (start + t) t = .inr (start + c.substringSz, c.substringSz))) ∨
    (∃ t' < c.substringSz, c.matchLoop left (start + t) t = .inr (start, t') ∧
      start + t' ≤ c.bufSz ∧ c.bufStr (start + t') ≠ c.substringStr t') ∨
    ∃ t' < c.substringSz, c.matchLoop left (start + t) t = .inr (c.bufSz, t') ∧
      start + t' = c.bufSz ∧ ∀ k ≤ t', c.bufStr (start + k) = c.substringStr k := by
  induction left with
  | zero =>
    intro t hleft ht heq
    rw [matchLoop, ← hleft, Nat.add_zero]
    exact .inr (.inr ⟨t, ht, rfl, rfl, heq⟩)
  | succ left ih =>
    intro t hleft ht heq
    have hocc : t + 1 = c.substringSz → c.Occurs start := by
      intro hend
      exact ⟨by omega, fun k hk => heq k (by omega)⟩
    rw [matchLoop, if_pos ht]
    by_cases hbyte : c.bufStr (start + t + 1) = c.substringStr (t + 1)
    · rw [if_neg (not_not.mpr hbyte)]
      by_cases hend : t + 1 = c.substringSz
      · left
        refine ⟨hocc hend, .inr ?_⟩
        rw [← hend]
        cases left with
        | zero => rfl
        | succ left =>
          rw [matchLoop, if_neg (Nat.not_lt.mpr (Nat.le_of_eq hend.symm))]
          rfl
      · refine ih (t + 1) (by omega) (by omega) fun k hk => ?_
        by_cases hlast : k = t + 1
        · rw [hlast]
          exact hbyte
        · exact heq k (by omega)
    · rw [if_pos hbyte]
      by_cases hend : t + 1 = c.substringSz
      · rw [if_pos hend]
        exact .inl ⟨hocc hend, .inl (by rw [← hend]; rfl)⟩
      · have hback : start + t + 1 - (t + 1) = start := by omega
        rw [if_neg hend, hback]
        exact .inr (.inl ⟨t + 1, by omega, rfl, by omega, hbyte⟩)

/-- Where the search is: nothing occurs in front, and no match in front runs past the end,
unless it is over. -/
structure Searched (c : Call) (idx : Nat) : Prop where
  none : ∀ s < idx, ¬ c.Occurs s
  inside : idx ≤ c.bufSz → ∀ s < idx, ¬ c.RunsPast s
  past : c.bufSz < idx → c.bufSz ≠ 2147483647

theorem searched_zero : Searched c 0 where
  none s hs := absurd hs (Nat.not_lt_zero s)
  inside _ s hs := absurd hs (Nat.not_lt_zero s)
  past hlt := absurd hlt (Nat.not_lt_zero _)

theorem Searched.succ (h : Searched c start) (hlt : start < c.bufSz) {k : Nat}
    (hk : k < c.substringSz) (hroom : start + k ≤ c.bufSz)
    (hbyte : c.bufStr (start + k) ≠ c.substringStr k) : Searched c (start + 1) where
  none s hs hocc := by
    by_cases heq : s = start
    · subst heq
      exact hbyte (hocc.2 k hk)
    · exact h.none s (by omega) hocc
  inside hle s hs hpast := by
    by_cases heq : s = start
    · subst heq
      exact hbyte (hpast.2.2 k (by omega))
    · exact h.inside (by omega) s (by omega) hpast
  past hover := absurd hlt (by omega)

theorem findLoop_iff (hsub : 0 < c.substringSz) (hbuf : c.bufSz ≤ 2147483647) (fuel : Nat) :
    ∀ idx t, t < c.substringSz → 0 < fuel → c.bufSz < fuel + idx → Searched c idx →
    ((∃ answer, c.findLoop fuel idx t = some answer ∧ c.IsAnswer answer) ↔ ¬ c.Overflows) := by
  induction fuel with
  | zero =>
    intro idx t _ hfuel
    exact absurd hfuel (Nat.lt_irrefl 0)
  | succ fuel ih =>
    intro idx t ht _ hfuel h
    rw [findLoop]
    by_cases hidx : idx < c.bufSz
    · rw [if_pos ⟨hidx, ht⟩]
      by_cases hfirst : c.bufStr idx = c.substringStr 0
      · rw [if_neg (not_not.mpr hfirst)]
        have hloop := @matchLoop_spec c idx (c.bufSz - idx) 0 (by omega) hsub
          fun k hk => by rw [Nat.le_zero.mp hk]; exact hfirst
        rw [Nat.add_zero] at hloop
        rcases hloop with ⟨hocc, hfound⟩ | ⟨k, hk, hapart, hroom, hbyte⟩ | ⟨k, hk, hend, hsum, heq⟩
        · have hanswer : c.IsAnswer ((idx + c.substringSz : Nat) - 1) :=
            .inl ⟨idx, hocc, h.none, rfl⟩
          refine iff_of_true ⟨_, ?_, hanswer⟩ fun hover => hover.2.1 idx hocc
          rcases hfound with hfound | hfound
          · rw [hfound]
            refine congrArg some ?_
            omega
          · rw [hfound]
            exact if_pos rfl
        · rw [hapart]
          have hne : k ≠ c.substringSz := Nat.ne_of_lt hk
          simp only
          rw [if_neg hne]
          have hmax : idx ≠ 2147483647 := by omega
          rw [if_neg hmax]
          exact ih (idx + 1) k hk (by omega) (by omega) (h.succ hidx hk hroom hbyte)
        · rw [hend]
          have hne : k ≠ c.substringSz := Nat.ne_of_lt hk
          simp only
          rw [if_neg hne]
          have hnone : ∀ s, ¬ c.Occurs s := by
            intro s hocc
            by_cases hs : s < idx
            · exact h.none s hs hocc
            · have hfits := hocc.1
              omega
          by_cases hmax : c.bufSz = 2147483647
          · rw [if_pos hmax]
            refine iff_of_false (by simp) (not_not.mpr ⟨hmax, hnone, idx, hidx, by omega, ?_⟩)
            intro j hj
            exact heq j (by omega)
          · rw [if_neg hmax]
            refine ih (c.bufSz + 1) k hk (by omega) (by omega)
              ⟨fun s _ => hnone s, fun hle => ?_, fun _ => hmax⟩
            exact absurd hle (Nat.not_succ_le_self _)
      · rw [if_pos hfirst]
        exact ih (idx + 1) 0 hsub (by omega) (by omega)
          (h.succ hidx hsub (Nat.le_of_lt hidx) hfirst)
    · rw [if_neg fun hboth => hidx hboth.1]
      have hnone : ∀ s, ¬ c.Occurs s := by
        intro s hocc
        have hfits := hocc.1
        exact h.none s (by omega) hocc
      refine iff_of_true ⟨-1, rfl, .inr ⟨hnone, rfl⟩⟩ ?_
      rintro ⟨hmax, -, s, hpast⟩
      by_cases hover : c.bufSz < idx
      · exact h.past hover hmax
      · exact h.inside (by omega) s (Nat.lt_of_lt_of_le hpast.1 (Nat.le_of_not_lt hidx)) hpast

/-- **Finding a substring.**  The answer is the end of the first occurrence, or -1, but where
`idx` overflows. -/
theorem findSubStr_iff (bufStr : Bytes) (bufSz : Int32) (substringStr : Bytes)
    (substringSz : Int32) :
    (∃ answer, findSubStr bufStr bufSz substringStr substringSz = some answer ∧
        (call bufStr bufSz substringStr substringSz).IsAnswer answer) ↔
      ¬ (call bufStr bufSz substringStr substringSz).Overflows := by
  have hbuf : bufSz.toNatClampNeg ≤ 2147483647 := by
    have hlt := bufSz.toInt_lt
    unfold Int32.toNatClampNeg
    omega
  obtain ⟨c, hc⟩ : ∃ c, call bufStr bufSz substringStr substringSz = c := ⟨_, rfl⟩
  have hsz : bufSz.toNatClampNeg = c.bufSz := hc ▸ rfl
  rw [findSubStr, hc, hsz]
  rw [hsz] at hbuf
  by_cases hsub : 0 < c.substringSz
  · exact findLoop_iff hsub hbuf (c.bufSz + 1) 0 0 hsub (Nat.succ_pos _) (Nat.lt_succ_self _)
      searched_zero
  · have hzero : c.substringSz = 0 := Nat.eq_zero_of_not_pos hsub
    have hocc : c.Occurs 0 := by
      rw [Call.Occurs, hzero]
      exact ⟨Nat.zero_le _, fun k hk => absurd hk (Nat.not_lt_zero k)⟩
    refine iff_of_true ⟨-1, ?_, .inl ⟨0, hocc, fun s hs => absurd hs (Nat.not_lt_zero s), ?_⟩⟩
      fun hover => hover.2.1 0 hocc
    · rw [findLoop, if_neg fun hboth => hsub hboth.2]
    · rw [hzero]
      rfl

/-- The largest string of bytes `a` with an `X` behind it, and `aX`. -/
def overflowing : Call :=
  call (fun i => if i = 2147483647 then 'X'.toUInt8 else 'a'.toUInt8) 2147483647
    (fun i => if i = 1 then 'X'.toUInt8 else 'a'.toUInt8) 2

/-- It is not found, but the index overflows. -/
theorem overflowing_not_answers : ¬ ∃ answer,
    findSubStr overflowing.bufStr 2147483647 overflowing.substringStr 2 = some answer ∧
      overflowing.IsAnswer answer := by
  have hloop := @findLoop_iff overflowing (by decide) (Nat.le_refl _) (2147483647 + 1) 0 0
    (by decide) (Nat.succ_pos _) (Nat.lt_succ_self _) searched_zero
  refine fun hanswer => hloop.mp hanswer ⟨rfl, ?_, 2147483646, by decide, by decide, ?_⟩
  · rintro start ⟨hfits, hbytes⟩
    have hbyte : overflowing.bufStr (start + 1) = 'X'.toUInt8 := hbytes 1 (by decide)
    have hne : start + 1 ≠ 2147483647 := Nat.ne_of_lt hfits
    have hother : overflowing.bufStr (start + 1) = 'a'.toUInt8 := if_neg hne
    exact absurd (hother.symm.trans hbyte) (by decide)
  · intro k hk
    have hcases : k = 0 ∨ k = 1 := Nat.le_one_iff_eq_zero_or_eq_one.mp hk
    rcases hcases with rfl | rfl
    · rfl
    · rfl

end Search

end FindSubStr

end BrbData
