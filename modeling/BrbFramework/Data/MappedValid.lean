import BrbFramework.Data.MappedRanges

/-!
# The valid bytes of a range

`MemBufferMappedGetValidBytes` looks for bytes that are there between `base` and
`offset`: the first run of complete blocks, with what the partial pages in front
of it and behind it have. Without a complete block it takes the partial page of
the first block.

A partial page in front of a run is taken from its first byte on, whether or not it reaches to
the run, and a page that begins behind `offset` is taken as well.
-/

namespace BrbData

open Handler Machine

namespace MemBufferMapped

/-- What `MemBufferMappedGetValidBytes` has found so far. -/
structure ValidBytes where
  firstByte : Int := -1
  lastByte : Int := -1
  foundByteBase : Bool := false
  foundByteOffset : Bool := false
  blockIdxBegin : Int
  blockIdxFinish : Int
  deriving DecidableEq, Repr

/-- "We have valid PAGE blocks that will satisfy this request." -/
def completeBytes (s : MemBufferMapped) (base offset : Int) : ValidBytes :=
  let blockIdxBegin := base.tdiv s.pageSz
  let blockIdxFinish := offset.tdiv s.pageSz
  match s.dynBitmap.getValidBlocks blockIdxBegin.toNat blockIdxFinish with
  | some (firstIdx, lastIdx) =>
      let firstByte : Int := (firstIdx * s.pageSz : Nat)
      let lastByte : Int := (lastIdx * s.pageSz + (s.pageSz - 1) : Nat)
      { firstByte := if firstByte ≤ base then base else firstByte
        foundByteBase := decide (firstByte ≤ base)
        lastByte := if lastByte ≥ offset then offset else lastByte
        foundByteOffset := decide (lastByte ≥ offset)
        blockIdxBegin := (firstIdx : Int) - 1
        blockIdxFinish := (lastIdx : Int) + 1 }
  | none => { blockIdxBegin := blockIdxBegin, blockIdxFinish := blockIdxBegin }

def frontBytes (s : MemBufferMapped) (base : Int) (v : ValidBytes) : ValidBytes :=
  if v.foundByteBase then v
  else
    match s.partialGetByIdx v.blockIdxBegin with
    | none => v
    | some p =>
        let firstByte := v.blockIdxBegin * s.pageSz + p.userLong
        let v := { v with firstByte := if firstByte < base then -1 else firstByte }
        if v.blockIdxBegin = v.blockIdxFinish then
          { v with
            lastByte := v.blockIdxBegin * s.pageSz + (p.mb.getSize - 1)
            foundByteOffset := true }
        else v

def backBytes (s : MemBufferMapped) (v : ValidBytes) : ValidBytes :=
  if v.foundByteOffset then v
  else
    match s.partialGetByIdx v.blockIdxFinish with
    | none => v
    | some p =>
        if p.userLong = 0 then
          { v with lastByte := v.blockIdxFinish * s.pageSz + (p.mb.getSize - 1) }
        else v

/-- `MemBufferMappedGetValidBytes`: the first and the last valid byte, if it returns 1. -/
def getValidBytes (s : MemBufferMapped) (base offset : Int) : Option (Int × Int) :=
  let mappedMbSz : Int := s.mainMb.getSize
  if base > mappedMbSz ∨ offset > mappedMbSz then none
  else
    let base := if base < 0 then 0 else base
    let offset := if offset < base then mappedMbSz - 1 else offset
    let v := s.backBytes (s.frontBytes base (s.completeBytes base offset))
    let lastByte := if v.lastByte < base then -1 else v.lastByte
    if v.firstByte < 0 ∨ lastByte < 0 then none
    else
      some (if v.firstByte < base then base else v.firstByte,
        if lastByte > offset then offset else lastByte)

/-! ## The parts of an answer -/

section Parts

variable {total : Nat} {s : MemBufferMapped} {v : ValidBytes}

theorem Kept.front (h : Kept total s) (base first : Nat)
    (hfound : v.foundByteBase = decide (first * s.pageSz ≤ base))
    (hfirst : v.firstByte =
      if first * s.pageSz ≤ base then (base : Int) else ((first * s.pageSz : Nat) : Int))
    (hbegin : v.blockIdxBegin = (first : Int) - 1) (hfinish : (first : Int) ≤ v.blockIdxFinish)
    (htouch : ∀ p, s.partialGetByIdx ((first : Int) - 1) = some p →
      base < first * s.pageSz → base ≤ (first - 1) * s.pageSz + p.userLong → p.mb.size = s.pageSz) :
    (s.frontBytes base v).lastByte = v.lastByte ∧
      (s.frontBytes base v).foundByteOffset = v.foundByteOffset ∧
      (s.frontBytes base v).blockIdxFinish = v.blockIdxFinish ∧
      (0 ≤ (s.frontBytes base v).firstByte →
        (base : Int) ≤ (s.frontBytes base v).firstByte ∧
        (s.frontBytes base v).firstByte ≤ max (base : Int) ((first * s.pageSz : Nat) : Int) ∧
        ∀ pos : Nat, (s.frontBytes base v).firstByte ≤ pos → pos < first * s.pageSz →
          s.Covered pos) := by
  unfold frontBytes
  by_cases hbase : first * s.pageSz ≤ base
  · rw [if_pos (by simpa [hfound] using hbase)]
    rw [if_pos hbase] at hfirst
    refine ⟨rfl, rfl, rfl, fun _ => ⟨by omega, by omega, fun pos hlow hhigh => ?_⟩⟩
    omega
  · rw [if_neg (by simpa [hfound] using hbase)]
    rw [if_neg hbase] at hfirst
    have hpos : 0 < first := by
      by_contra hzero
      rw [Nat.eq_zero_of_not_pos hzero, Nat.zero_mul] at hbase
      omega
    obtain ⟨k, rfl⟩ : ∃ k, first = k + 1 := ⟨first - 1, by omega⟩
    have hindex : ((k + 1 : Nat) : Int) - 1 = (k : Nat) := by omega
    rw [hindex] at htouch hbegin
    rw [hbegin]
    cases hpart : s.partialGetByIdx k with
    | none =>
        simp only
        refine ⟨trivial, trivial, trivial, fun _ => ⟨by omega, by omega, fun pos hlow hhigh => ?_⟩⟩
        omega
    | some p =>
        have hother : ¬(k : Int) = v.blockIdxFinish := by omega
        have hcast : (k : Int) * s.pageSz + p.userLong = ((k * s.pageSz + p.userLong : Nat) : Int) := by
          push_cast
          rfl
        simp only [if_neg hother, hcast]
        refine ⟨trivial, trivial, trivial, fun hnonneg => ?_⟩
        have hbehind : ¬((k * s.pageSz + p.userLong : Nat) : Int) < base := by
          intro hlt
          rw [if_pos hlt] at hnonneg
          omega
        rw [if_neg hbehind]
        have hreach := h.toShape.part (h.toShape.view_page hpart).2
        have hwhole : p.mb.size = s.pageSz := by
          apply htouch p hpart (by omega)
          rw [Nat.add_sub_cancel]
          omega
        refine ⟨by omega, ?_, fun pos hlow hhigh => ?_⟩
        · rw [Nat.succ_mul]
          omega
        · rw [Nat.succ_mul] at hhigh
          exact h.covered_block hpart (by omega) (by omega)

theorem Kept.back (h : Kept total s) (last : Nat) (hfinish : v.blockIdxFinish = (last : Int) + 1) :
    (s.backBytes v).firstByte = v.firstByte ∧
      ((s.backBytes v).lastByte = v.lastByte ∨ v.foundByteOffset = false ∧
        (((last + 1) * s.pageSz : Nat) : Int) ≤ (s.backBytes v).lastByte ∧
        ∀ pos : Nat, (last + 1) * s.pageSz ≤ pos → (pos : Int) ≤ (s.backBytes v).lastByte →
          s.Covered pos) := by
  unfold backBytes
  by_cases hfound : v.foundByteOffset = true
  · rw [if_pos hfound]
    exact ⟨rfl, .inl rfl⟩
  rw [if_neg hfound, hfinish]
  have hindex : (last : Int) + 1 = ((last + 1 : Nat) : Int) := by omega
  rw [hindex]
  cases hpart : s.partialGetByIdx (last + 1 : Nat) with
  | none => exact ⟨rfl, .inl rfl⟩
  | some p =>
      have hfits := h.parts p (find_index hpart).1
      obtain ⟨hlow, hhigh, -, -⟩ := h.toShape.part (h.toShape.view_page hpart).2
      simp only [hfits.plain.getSize]
      by_cases hzero : p.userLong = 0
      · rw [if_pos hzero]
        have hcast : ((last + 1 : Nat) : Int) * s.pageSz + (p.mb.size - 1) =
            (((last + 1) * s.pageSz + (p.mb.size - 1) : Nat) : Int) := by
          push_cast
          omega
        refine ⟨rfl, .inr ⟨by simpa using hfound, ?_, fun pos hpos hlast => ?_⟩⟩
        · change _ ≤ ((last + 1 : Nat) : Int) * s.pageSz + (p.mb.size - 1)
          rw [hcast]
          omega
        · have hlast : (pos : Int) ≤ ((last + 1 : Nat) : Int) * s.pageSz + (p.mb.size - 1) := hlast
          rw [hcast] at hlast
          exact h.covered_block hpart (by omega) (by omega)
      · rw [if_neg hzero]
        exact ⟨rfl, .inl rfl⟩

end Parts

/-! ## The whole answer -/

/-- The block `k` is complete, and none from `first` to it is. -/
def Leads (s : MemBufferMapped) (first k : Nat) : Prop :=
  s.dynBitmap.bitTest k = true ∧ ∀ j < k, first ≤ j → s.dynBitmap.bitTest j = false

/-- A question inside the content for which a page that lies in front of the first run of complete
blocks touches it, and the page that is taken without a run begins inside the range. -/
structure Joined (total : Nat) (s : MemBufferMapped) (base offset : Int) : Prop where
  inside : offset < total ∨ s.dynBitmap.bitTest (total / s.pageSz) = false
  touches : ∀ p ∈ s.partialMbList,
    s.Leads (base.toNat / s.pageSz) (p.userInt.toNat + 1) →
      (((p.userInt.toNat + 1) * s.pageSz : Nat) : Int) ≤ s.lastByte base offset →
        base.toNat < (p.userInt.toNat + 1) * s.pageSz →
          base.toNat ≤ p.userInt.toNat * s.pageSz + p.userLong → p.mb.getSize = s.pageSz
  begins : ∀ p ∈ s.partialMbList, p.userInt = (base.toNat / s.pageSz : Nat) →
    (∀ k < (s.lastByte base offset).toNat / s.pageSz + 1, base.toNat / s.pageSz ≤ k →
      s.dynBitmap.bitTest k = false) →
        base.toNat ≤ p.userInt.toNat * s.pageSz + p.userLong →
          ((p.userInt.toNat * s.pageSz + p.userLong : Nat) : Int) ≤ s.lastByte base offset

/-- The bytes from `first` to `last` lie in the range, and were written. -/
structure ValidRange (s : MemBufferMapped) (base offset first last : Int) : Prop where
  base_le : base ≤ first
  le : first ≤ last
  le_offset : last ≤ s.lastByte base offset
  written : s.Through first last

section Answer

variable {total : Nat} {s : MemBufferMapped} {base offset first last : Int}

theorem getValidBytes_some (hplain : s.mainMb.Plain)
    (h : s.getValidBytes base offset = some (first, last)) :
    ∃ v, s.backBytes (s.frontBytes base.toNat (s.completeBytes base.toNat (s.lastByte base offset))) = v ∧
      base ≤ s.mainMb.size ∧ offset ≤ s.mainMb.size ∧ 0 ≤ v.firstByte ∧
        (base.toNat : Int) ≤ v.lastByte ∧ first = max (base.toNat : Int) v.firstByte ∧
          last = min v.lastByte (s.lastByte base offset) := by
  have hbase : (if base < 0 then 0 else base) = (base.toNat : Int) := by
    split <;> omega
  simp only [getValidBytes, hplain.getSize, hbase] at h
  by_cases houtside : base > s.mainMb.size ∨ offset > s.mainMb.size
  · rw [if_pos houtside] at h
    cases h
  rw [if_neg houtside] at h
  have hlast : (if offset < (base.toNat : Int) then (s.mainMb.size : Int) - 1 else offset) =
      s.lastByte base offset := rfl
  rw [hlast] at h
  refine ⟨_, rfl, by omega, by omega, ?_⟩
  obtain ⟨v, hv⟩ : ∃ v, s.backBytes (s.frontBytes base.toNat
    (s.completeBytes base.toNat (s.lastByte base offset))) = v := ⟨_, rfl⟩
  rw [hv] at h ⊢
  by_cases hnone : v.firstByte < 0 ∨ (if v.lastByte < base.toNat then -1 else v.lastByte) < 0
  · rw [if_pos hnone] at h
    cases h
  · rw [if_neg hnone, Option.some.injEq, Prod.mk.injEq] at h
    obtain ⟨hfirst, hlast⟩ := h
    have hreach : ¬v.lastByte < base.toNat := fun hlt => hnone (.inr (by rw [if_pos hlt]; omega))
    rw [if_neg hreach] at hlast
    refine ⟨by omega, by omega, ?_, ?_⟩
    · rw [← hfirst]
      split <;> omega
    · rw [← hlast]
      split <;> omega

theorem Kept.covered_run (h : Kept total s) {i first last pos : Nat}
    (hrun : s.dynBitmap.FirstRun i first last) (hlow : first * s.pageSz ≤ pos)
    (hhigh : pos < (last + 1) * s.pageSz)
    (hinside : pos < total ∨ s.dynBitmap.bitTest (total / s.pageSz) = false) : s.Covered pos := by
  have hfirst : first ≤ pos / s.pageSz := (Nat.le_div_iff_mul_le h.page).2 hlow
  have hlast : pos / s.pageSz < last + 1 := (Nat.div_lt_iff_lt_mul h.page).2 hhigh
  have hset := hrun.set _ hfirst (by omega)
  rcases hinside with hbelow | hclear
  · exact h.covered_full hset hbelow
  · exact h.covered_full hset (h.toShape.below_of_bit hclear hset)

theorem Kept.valid_run (h : Kept total s) (hjoined : s.Joined total base offset) {run : Nat × Nat}
    (hfound : s.dynBitmap.getValidBlocks (base.toNat / s.pageSz)
      ((s.lastByte base offset).tdiv s.pageSz) = some run)
    (hrun : s.dynBitmap.FirstRun (base.toNat / s.pageSz) run.1 run.2)
    (hreach : (run.2 : Int) ≤ (s.lastByte base offset).tdiv s.pageSz)
    (hanswer : s.getValidBytes base offset = some (first, last)) :
    s.ValidRange base offset first last := by
  obtain ⟨v, hv, hbase, hoffset, hfirst, hlast, rfl, rfl⟩ :=
    getValidBytes_some h.plain hanswer
  obtain ⟨f, l⟩ := run
  simp only at hfound hrun hreach
  have hpage := h.page
  have hnonempty := hrun.nonempty
  have hcomplete := h.complete f (hrun.set f le_rfl hnonempty)
  -- there is a byte, so the end is not in front of the first one
  obtain ⟨e, he⟩ : ∃ e : Nat, s.lastByte base offset = e := by
    refine ⟨(s.lastByte base offset).toNat, ?_⟩
    unfold lastByte
    split <;> omega
  have hinside : ∀ pos ≤ e, pos < total ∨ s.dynBitmap.bitTest (total / s.pageSz) = false := by
    intro pos hpos
    have hsize := h.size
    rcases hjoined.inside with hoff | hclear
    · refine .inl ?_
      unfold lastByte at he
      split at he <;> omega
    · exact .inr hclear
  have hbegins : base.toNat < (f + 1) * s.pageSz := by
    have hbelow : base.toNat < (base.toNat / s.pageSz + 1) * s.pageSz := by
      rw [Nat.succ_mul]
      exact Nat.lt_div_mul_add hpage
    exact Nat.lt_of_lt_of_le hbelow (Nat.mul_le_mul_right _ (by have := hrun.begins; omega))
  have hends : l * s.pageSz ≤ e := by
    rw [he] at hreach
    have hdiv : (l : Int) ≤ ((e / s.pageSz : Nat) : Int) := hreach
    exact (Nat.le_div_iff_mul_le hpage).1 (by omega)
  have hfl : f * s.pageSz ≤ l * s.pageSz := Nat.mul_le_mul_right _ hnonempty
  have hfl' : (f + 1) * s.pageSz ≤ (l + 1) * s.pageSz := Nat.mul_le_mul_right _ (by omega)
  rw [he] at hv hfound ⊢
  have htdiv : (base.toNat : Int).tdiv s.pageSz = ((base.toNat / s.pageSz : Nat) : Int) := rfl
  obtain ⟨w, hw⟩ : ∃ w, s.completeBytes base.toNat e = w := ⟨_, rfl⟩
  have hw' := hw
  simp only [completeBytes, htdiv, Int.toNat_natCast, hfound] at hw'
  obtain ⟨hkeep, hflag, hindex, hfront⟩ := h.front (v := w) base.toNat f
    (by rw [← hw']; exact decide_eq_decide.2 Int.ofNat_le) (by rw [← hw']; simp only [Int.ofNat_le])
    (by rw [← hw']) (by rw [← hw']; simp only; omega) fun p hpart hlow hpos => by
      obtain ⟨hmem, hidx⟩ := find_index hpart
      have hf : 0 < f := by
        by_contra hzero
        rw [Nat.eq_zero_of_not_pos hzero, Nat.zero_mul] at hlow
        omega
      have hnat : p.userInt.toNat = f - 1 := by omega
      have hnext : p.userInt.toNat + 1 = f := by omega
      have htouch := hjoined.touches p hmem
      rw [hnext, hnat, he, (h.parts p hmem).plain.getSize] at htouch
      exact htouch ⟨hrun.set f le_rfl hnonempty, fun j hj hij => hrun.clear j hij hj⟩ (by omega)
        hlow hpos
  obtain ⟨hsame, hback⟩ := h.back (v := s.frontBytes base.toNat w) l
    (by rw [hindex, ← hw'])
  rw [hw] at hv
  rw [hv] at hsame hback
  rw [hsame] at hfirst ⊢
  obtain ⟨hlow, hhigh, hcovered⟩ := hfront hfirst
  have hwlast : w.lastByte = if ((l * s.pageSz + (s.pageSz - 1) : Nat) : Int) ≥ e then (e : Int)
      else ((l * s.pageSz + (s.pageSz - 1) : Nat) : Int) := by rw [← hw']
  have hwflag : w.foundByteOffset = decide (((l * s.pageSz + (s.pageSz - 1) : Nat) : Int) ≥ e) := by
    rw [← hw']
  rw [hkeep, hflag, hwlast, hwflag] at hback
  have hsucc : (l + 1) * s.pageSz = l * s.pageSz + s.pageSz := Nat.succ_mul _ _
  have hsucc' : (f + 1) * s.pageSz = f * s.pageSz + s.pageSz := Nat.succ_mul _ _
  have hthrough : ∀ pos : Nat, (s.frontBytes base.toNat w).firstByte ≤ pos → pos ≤ e →
      (pos : Int) ≤ v.lastByte → s.Covered pos := by
    intro pos hpos hle hposl
    by_cases hin : pos < f * s.pageSz
    · exact hcovered pos hpos hin
    by_cases hin' : pos < (l + 1) * s.pageSz
    · exact h.covered_run hrun (by omega) hin' (hinside pos hle)
    · rcases hback with hkept | ⟨-, -, hbehind⟩
      · split at hkept <;> omega
      · exact hbehind pos (by omega) hposl
  refine ⟨by omega, ?_, by omega, fun pos hpos hposl => hthrough pos (by omega) (by omega) (by omega)⟩
  rcases hback with hkept | ⟨hmiss, hbehind, -⟩
  · split at hkept <;> omega
  · rw [decide_eq_false_iff_not] at hmiss
    omega

theorem Kept.valid_page (h : Kept total s) (hjoined : s.Joined total base offset)
    (hfound : s.dynBitmap.getValidBlocks (base.toNat / s.pageSz)
      ((s.lastByte base offset).tdiv s.pageSz) = none)
    (hclear : ∀ k : Nat, base.toNat / s.pageSz ≤ k →
      (k : Int) ≤ (s.lastByte base offset).tdiv s.pageSz → s.dynBitmap.bitTest k = false)
    (hanswer : s.getValidBytes base offset = some (first, last)) :
    s.ValidRange base offset first last := by
  obtain ⟨v, hv, hbase, hoffset, hfirst, hlast, rfl, rfl⟩ :=
    getValidBytes_some h.plain hanswer
  obtain ⟨a, ha⟩ : ∃ a, base.toNat / s.pageSz = a := ⟨_, rfl⟩
  have htdiv : (base.toNat : Int).tdiv s.pageSz = (a : Int) := by
    rw [← ha]
    rfl
  rw [ha] at hfound hclear
  simp only [completeBytes, htdiv, Int.toNat_natCast, hfound, frontBytes] at hv
  cases hpart : s.partialGetByIdx a with
  | none =>
      simp [hpart, backBytes] at hv
      rw [← hv] at hfirst
      simp at hfirst
  | some p =>
      have hmem := (find_index hpart).1
      have hindex := (find_index hpart).2
      have hfits := h.parts p hmem
      obtain ⟨hlow, hhigh, -, hreach⟩ := h.toShape.part (h.toShape.view_page hpart).2
      have hcast : (a : Int) * s.pageSz + p.userLong = ((a * s.pageSz + p.userLong : Nat) : Int) := by
        push_cast
        rfl
      have hcast' : (a : Int) * s.pageSz + (p.mb.size - 1) =
          ((a * s.pageSz + (p.mb.size - 1) : Nat) : Int) := by
        push_cast
        omega
      simp only [hpart, Bool.false_eq_true, if_false, if_true, backBytes, hfits.plain.getSize,
        hcast, hcast'] at hv
      have hvfirst : v.firstByte = if ((a * s.pageSz + p.userLong : Nat) : Int) < base.toNat then -1
          else ((a * s.pageSz + p.userLong : Nat) : Int) := by rw [← hv]
      have hvlast : v.lastByte = ((a * s.pageSz + (p.mb.size - 1) : Nat) : Int) := by rw [← hv]
      have hbehind : ¬((a * s.pageSz + p.userLong : Nat) : Int) < base.toNat := by
        intro hlt
        rw [if_pos hlt] at hvfirst
        omega
      rw [if_neg hbehind] at hvfirst
      obtain ⟨e, he⟩ : ∃ e : Nat, s.lastByte base offset = e := by
        refine ⟨(s.lastByte base offset).toNat, ?_⟩
        unfold lastByte
        split <;> omega
      have hbegins := hjoined.begins p hmem (by rw [ha]; exact hindex)
      rw [he] at hclear
      rw [hindex, he, ha, Int.toNat_natCast, Int.toNat_natCast] at hbegins
      rw [he]
      have hinside := hbegins (fun k hk hle => hclear k hle (by
        have hdiv : (e : Int).tdiv s.pageSz = ((e / s.pageSz : Nat) : Int) := rfl
        omega)) (by omega)
      refine ⟨by omega, by omega, by omega, fun pos hpos hposl => ?_⟩
      exact h.covered_block hpart (by omega) (by omega)

/-- **The valid bytes of a range.**  After clean calls for a content of `total` bytes, the range that
`MemBufferMappedGetValidBytes` answers to a question that is `Joined` lies in what was asked
for, and every byte of it was written. -/
theorem getValidBytes_written (pageSz total : Nat) (hpage : 0 < pageSz)
    (hsmall : total / pageSz < 2 ^ 31) (ops : List Op)
    (hclean : Runs.Meets perform (Clean total) (.live (init pageSz)) ops) (base offset : Int)
    (hjoined : Joined total (runOps pageSz ops).state base offset) :
    ∀ first last, (runOps pageSz ops).state.getValidBytes base offset = some (first, last) →
      (runOps pageSz ops).state.ValidRange base offset first last := by
  intro first last hanswer
  obtain ⟨hkept, -⟩ := runOps_kept hpage hsmall hclean
  rcases DynBitMap.getValidBlocks_cases (runOps pageSz ops).state.dynBitmap
      (base.toNat / (runOps pageSz ops).state.pageSz)
      (((runOps pageSz ops).state.lastByte base offset).tdiv (runOps pageSz ops).state.pageSz) with
    ⟨f, l, hfound, hrun, hreach⟩ | ⟨hfound, hclear⟩
  · exact hkept.valid_run hjoined hfound hrun hreach hanswer
  · exact hkept.valid_page hjoined hfound hclear hanswer

end Answer

instance (s : MemBufferMapped) (first k : Nat) : Decidable (s.Leads first k) :=
  inferInstanceAs (Decidable (_ ∧ _))

instance (total : Nat) (s : MemBufferMapped) (base offset : Int) :
    Decidable (s.Joined total base offset) :=
  decidable_of_iff
    ((offset < total ∨ s.dynBitmap.bitTest (total / s.pageSz) = false) ∧
      (∀ p ∈ s.partialMbList,
        s.Leads (base.toNat / s.pageSz) (p.userInt.toNat + 1) →
          (((p.userInt.toNat + 1) * s.pageSz : Nat) : Int) ≤ s.lastByte base offset →
            base.toNat < (p.userInt.toNat + 1) * s.pageSz →
              base.toNat ≤ p.userInt.toNat * s.pageSz + p.userLong →
                p.mb.getSize = s.pageSz) ∧
      (∀ p ∈ s.partialMbList, p.userInt = (base.toNat / s.pageSz : Nat) →
        (∀ k < (s.lastByte base offset).toNat / s.pageSz + 1, base.toNat / s.pageSz ≤ k →
          s.dynBitmap.bitTest k = false) →
            base.toNat ≤ p.userInt.toNat * s.pageSz + p.userLong →
              ((p.userInt.toNat * s.pageSz + p.userLong : Nat) : Int) ≤ s.lastByte base offset))
    ⟨fun h => ⟨h.1, h.2.1, h.2.2⟩, fun h => ⟨h.inside, h.touches, h.begins⟩⟩

/-- A run of one block with a page in front of it that touches it, and one behind it. -/
def glued : List Op := [.write 6 (List.replicate 18 1)]

theorem glued_valid :
    (runOps 10 glued).state.getValidBytes 2 22 = some (6, 22) ∧
      (runOps 10 glued).state.ValidRange 2 22 6 22 :=
  ⟨by decide +kernel,
    getValidBytes_written 10 24 (by decide) (by decide) glued
      (by decide) 2 22 (by decide +kernel) 6 22 (by decide +kernel)⟩

/-- The bytes 4 and 5 of the first block are there, and the second block: the answer is a range in
which the bytes from 6 to 9 were not written. -/
theorem page_glued_over_hole :
    ¬∀ first last,
      (runOps 10 [.write 4 [1, 1], .write 10 (List.replicate 10 1)]).state.getValidBytes 0 19 =
          some (first, last) →
        (runOps 10 [.write 4 [1, 1], .write 10 (List.replicate 10 1)]).state.ValidRange 0 19
          first last := by
  intro h
  have hvalid := h 4 19 (by decide +kernel)
  have hunwritten :
      ¬Covered (runOps 10 [.write 4 [1, 1], .write 10 (List.replicate 10 1)]).state 6 := by
    unfold Covered
    decide +kernel
  exact hunwritten (hvalid.written 6 (by decide) (by decide))

end MemBufferMapped

end BrbData
