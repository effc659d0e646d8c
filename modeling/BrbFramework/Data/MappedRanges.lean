import BrbFramework.Data.MappedCalls

/-!
# Asking a mapped memory buffer for a range

`MemBufferMappedCheckBytes` answers whether the bytes from `base` to `offset` are
there: the partial page of the first block, the one of the last block, and the
bitmap for those between. An `offset` in front of `base` asks for everything up
to the end, and the source puts the size of the main buffer there, which is one
byte more than there is.
-/

namespace BrbData

open Handler Machine

namespace MemBufferMapped

/-! ## The question -/

/-- The end of `MemBufferMappedCheckBytes`: the last block and those in front of it. -/
def checkFinish (s : MemBufferMapped) (blockIdxBegin offset : Nat) : Bool :=
  let blockIdxFinish := offset / s.pageSz
  let offsetByteOff := offset % s.pageSz
  let pagePart := if offsetByteOff > 0 then s.partialGetByIdx blockIdxFinish else none
  match pagePart with
  | some p =>
      if p.userLong > 0 then false
      else if p.mb.getSize < offsetByteOff + 1 then false
      -- there is no block to test in front of the first one
      else if blockIdxFinish = 0 then true
      else s.dynBitmap.checkMultiBlocks blockIdxBegin (blockIdxFinish - 1)
  | none => s.dynBitmap.checkMultiBlocks blockIdxBegin blockIdxFinish

/-- The `offset` that `MemBufferMappedCheckBytes` goes by. -/
def checkEnd (s : MemBufferMapped) (base offset : Int) : Nat :=
  if offset < base.toNat then s.mainMb.getSize else offset.toNat

/-- `MemBufferMappedCheckBytes`. -/
def checkBytes (s : MemBufferMapped) (base offset : Int) : Bool :=
  let offset := s.checkEnd base offset
  let base := base.toNat
  let blockIdxBegin := base / s.pageSz
  let blockIdxFinish := offset / s.pageSz
  let baseByteOff := base % s.pageSz
  let offsetByteOff := offset % s.pageSz
  let pagePart := if baseByteOff > 0 then s.partialGetByIdx blockIdxBegin else none
  match pagePart with
  | some p =>
      if baseByteOff < p.userLong then false
      else if blockIdxBegin = blockIdxFinish then
        if p.mb.getSize < offsetByteOff + 1 then false else true
      else if p.mb.getSize < s.pageSz then false
      else s.checkFinish (blockIdxBegin + 1) offset
  | none => s.checkFinish blockIdxBegin offset

/-! ## What a positive answer means -/

section Answers

variable {total : Nat} {s : MemBufferMapped} {b pos : Nat} {base offset : Int}

theorem checkMultiBlocks_iff {m : DynBitMap} {first last : Nat} :
    m.checkMultiBlocks first last = true ↔ ∀ b, first ≤ b → b ≤ last → m.bitTest b = true := by
  simp only [DynBitMap.checkMultiBlocks, List.all_eq_true, List.mem_range'_1]
  constructor
  · intro h b hfirst hlast
    exact h b ⟨hfirst, by omega⟩
  · intro h b hb
    exact h b hb.1 (by omega)

theorem Kept.covered_full (h : Kept total s) (hset : s.dynBitmap.bitTest (pos / s.pageSz) = true)
    (htotal : pos < total) : s.Covered pos := by
  have hholds := h.holds (pos / s.pageSz)
  rw [view_bit hset] at hholds
  have hat := Nat.div_add_mod' pos s.pageSz
  have hcovered := hholds (pos % s.pageSz) (Nat.mod_lt _ h.page) (by omega)
  rwa [hat] at hcovered

theorem Kept.covered_part (h : Kept total s) {p : PagePart}
    (hpart : s.partialGetByIdx (pos / s.pageSz : Nat) = some p)
    (hlow : p.userLong ≤ pos % s.pageSz) (hhigh : pos % s.pageSz < p.mb.size) :
    s.Covered pos := by
  have hholds := h.holds (pos / s.pageSz)
  rw [(h.toShape.view_page hpart).2] at hholds
  have hcovered := hholds (pos % s.pageSz) hlow hhigh
  rwa [Nat.div_add_mod'] at hcovered

theorem Kept.covered_block (h : Kept total s) {k : Nat} {p : PagePart}
    (hpart : s.partialGetByIdx k = some p) (hlow : k * s.pageSz + p.userLong ≤ pos)
    (hhigh : pos < k * s.pageSz + p.mb.size) : s.Covered pos := by
  obtain ⟨-, hsize, -, -⟩ := h.toShape.part (h.toShape.view_page hpart).2
  have hblock : pos / s.pageSz = k := by
    apply Nat.div_eq_of_lt_le
    · omega
    · rw [Nat.succ_mul]
      omega
  have hat := Nat.div_add_mod' pos s.pageSz
  rw [hblock] at hat
  rw [← hblock] at hpart
  exact h.covered_part hpart (by omega) (by omega)

theorem le_cases (page : Nat) {first last : Nat} (h : first ≤ last) :
    first / page < last / page ∨ first / page = last / page ∧ first % page ≤ last % page := by
  have hle : first / page ≤ last / page := Nat.div_le_div_right h
  rcases Nat.lt_or_eq_of_le hle with hlt | heq
  · exact .inl hlt
  · have hfirst := Nat.div_add_mod' first page
    have hlast := Nat.div_add_mod' last page
    rw [heq] at hfirst
    exact .inr ⟨heq, by omega⟩

theorem lookup_some {rel : Nat} {p : PagePart}
    (h : (if rel > 0 then s.partialGetByIdx b else none) = some p) :
    s.partialGetByIdx b = some p := by
  split at h
  · exact h
  · cases h

theorem Kept.checkFinish_covered (h : Kept total s) {first last : Nat}
    (hcheck : s.checkFinish first last = true) (hfirst : first ≤ pos / s.pageSz)
    (hlast : pos ≤ last) (htotal : pos < total) : s.Covered pos := by
  simp only [checkFinish] at hcheck
  have hcases := le_cases s.pageSz hlast
  cases hpart : (if last % s.pageSz > 0 then s.partialGetByIdx (last / s.pageSz : Nat) else none) with
  | none =>
      rw [hpart] at hcheck
      exact h.covered_full (checkMultiBlocks_iff.1 hcheck _ hfirst (by omega)) htotal
  | some p =>
      rw [hpart] at hcheck
      have hpage := lookup_some hpart
      have hplain := (h.parts p (find_index hpage).1).plain
      simp only [hplain.getSize, Bool.if_false_left, Bool.and_eq_true, Bool.not_eq_true',
        decide_eq_false_iff_not] at hcheck
      obtain ⟨hbegin, hreach, hblocks⟩ := hcheck
      rcases hcases with hbefore | ⟨hsame, hrel⟩
      · rw [if_neg (by omega)] at hblocks
        exact h.covered_full (checkMultiBlocks_iff.1 hblocks _ hfirst (by omega)) htotal
      · rw [← hsame] at hpage
        exact h.covered_part hpage (by omega) (by omega)

/-- **No false answer.**  What `MemBufferMappedCheckBytes` says is there was written. -/
theorem Kept.checkBytes_covered (h : Kept total s) (hcheck : s.checkBytes base offset = true)
    (hbase : base.toNat ≤ pos) (hend : pos ≤ s.checkEnd base offset) (htotal : pos < total) :
    s.Covered pos := by
  simp only [checkBytes] at hcheck
  obtain ⟨first, hfirst⟩ : ∃ n, base.toNat = n := ⟨_, rfl⟩
  obtain ⟨last, hlast⟩ : ∃ n, s.checkEnd base offset = n := ⟨_, rfl⟩
  rw [hfirst] at hcheck hbase
  rw [hlast] at hcheck hend
  have hcases := le_cases s.pageSz hbase
  have hcases' := le_cases s.pageSz hend
  cases hpart : (if first % s.pageSz > 0 then s.partialGetByIdx (first / s.pageSz : Nat)
      else none) with
  | none =>
      rw [hpart] at hcheck
      exact h.checkFinish_covered hcheck (by omega) hend htotal
  | some p =>
      rw [hpart] at hcheck
      have hpage := lookup_some hpart
      have hplain := (h.parts p (find_index hpage).1).plain
      have hin := Nat.mod_lt pos h.page
      simp only [hplain.getSize, Bool.if_false_left, Bool.and_eq_true, Bool.not_eq_true',
        decide_eq_false_iff_not] at hcheck
      obtain ⟨hbegin, hcheck⟩ := hcheck
      by_cases hblock : first / s.pageSz = last / s.pageSz
      · rw [if_pos hblock] at hcheck
        have hreach : ¬p.mb.size < last % s.pageSz + 1 := by simpa using hcheck
        have hsame : first / s.pageSz = pos / s.pageSz := by omega
        rw [hsame] at hpage
        exact h.covered_part hpage (by omega) (by omega)
      · rw [if_neg hblock] at hcheck
        simp only [Bool.and_eq_true, Bool.not_eq_true', decide_eq_false_iff_not] at hcheck
        obtain ⟨hwhole, hrest⟩ := hcheck
        rcases hcases with hbehind | ⟨hsame, hrel⟩
        · exact h.checkFinish_covered hrest hbehind hend htotal
        · rw [hsame] at hpage
          exact h.covered_part hpage (by omega) (by omega)

theorem Shape.below_of_bit (h : Shape total s) (hlast : s.dynBitmap.bitTest (total / s.pageSz) = false)
    (hset : s.dynBitmap.bitTest (pos / s.pageSz) = true) : pos < total := by
  have hinside := (h.complete _ hset).1
  have hne : pos / s.pageSz ≠ total / s.pageSz := by
    intro heq
    rw [heq, hlast] at hset
    cases hset
  have hle : pos / s.pageSz ≤ total / s.pageSz :=
    (Nat.le_div_iff_mul_le h.page).2 (Nat.le_of_lt hinside)
  exact Nat.lt_of_not_le fun hbehind => hne (le_antisymm hle (Nat.div_le_div_right hbehind))

theorem Shape.below_of_part (h : Shape total s) {p : PagePart}
    (hpart : s.partialGetByIdx (pos / s.pageSz : Nat) = some p)
    (hhigh : pos % s.pageSz < p.mb.size) : pos < total := by
  have hreach := (h.part (h.view_page hpart).2).2.2.2
  have hat := Nat.div_add_mod' pos s.pageSz
  have hsize := h.size
  omega

theorem Shape.checkFinish_below (h : Shape total s) {first last : Nat}
    (hclear : s.dynBitmap.bitTest (total / s.pageSz) = false)
    (hcheck : s.checkFinish first last = true) (hfirst : first ≤ last / s.pageSz) :
    last < total := by
  simp only [checkFinish] at hcheck
  cases hpart : (if last % s.pageSz > 0 then s.partialGetByIdx (last / s.pageSz : Nat) else none) with
  | none =>
      rw [hpart] at hcheck
      exact h.below_of_bit hclear (checkMultiBlocks_iff.1 hcheck _ hfirst le_rfl)
  | some p =>
      rw [hpart] at hcheck
      have hpage := lookup_some hpart
      have hplain := (h.parts p (find_index hpage).1).plain
      simp only [hplain.getSize, Bool.if_false_left, Bool.and_eq_true, Bool.not_eq_true',
        decide_eq_false_iff_not] at hcheck
      exact h.below_of_part hpage (by omega)

theorem Shape.checkBytes_below (h : Shape total s)
    (hclear : s.dynBitmap.bitTest (total / s.pageSz) = false)
    (hcheck : s.checkBytes base offset = true) (horder : base.toNat ≤ s.checkEnd base offset) :
    s.checkEnd base offset < total := by
  simp only [checkBytes] at hcheck
  obtain ⟨first, hfirst⟩ : ∃ n, base.toNat = n := ⟨_, rfl⟩
  obtain ⟨last, hlast⟩ : ∃ n, s.checkEnd base offset = n := ⟨_, rfl⟩
  rw [hfirst, hlast] at hcheck horder
  rw [hlast]
  have hle : first / s.pageSz ≤ last / s.pageSz := Nat.div_le_div_right horder
  cases hpart : (if first % s.pageSz > 0 then s.partialGetByIdx (first / s.pageSz : Nat)
      else none) with
  | none =>
      rw [hpart] at hcheck
      exact h.checkFinish_below hclear hcheck hle
  | some p =>
      rw [hpart] at hcheck
      have hpage := lookup_some hpart
      have hplain := (h.parts p (find_index hpage).1).plain
      simp only [hplain.getSize, Bool.if_false_left, Bool.and_eq_true, Bool.not_eq_true',
        decide_eq_false_iff_not] at hcheck
      obtain ⟨-, hcheck⟩ := hcheck
      by_cases hblock : first / s.pageSz = last / s.pageSz
      · rw [if_pos hblock] at hcheck
        have hreach : ¬p.mb.size < last % s.pageSz + 1 := by simpa using hcheck
        rw [hblock] at hpage
        exact h.below_of_part hpage (by omega)
      · rw [if_neg hblock] at hcheck
        simp only [Bool.and_eq_true] at hcheck
        exact h.checkFinish_below hclear hcheck.2 (by omega)

/-! ## A buffer that has everything -/

/-- A buffer in which all bytes of the content were written, and which knows it. -/
structure Whole (total : Nat) (s : MemBufferMapped) : Prop extends Kept total s where
  told : Told s
  covered : ∀ pos < total, s.Covered pos

/-- A block that has every byte of the content is complete, or has a partial page from its
first byte to the last one of the content. -/
theorem Whole.block (h : Whole total s) (hinside : b * s.pageSz < total) :
    s.dynBitmap.bitTest b = true ∨
      ∃ p, s.partialGetByIdx b = some p ∧ p.mb.Plain ∧ p.userLong = 0 ∧
        b * s.pageSz + p.mb.size = total ∧ p.mb.size < s.pageSz := by
  have hpage := h.page
  have htold := h.told b
  cases hview : s.view b with
  | full => exact .inl (view_eq_full.1 hview)
  | empty =>
      rw [hview] at htold
      exact absurd (h.covered (b * s.pageSz + 0) hinside) (htold 0 hpage)
  | part lo hi =>
      rw [hview] at htold
      obtain ⟨p, hpart, hfits, rfl, rfl⟩ := h.toShape.page_of_view hview
      obtain ⟨hlow, hhigh, hshort, hreach⟩ := h.toShape.part hview
      have hsize := h.size
      have hfirst := htold 0 hpage (h.covered _ hinside)
      have hend : b * s.pageSz + p.mb.size = total := by
        by_contra hne
        have hlast := htold p.mb.size (by omega) (h.covered _ (by omega))
        omega
      exact .inr ⟨p, hpart, hfits.plain, by omega, hend, by omega⟩

theorem Whole.lastPage (h : Whole total s) {p : PagePart} (hpart : s.partialGetByIdx b = some p) :
    p.mb.Plain ∧ p.userLong = 0 ∧ b * s.pageSz + p.mb.size = total ∧ p.mb.size < s.pageSz ∧
      s.dynBitmap.bitTest b = false := by
  obtain ⟨hclear, hview⟩ := h.toShape.view_page hpart
  obtain ⟨hlow, -, -, hreach⟩ := h.toShape.part hview
  have hsize := h.size
  rcases h.block (b := b) (by omega) with hset | ⟨q, hq, hplain, hbegin, hend, hshort⟩
  · rw [hclear] at hset
    cases hset
  · obtain rfl : p = q := Option.some.inj (hpart.symm.trans hq)
    exact ⟨hplain, hbegin, hend, hshort, hclear⟩

theorem Whole.complete_of_behind (h : Whole total s) (hinside : b * s.pageSz + s.pageSz ≤ total) :
    s.dynBitmap.bitTest b = true := by
  have hpage := h.toShape.page
  rcases h.block (b := b) (by omega) with hset | ⟨p, -, -, -, hend, hshort⟩
  · exact hset
  · omega

theorem Whole.mainSize (h : Whole total s) : s.mainMb.size = total := by
  apply le_antisymm h.toShape.size
  rcases Nat.eq_zero_or_pos total with hzero | hpos
  · omega
  have hat := Nat.div_add_mod' (total - 1) s.pageSz
  have hrel := Nat.mod_lt (total - 1) h.toShape.page
  rcases h.block (b := (total - 1) / s.pageSz) (by omega) with hset | ⟨p, hpart, -, -, hend, -⟩
  · have hreach := (h.toShape.complete _ hset).2
    omega
  · have hreach := (h.toShape.part (h.toShape.view_page hpart).2).2.2.2
    omega

theorem Whole.complete_before (h : Whole total s) {k : Nat} (hbefore : b < k)
    (hinside : k * s.pageSz ≤ total) : s.dynBitmap.bitTest b = true := by
  apply h.complete_of_behind
  have hle : (b + 1) * s.pageSz ≤ k * s.pageSz := Nat.mul_le_mul_right _ hbefore
  rw [Nat.succ_mul] at hle
  omega

theorem Whole.checkFinish_iff (h : Whole total s) {first last : Nat}
    (hfirst : first ≤ last / s.pageSz) (hlast : last ≤ total) :
    s.checkFinish first last = true ↔
      s.dynBitmap.bitTest (last / s.pageSz) = true ∨ last < total ∧ last % s.pageSz ≠ 0 := by
  have hat := Nat.div_add_mod' last s.pageSz
  have hbefore : ∀ k, k < last / s.pageSz → s.dynBitmap.bitTest k = true := fun k hk =>
    h.complete_before hk (by omega)
  simp only [checkFinish]
  cases hpart : (if last % s.pageSz > 0 then s.partialGetByIdx (last / s.pageSz : Nat) else none) with
  | none =>
      simp only [checkMultiBlocks_iff]
      constructor
      · intro hall
        exact .inl (hall _ hfirst le_rfl)
      · intro hanswer
        have hset : s.dynBitmap.bitTest (last / s.pageSz) = true := by
          rcases hanswer with hset | ⟨hinside, hrel⟩
          · exact hset
          · rw [if_pos (Nat.pos_of_ne_zero hrel)] at hpart
            rcases h.block (b := last / s.pageSz) (by omega) with hset | ⟨p, hp, -⟩
            · exact hset
            · rw [hpart] at hp
              cases hp
        intro k _ hk
        rcases Nat.lt_or_eq_of_le hk with hlt | heq
        · exact hbefore k hlt
        · rw [heq]
          exact hset
  | some p =>
      have hrel : 0 < last % s.pageSz := by
        by_contra hzero
        rw [if_neg hzero] at hpart
        cases hpart
      obtain ⟨hplain, hbegin, hend, -, hclear⟩ := h.lastPage (lookup_some hpart)
      have hblocks : (if last / s.pageSz = 0 then true
          else s.dynBitmap.checkMultiBlocks first (last / s.pageSz - 1)) = true := by
        split
        · rfl
        · exact checkMultiBlocks_iff.2 fun k _ hk => hbefore k (by omega)
      simp only [hplain.getSize, hblocks, hbegin, hclear]
      simp only [Nat.lt_irrefl, gt_iff_lt, if_false, Bool.if_false_left, Bool.and_true,
        Bool.not_eq_true', decide_eq_false_iff_not, Bool.false_eq_true, false_or]
      omega

/-- **The answer on a whole buffer.** -/
theorem Whole.checkBytes_iff (h : Whole total s) (horder : base.toNat ≤ s.checkEnd base offset)
    (hend : s.checkEnd base offset ≤ total) :
    s.checkBytes base offset = true ↔
      s.dynBitmap.bitTest (s.checkEnd base offset / s.pageSz) = true ∨
        s.checkEnd base offset < total ∧ s.checkEnd base offset % s.pageSz ≠ 0 := by
  simp only [checkBytes]
  obtain ⟨first, hfirst⟩ : ∃ n, base.toNat = n := ⟨_, rfl⟩
  obtain ⟨last, hlast⟩ : ∃ n, s.checkEnd base offset = n := ⟨_, rfl⟩
  rw [hfirst] at horder ⊢
  rw [hlast] at horder hend ⊢
  have hle : first / s.pageSz ≤ last / s.pageSz := Nat.div_le_div_right horder
  cases hpart : (if first % s.pageSz > 0 then s.partialGetByIdx (first / s.pageSz : Nat)
      else none) with
  | none => exact h.checkFinish_iff hle hend
  | some p =>
      have hrel : 0 < first % s.pageSz := by
        by_contra hzero
        rw [if_neg hzero] at hpart
        cases hpart
      -- the block of `base` is the last one, and so is that of `last`
      obtain ⟨hplain, hbegin, hreach, hshort, hclear⟩ := h.lastPage (lookup_some hpart)
      have hcases := le_cases s.pageSz horder
      have hat := Nat.div_add_mod' last s.pageSz
      have hsame : first / s.pageSz = last / s.pageSz := by
        by_contra hne
        have hlater : (first / s.pageSz + 1) * s.pageSz ≤ last / s.pageSz * s.pageSz :=
          Nat.mul_le_mul_right _ (by omega)
        rw [Nat.succ_mul] at hlater
        omega
      rw [hsame] at hreach hclear
      simp only [hplain.getSize, hbegin, hsame, hclear]
      simp only [Nat.not_lt_zero, if_false, if_true, Bool.if_false_left, Bool.and_true,
        Bool.not_eq_true', decide_eq_false_iff_not, Bool.false_eq_true, false_or]
      omega

end Answers

/-! ## Every buffer -/

/-- The bytes from `base` to `last` were written. -/
def Through (s : MemBufferMapped) (base last : Int) : Prop :=
  ∀ pos : Nat, base ≤ pos → (pos : Int) ≤ last → s.Covered pos

/-- The last byte that the caller asks for: with an `offset` in front of `base`, the last one
of the main buffer. -/
def lastByte (s : MemBufferMapped) (base offset : Int) : Int :=
  if offset < base.toNat then (s.mainMb.size : Int) - 1 else offset

/-- The last byte that the source goes by is in a complete block, or in front of the end and
not the first one of its block. -/
def Reads (s : MemBufferMapped) (base offset : Int) : Prop :=
  s.dynBitmap.bitTest (s.checkEnd base offset / s.pageSz) = true ∨
    ¬offset < base.toNat ∧ s.checkEnd base offset % s.pageSz ≠ 0

/-- **Asking for a range.**  After clean calls for a content of `total` bytes, what
`MemBufferMappedCheckBytes` says is there was written, unless the question goes behind the
content and the last block is complete. If the calls dropped nothing and wrote the whole content, it
answers a question inside the content with 1 exactly if `Reads` holds. -/
theorem checkBytes_answers (pageSz total : Nat) (hpage : 0 < pageSz)
    (hsmall : total / pageSz < 2 ^ 31) (ops : List Op)
    (hclean : Runs.Meets perform (Clean total) (.live (init pageSz)) ops) :
    (∀ base offset : Int,
      offset < total ∨ (runOps pageSz ops).state.dynBitmap.bitTest (total / pageSz) = false →
        (runOps pageSz ops).state.checkBytes base offset = true →
          (runOps pageSz ops).state.Through base
            ((runOps pageSz ops).state.lastByte base offset)) ∧
    (Runs.Meets perform Lossless (.live (init pageSz)) ops →
      (∀ pos < total, (runOps pageSz ops).state.Covered pos) →
        ∀ base offset : Int, base < total → offset < total →
          ((runOps pageSz ops).state.checkBytes base offset = true ↔
            (runOps pageSz ops).state.Reads base offset)) := by
  obtain ⟨hkept, hsz⟩ := runOps_kept hpage hsmall hclean
  obtain ⟨s, hs⟩ : ∃ s, (runOps pageSz ops).state = s := ⟨_, rfl⟩
  rw [hs] at hkept hsz ⊢
  subst hsz
  have hsize := hkept.size
  refine ⟨fun base offset hquery hcheck pos hlow hhigh => ?_,
    fun hlossless hcovered base offset hbase hoffset => ?_⟩
  · by_cases hdefault : offset < base.toNat
    · rw [lastByte, if_pos hdefault] at hhigh
      apply hkept.checkBytes_covered hcheck (by omega) ?_ (by omega)
      rw [checkEnd, if_pos hdefault, hkept.plain.getSize]
      omega
    · rw [lastByte, if_neg hdefault] at hhigh
      have hend : s.checkEnd base offset = offset.toNat := if_neg hdefault
      have hinside : offset < total := by
        rcases hquery with hinside | hclear
        · exact hinside
        · have hbelow := hkept.checkBytes_below hclear hcheck (by omega)
          omega
      exact hkept.checkBytes_covered hcheck (by omega) (by omega) (by omega)
  · have htold := runOps_told hpage hsmall hclean hlossless
    rw [hs] at htold
    have hwhole : Whole total s := ⟨hkept, htold, hcovered⟩
    have hmain := hwhole.mainSize
    unfold Reads
    by_cases hdefault : offset < base.toNat
    · have hend : s.checkEnd base offset = total := by
        rw [checkEnd, if_pos hdefault, hkept.plain.getSize, hmain]
      rw [hwhole.checkBytes_iff (by omega) (by omega), hend]
      exact or_congr_right (and_congr_left'
        (iff_of_false (Nat.lt_irrefl _) (not_not_intro hdefault)))
    · have hend : s.checkEnd base offset = offset.toNat := if_neg hdefault
      have htotal : offset.toNat < total := by omega
      rw [hwhole.checkBytes_iff (by omega) (by omega), hend]
      exact or_congr_right (and_congr_left' (iff_of_true htotal hdefault))

/-- A content of 15 bytes in three pieces, the last of them in front. -/
def piecewise : List Op :=
  [.write 4 (List.replicate 2 1), .write 6 (List.replicate 9 2), .add (List.replicate 4 3)]

theorem piecewise_answered :
    (runOps 10 piecewise).state.checkBytes 2 12 = true ∧
      (runOps 10 piecewise).state.Through 2 12 := by
  have hanswers := checkBytes_answers 10 15 (by decide) (by decide) piecewise
    (by decide +kernel)
  have hcheck := (hanswers.2 (by decide +kernel) (by unfold Covered; decide +kernel) 2 12
    (by decide) (by decide)).2 (by unfold Reads; decide +kernel)
  exact ⟨hcheck, hanswers.1 2 12 (.inl (by decide)) hcheck⟩

/-- What a caller of `MemBufferMappedCheckBytes` relies on, for a content of `total` bytes. -/
def Answers (total : Nat) (s : MemBufferMapped) : Prop :=
  (∀ base offset : Int, s.checkBytes base offset = true →
    s.Through base (s.lastByte base offset)) ∧
  ((∀ pos < total, s.Covered pos) →
    ∀ base offset : Int, base < total → offset < total → s.checkBytes base offset = true)

/-- All 20 bytes were written, in whole pages, and asking for all of them fails. -/
theorem whole_buffer_denied :
    ¬Answers 20 (runOps 10 [.write 0 (List.replicate 20 1)]).state := by
  intro h
  have hcheck := h.2 (by unfold Covered; decide +kernel) 0 (-1) (by decide) (by decide)
  have hdenied : (runOps 10 [.write 0 (List.replicate 20 1)]).state.checkBytes 0 (-1) = false := by
    decide +kernel
  rw [hdenied] at hcheck
  cases hcheck

end MemBufferMapped

end BrbData
