import BrbFramework.Lib.Runs
import BrbFramework.Data.MemBuffer
import BrbFramework.Data.DynBitMap
import Mathlib.Data.List.Basic

/-!
# Mapped memory buffers

A `MemBufferMapped` collects a content that arrives in slices at any offsets.
A write is cut at the page borders: the pages in the middle are complete at
once, and what is left at either end goes to the partial page of its block,
which is complete when its bytes fill the page. A bitmap says which blocks
are complete.

The block index is a `long`, but a partial page keeps it in an `int`, and so
does the loop over the blocks of an aligned write.
-/

namespace BrbData

open Handler Machine List

/-- A partial page, with the buffer's `user_long` and `user_int`. -/
structure MemBufferMapped.PagePart where
  mb : MemBuffer
  /-- Where in the page the data begins. -/
  userLong : Nat := 0
  /-- The index of the block. -/
  userInt : Int := 0
  deriving DecidableEq, Repr

/-- One call of `MemBufferMappedWrite`. -/
structure MemBufferMapped.Call where
  offset : Nat
  size : Nat
  deriving DecidableEq, Repr

structure MemBufferMapped where
  partialMbList : List MemBufferMapped.PagePart := []
  mainMb : MemBuffer
  dynBitmap : DynBitMap
  curOffset : Nat := 0
  pageSz : Nat
  pctStringUpdate : Bool := false
  complete : Bool := false
  /-- The calls so far, which no function of the source reads. -/
  calls : List MemBufferMapped.Call := []
  deriving DecidableEq, Repr

namespace MemBufferMapped

inductive Fault
  | divideByZero
  /-- `assert((data_sz % mapped_mb->page_sz) == 0)`. -/
  | misaligned
  /-- A bit in front of the table. -/
  | wildBit
  /-- The loop index steps over the largest `int`. -/
  | intOverflow
  deriving DecidableEq, Repr

abbrev M := EStateM Fault MemBufferMapped

/-- `MemBufferMappedInit`. -/
def init (pageSz : Nat) : MemBufferMapped :=
  { mainMb := .new pageSz, dynBitmap := .new 256, pageSz := pageSz }

/-- `MemBufferMappedPartialGetByIdx`. -/
def partialGetByIdx (s : MemBufferMapped) (blockIdx : Int) : Option PagePart :=
  s.partialMbList.find? fun p => p.userInt = blockIdx

/-- `MemBufferMappedPartialDrop` of the page that `MemBufferMappedPartialGetByIdx` found. -/
def partialDrop (s : MemBufferMapped) (blockIdx : Int) : MemBufferMapped :=
  { s with partialMbList := s.partialMbList.eraseP fun p => p.userInt = blockIdx }

/-- The loop of `MemBufferMappedAlignedWrite` from `i` over the `n` blocks that are left. -/
def setBlocks (i : Int) : Nat → M PUnit
  | 0 => pure ()
  | n + 1 => do
    assertThat (0 ≤ i) .wildBit
    modify fun s => { s with dynBitmap := s.dynBitmap.bitSet i.toNat }
    modify fun s => s.partialDrop i
    assertThat (i + 1 < 2 ^ 31) .intOverflow
    setBlocks (i + 1) n

/-- `MemBufferMappedAlignedWrite`. -/
def alignedWrite (data : List UInt8) (blockIdx : Nat) : M PUnit := do
  let s ← get
  let absOffset := blockIdx * s.pageSz
  let blockCount := data.length / s.pageSz
  let blockUpperIdx := blockCount + blockIdx
  assertThat (data.length % s.pageSz = 0) .misaligned
  modify fun s => { s with mainMb := s.mainMb.offsetWrite absOffset data }
  let i := int32 blockIdx
  setBlocks i (blockUpperIdx - i).toNat

/-- Where the data of a partial page begins once it took `dataSz` bytes at
`relOffset`, or `none` if `MemBufferMappedPartialDataProcess` drops them. -/
def PagePart.accepts (p : PagePart) (dataSz relOffset : Nat) : Option Nat :=
  let pagePartMbOff := p.userLong + p.mb.getSize
  let pagePartNewSz := dataSz + relOffset
  if relOffset < p.userLong ∧ pagePartNewSz < p.userLong then none
  else if relOffset > pagePartMbOff then none
  else if relOffset > p.userLong ∧ pagePartNewSz < pagePartMbOff then none
  else some (if relOffset > p.userLong then p.userLong else relOffset)

/-- A partial page that took `data` at `relOffset`. -/
def PagePart.fill (p : PagePart) (data : List UInt8) (blockIdx relOffset partialMbOff : Nat) :
    PagePart :=
  { mb := p.mb.offsetWrite relOffset data, userLong := partialMbOff, userInt := int32 blockIdx }

/-- What `MemBufferMappedPartialDataProcess` does once the data is in the partial page. -/
def partialStored (pagePart : PagePart) (data : List UInt8) (blockIdx relOffset : Nat) :
    M PUnit := do
  let s ← get
  modify fun s => { s with mainMb := s.mainMb.offsetWrite (blockIdx * s.pageSz + relOffset) data }
  if pagePart.mb.getSize - pagePart.userLong ≥ s.pageSz then
    alignedWrite (pagePart.mb.offsetRead 0 s.pageSz) blockIdx
    modify fun s => s.partialDrop blockIdx

/-- `MemBufferMappedPartialDataProcess`. -/
def partialDataProcess (data : List UInt8) (blockIdx relOffset : Nat) : M Bool := do
  let s ← get
  if s.dynBitmap.bitTest blockIdx then
    return false
  match s.partialGetByIdx blockIdx with
  | some p =>
      match p.accepts data.length relOffset with
      | none => return false
      | some partialMbOff =>
          let pagePart := p.fill data blockIdx relOffset partialMbOff
          modify fun s => { s with
            partialMbList := s.partialMbList.replaceF fun p =>
              if p.userInt = blockIdx then some pagePart else none }
          partialStored pagePart data blockIdx relOffset
          return true
  | none =>
      let pagePart := PagePart.fill { mb := .new s.pageSz } data blockIdx relOffset relOffset
      modify fun s => { s with partialMbList := pagePart :: s.partialMbList }
      partialStored pagePart data blockIdx relOffset
      return true

/-- How many bytes at the front of a write lie in a page that it does not begin. -/
def blockSizeTrail (pageSz offset dataSz : Nat) : Nat :=
  let blockOffRelative := offset % pageSz
  let blockSizeTrail := if blockOffRelative > 0 then pageSz - blockOffRelative else 0
  if blockSizeTrail > dataSz then dataSz else blockSizeTrail

/-- "Issue the ALIGNED write invoke if there is DATA to write." -/
def writeAligned (data : List UInt8) (blockIdx roundedDataOffset : Nat) : M PUnit := do
  if data.length > 0 then
    alignedWrite data blockIdx
    modify fun s => { s with
      curOffset := if s.curOffset < roundedDataOffset then roundedDataOffset else s.curOffset }

/-- "There is TRAIL data, save it", and the same for the FINISH data. -/
def writePartial (data : List UInt8) (blockIdx relOffset : Nat) : M PUnit := do
  if data.length > 0 then
    let _ ← partialDataProcess data blockIdx relOffset

/-- `MemBufferMappedWrite`. -/
def write (offset : Nat) (data : List UInt8) : M PUnit := do
  let s ← get
  assertThat (s.pageSz ≠ 0) .divideByZero
  let dataSz := data.length
  let blockIdxLower := offset / s.pageSz
  let blockIdxHigher := (offset + dataSz) / s.pageSz
  let blockOffRelative := offset % s.pageSz
  let blockSizeTrail := blockSizeTrail s.pageSz offset dataSz
  let blockSizeFinish := (dataSz - blockSizeTrail) % s.pageSz
  let blockIdxBegin := if blockSizeTrail > 0 then blockIdxLower + 1 else blockIdxLower
  let roundedData := data.drop blockSizeTrail
  let roundedDataSz := dataSz - (blockSizeTrail + blockSizeFinish)
  let roundedDataOffset := blockIdxHigher * s.pageSz
  writeAligned (roundedData.take roundedDataSz) blockIdxBegin roundedDataOffset
  writePartial (data.take blockSizeTrail) blockIdxLower blockOffRelative
  writePartial (roundedData.drop roundedDataSz) blockIdxHigher 0
  modify fun s => { s with pctStringUpdate := true }

/-! ## Runs -/

/-- The slice of the content `f` that a call writes. -/
def slice (f : Nat → UInt8) (c : Call) : List UInt8 :=
  (List.range c.size).map fun i => f (c.offset + i)

/-- One write of a slice of `f`. -/
def handle (f : Nat → UInt8) (c : Call) : M PUnit := do
  modify fun s => { s with calls := s.calls ++ [c] }
  write c.offset (slice f c)

/-- The calls `calls` on a new buffer. -/
def runFrom (f : Nat → UInt8) (pageSz : Nat) (calls : List Call) :
    Runs.Config Fault MemBufferMapped :=
  Runs.run (handle f) (.live (init pageSz)) calls

/-! ## What a set bit promises -/

/-- Some call wrote the byte at `pos`. -/
def Covered (s : MemBufferMapped) (pos : Nat) : Prop :=
  ∃ c ∈ s.calls, c.offset ≤ pos ∧ pos < c.offset + c.size

/-- The byte at `pos` was written, and the main buffer holds it. -/
def Held (f : Nat → UInt8) (s : MemBufferMapped) (pos : Nat) : Prop :=
  s.Covered pos ∧ pos < s.mainMb.size ∧ s.mainMb.data[pos]? = some (f pos)

/-- Every byte of a block whose bit is set is held. -/
def Sound (f : Nat → UInt8) (s : MemBufferMapped) : Prop :=
  ∀ block, s.dynBitmap.bitTest block = true →
    ∀ i < s.pageSz, s.Held f (block * s.pageSz + i)

/-- The page takes `dataSz` bytes at `relOffset` although it ends before them. -/
def PagePart.Gap (p : PagePart) (dataSz relOffset : Nat) : Prop :=
  p.mb.getSize < relOffset ∧ relOffset ≤ p.userLong + p.mb.getSize ∧
    p.userLong + p.mb.getSize ≤ relOffset + dataSz

/-- The call stays below the block that an `int` cannot count to, and the front of
its data leaves no gap in the partial page of an incomplete block. -/
structure Orderly (s : MemBufferMapped) (c : Call) : Prop where
  small : (c.offset + c.size) / s.pageSz < 2 ^ 31
  closed : 0 < blockSizeTrail s.pageSz c.offset c.size →
    s.dynBitmap.bitTest (c.offset / s.pageSz) = false →
      ∀ p ∈ s.partialGetByIdx (c.offset / s.pageSz : Nat),
        ¬ p.Gap (blockSizeTrail s.pageSz c.offset c.size) (c.offset % s.pageSz)

/-! ## Slices -/

/-- The bytes of `data` are those of `f` from `off` on. -/
def SliceOf (f : Nat → UInt8) (off : Nat) (data : List UInt8) : Prop :=
  ∀ i < data.length, data[i]? = some (f (off + i))

section Slices

variable {f : Nat → UInt8} {off : Nat} {data : List UInt8}

theorem sliceOf_slice (f : Nat → UInt8) (c : Call) : SliceOf f c.offset (slice f c) := by
  intro i hi
  have hi : i < c.size := by simpa [slice] using hi
  simp [slice, getElem?_range hi]

theorem SliceOf.take (h : SliceOf f off data) (n : Nat) : SliceOf f off (data.take n) := by
  intro i hi
  rw [length_take] at hi
  rw [getElem?_take_of_lt (by omega)]
  exact h i (by omega)

theorem SliceOf.drop (h : SliceOf f off data) (n : Nat) :
    SliceOf f (off + n) (data.drop n) := by
  intro i hi
  rw [length_drop] at hi
  rw [getElem?_drop, Nat.add_assoc]
  exact h (n + i) (by omega)

end Slices

/-! ## The invariant -/

/-- The bytes of a partial page from `user_long` to its size are written and right. -/
structure PagePart.Good (f : Nat → UInt8) (s : MemBufferMapped) (p : PagePart) : Prop where
  plain : p.mb.Plain
  low : p.userLong ≤ p.mb.size
  high : p.mb.size ≤ s.pageSz
  index : 0 ≤ p.userInt
  filled : ∀ i, p.userLong ≤ i → i < p.mb.size →
    s.Covered (p.userInt.toNat * s.pageSz + i) ∧
      p.mb.data[i]? = some (f (p.userInt.toNat * s.pageSz + i))

structure Inv (f : Nat → UInt8) (s : MemBufferMapped) : Prop where
  plain : s.mainMb.Plain
  bitmap : s.dynBitmap.WF
  sound : s.Sound f
  parts : ∀ p ∈ s.partialMbList, p.Good f s
  small : ∀ c ∈ s.calls, (c.offset + c.size) / s.pageSz < 2 ^ 31

structure Later (s t : MemBufferMapped) : Prop where
  pageSz : t.pageSz = s.pageSz
  calls : t.calls = s.calls

section Steps

variable {f : Nat → UInt8} {s t : MemBufferMapped} {off : Nat} {data : List UInt8}

theorem Later.refl (s : MemBufferMapped) : Later s s := ⟨rfl, rfl⟩

theorem Later.trans {u : MemBufferMapped} (h : Later s t) (h' : Later t u) : Later s u :=
  ⟨h'.pageSz.trans h.pageSz, h'.calls.trans h.calls⟩

theorem Later.covered (h : Later s t) {pos : Nat} : t.Covered pos ↔ s.Covered pos := by
  simp only [Covered, h.calls]

theorem PagePart.Good.later {p : PagePart} (hp : p.Good f s) (h : Later s t) : p.Good f t := by
  refine ⟨hp.plain, hp.low, by rw [h.pageSz]; exact hp.high, hp.index, fun i hlow hhigh => ?_⟩
  rw [h.covered, h.pageSz]
  exact hp.filled i hlow hhigh

theorem Held.offsetWrite {pos : Nat} (hplain : s.mainMb.Plain) (h : s.Held f pos)
    (hdata : SliceOf f off data) :
    Held f { s with mainMb := s.mainMb.offsetWrite off data } pos := by
  obtain ⟨hcovered, hin, hbyte⟩ := h
  refine ⟨hcovered, ?_, ?_⟩
  · change pos < (s.mainMb.offsetWrite off data).size
    rw [MemBuffer.offsetWrite_size]
    omega
  · by_cases hpos : off ≤ pos ∧ pos < off + data.length
    · obtain ⟨i, rfl⟩ : ∃ i, pos = off + i := ⟨pos - off, by omega⟩
      have hi : i < data.length := by omega
      exact (MemBuffer.offsetWrite_inside hplain.toWF hplain.offset hi).trans (hdata i hi)
    · have hsame := MemBuffer.offsetWrite_outside hplain.toWF hplain.offset hin
        (show pos < off ∨ off + data.length ≤ pos by omega)
      exact hsame.trans hbyte

theorem Inv.mainWrite (h : Inv f s) (hdata : SliceOf f off data) :
    Inv f { s with mainMb := s.mainMb.offsetWrite off data } where
  plain := ⟨h.plain.toWF.offsetWrite h.plain.offset, by
    rw [MemBuffer.offsetWrite_offset]
    exact h.plain.offset⟩
  bitmap := h.bitmap
  sound block hset i hi := (h.sound block hset i hi).offsetWrite h.plain hdata
  parts p hp := (h.parts p hp).later ⟨rfl, rfl⟩
  small := h.small

theorem held_of_write (hplain : s.mainMb.Plain) (hdata : SliceOf f off data) {i : Nat}
    (hi : i < data.length) (hcovered : s.Covered (off + i)) :
    Held f { s with mainMb := s.mainMb.offsetWrite off data } (off + i) := by
  refine ⟨hcovered, ?_, ?_⟩
  · change off + i < (s.mainMb.offsetWrite off data).size
    rw [MemBuffer.offsetWrite_size]
    omega
  · exact (MemBuffer.offsetWrite_inside hplain.toWF hplain.offset hi).trans (hdata i hi)

/-- No byte of the main buffer or of a call is at `bound` or behind it. -/
def Bounded (bound : Nat) (s : MemBufferMapped) : Prop :=
  s.mainMb.size ≤ bound ∧ ∀ pos, s.Covered pos → pos < bound

/-- A write of `data` at `off`: what was held still is, and `data` is held. -/
structure Holding (f : Nat → UInt8) (off : Nat) (data : List UInt8) (s t : MemBufferMapped) :
    Prop extends Later s t where
  kept : ∀ pos, s.Held f pos → t.Held f pos
  stored : ∀ i < data.length, t.Held f (off + i)
  bounded : ∀ bound, s.Bounded bound → t.Bounded bound

theorem Later.held (h : Later s t) (hmain : t.mainMb = s.mainMb) {pos : Nat} :
    t.Held f pos ↔ s.Held f pos := by
  simp only [Held, h.covered, hmain]

theorem Later.bounded (h : Later s t) (hmain : t.mainMb = s.mainMb) {bound : Nat}
    (hs : s.Bounded bound) : t.Bounded bound :=
  ⟨by rw [hmain]; exact hs.1, fun pos hpos => hs.2 pos (h.covered.1 hpos)⟩

theorem Inv.holding (h : Inv f s) (hdata : SliceOf f off data) (hne : 0 < data.length)
    (hcovered : ∀ i < data.length, s.Covered (off + i)) :
    Holding f off data s { s with mainMb := s.mainMb.offsetWrite off data } where
  pageSz := rfl
  calls := rfl
  kept _ hpos := hpos.offsetWrite h.plain hdata
  stored i hi := held_of_write h.plain hdata hi (hcovered i hi)
  bounded bound hs := by
    refine ⟨?_, hs.2⟩
    have hlast := hs.2 _ (hcovered (data.length - 1) (by omega))
    have hmain := hs.1
    change (s.mainMb.offsetWrite off data).size ≤ bound
    rw [MemBuffer.offsetWrite_size]
    omega

theorem Holding.before {u : MemBufferMapped} (h : Holding f off data s t) (hlater : Later t u)
    (hkept : ∀ pos, t.Held f pos → u.Held f pos)
    (hbounded : ∀ bound, t.Bounded bound → u.Bounded bound) : Holding f off data s u where
  toLater := h.toLater.trans hlater
  kept pos hpos := hkept pos (h.kept pos hpos)
  stored i hi := hkept _ (h.stored i hi)
  bounded bound hs := hbounded bound (h.bounded bound hs)

theorem Inv.setBit (h : Inv f s) {block : Nat}
    (hheld : ∀ i < s.pageSz, s.Held f (block * s.pageSz + i)) :
    Inv f { s with dynBitmap := s.dynBitmap.bitSet block } where
  plain := h.plain
  bitmap := h.bitmap.bitSet block
  sound b hset := by
    have hset : (s.dynBitmap.bitSet block).bitTest b = true := hset
    rw [h.bitmap.bitTest_bitSet, Bool.or_eq_true, decide_eq_true_eq] at hset
    rcases hset with rfl | hset
    · exact hheld
    · exact h.sound b hset
  parts p hp := (h.parts p hp).later ⟨rfl, rfl⟩
  small := h.small

theorem Inv.drop (h : Inv f s) (block : Int) : Inv f (s.partialDrop block) where
  plain := h.plain
  bitmap := h.bitmap
  sound := h.sound
  parts p hp := (h.parts p (mem_of_mem_eraseP hp)).later ⟨rfl, rfl⟩
  small := h.small

theorem find_eraseP_of_ne {l : List PagePart} {a b : Int} (hne : a ≠ b) :
    (l.eraseP fun p => p.userInt = a).find? (fun p => p.userInt = b) =
      l.find? fun p => p.userInt = b := by
  induction l with
  | nil => rfl
  | cons p l ih =>
      by_cases ha : p.userInt = a
      · have hb : p.userInt ≠ b := fun hb => hne (ha.symm.trans hb)
        simp [ha, hne]
      · by_cases hb : p.userInt = b
        · simp [hb, hne.symm]
        · simp [ha, hb, ih]

/-- Setting the bits of the blocks `i` to `i + n` leaves the others alone. -/
structure Marked (i n : Nat) (s t : MemBufferMapped) : Prop extends Later s t where
  set : ∀ b, i ≤ b → b < i + n → t.dynBitmap.bitTest b = true
  bitTest : ∀ b, b < i ∨ i + n ≤ b → t.dynBitmap.bitTest b = s.dynBitmap.bitTest b
  page : ∀ b : Nat, b < i ∨ i + n ≤ b → t.partialGetByIdx b = s.partialGetByIdx b

theorem setBlocks_ends (n : Nat) : ∀ {i : Nat} {s : MemBufferMapped}, Inv f s →
    (∀ b, i ≤ b → b < i + n → ∀ j < s.pageSz, s.Held f (b * s.pageSz + j)) → i + n < 2 ^ 31 →
      Ends (setBlocks i n) s (fun _ t => Inv f t ∧ Marked i n s t ∧ t.mainMb = s.mainMb)
        fun _ _ => False := by
  induction n with
  | zero =>
      intro i s h _ _
      exact ⟨h, ⟨Later.refl s, fun _ _ _ => by omega, fun _ _ => rfl, fun _ _ => rfl⟩, rfl⟩
  | succ n ih =>
      intro i s h hheld hsmall
      simp only [setBlocks, ends_bind, ends_modify, ends_assertThat, decide_eq_true_eq,
        decide_eq_false_iff_not, Int.toNat_natCast]
      refine ⟨fun _ => ⟨fun _ => ?_, fun hbig => hbig (by omega)⟩, fun hneg => hneg (by omega)⟩
      have hinv := (h.setBit (hheld i le_rfl (by omega))).drop (i : Int)
      have hrest := ih (i := i + 1) hinv (fun b hlow hhigh j hj => hheld b (by omega) (by omega) j hj)
        (by omega)
      rw [Nat.cast_add, Nat.cast_one] at hrest
      refine hrest.imp fun _ t ht => ?_
      obtain ⟨hinv', hmarked, hmain⟩ := ht
      have hfirst (b : Nat) :
          (s.dynBitmap.bitSet i).bitTest b = (decide (b = i) || s.dynBitmap.bitTest b) :=
        h.bitmap.bitTest_bitSet i b
      refine ⟨hinv', ⟨⟨hmarked.pageSz, hmarked.calls⟩, fun b hlow hhigh => ?_, fun b hb => ?_,
        fun b hb => ?_⟩, hmain⟩
      · by_cases hb : b = i
        · rw [hmarked.bitTest b (by omega)]
          change (s.dynBitmap.bitSet i).bitTest b = _
          simp [hfirst, hb]
        · exact hmarked.set b (by omega) (by omega)
      · rw [hmarked.bitTest b (by omega)]
        change (s.dynBitmap.bitSet i).bitTest b = _
        simp [hfirst, show b ≠ i by omega]
      · rw [hmarked.page b (by omega)]
        exact find_eraseP_of_ne (by omega)

theorem alignedWrite_ends (h : Inv f s) {block : Nat} (hne : 0 < data.length)
    (hdata : SliceOf f (block * s.pageSz) data) (haligned : data.length % s.pageSz = 0)
    (hcovered : ∀ i < data.length, s.Covered (block * s.pageSz + i))
    (hsmall : data.length / s.pageSz + block < 2 ^ 31) :
    Ends (alignedWrite data block) s
      (fun _ t => Inv f t ∧ Marked block (data.length / s.pageSz) s t ∧
        Holding f (block * s.pageSz) data s t) fun _ _ => False := by
  simp only [alignedWrite, ends_bind, ends_get, ends_modify, ends_assertThat, decide_eq_true_eq,
    decide_eq_false_iff_not]
  refine ⟨fun _ => ?_, fun hno => hno haligned⟩
  have hcount : data.length / s.pageSz * s.pageSz = data.length :=
    Nat.div_mul_cancel (Nat.dvd_of_mod_eq_zero haligned)
  obtain ⟨n, hn⟩ : ∃ n, data.length / s.pageSz = n := ⟨_, rfl⟩
  rw [hn] at hsmall hcount ⊢
  have hindex : int32 block = block := int32_of_lt (by omega) (by omega)
  have hblocks : (((n + block : Nat) : Int) - int32 block).toNat = n := by omega
  rw [hblocks, hindex]
  refine (setBlocks_ends n (h.mainWrite hdata) (fun b hlow hhigh j hj => ?_) (by omega)).imp
    (fun _ t ht => ?_)
  rotate_left
  · obtain ⟨hinv, hmarked, hmain⟩ := ht
    have hlater := hmarked.toLater
    exact ⟨hinv, ⟨⟨hlater.pageSz, hlater.calls⟩, hmarked.set, hmarked.bitTest, hmarked.page⟩,
      (h.holding hdata hne hcovered).before hlater (fun _ hpos => (hlater.held hmain).2 hpos)
        fun _ hs => hlater.bounded hmain hs⟩
  obtain ⟨k, rfl⟩ : ∃ k, b = block + k := ⟨b - block, by omega⟩
  have hj : j < s.pageSz := hj
  have hk : k * s.pageSz + s.pageSz ≤ data.length := by
    calc k * s.pageSz + s.pageSz = (k + 1) * s.pageSz := (Nat.succ_mul _ _).symm
      _ ≤ n * s.pageSz := Nat.mul_le_mul_right _ (by omega)
      _ = data.length := hcount
  have hpos : (block + k) * s.pageSz + j = block * s.pageSz + (k * s.pageSz + j) := by
    rw [Nat.add_mul, Nat.add_assoc]
  change Held f _ ((block + k) * s.pageSz + j)
  rw [hpos]
  exact held_of_write h.plain hdata (by omega) (hcovered _ (by omega))

theorem PagePart.good_fill {p : PagePart} {block rel n : Nat} (hplain : p.mb.Plain)
    (hsize : p.mb.size ≤ s.pageSz) (hsmall : block < 2 ^ 31)
    (hdata : SliceOf f (block * s.pageSz + rel) data)
    (hcovered : ∀ i < data.length, s.Covered (block * s.pageSz + rel + i))
    (hfit : rel + data.length ≤ s.pageSz) (hn : n ≤ rel)
    (hold : ∀ i, n ≤ i → i < max p.mb.size (rel + data.length) →
      i < rel ∨ rel + data.length ≤ i →
        i < p.mb.size ∧ s.Covered (block * s.pageSz + i) ∧
          p.mb.data[i]? = some (f (block * s.pageSz + i))) :
    (p.fill data block rel n).Good f s := by
  have hindex : int32 block = block := int32_of_lt (by omega) (by omega)
  have hfilled : (p.fill data block rel n).mb.size = max p.mb.size (rel + data.length) :=
    MemBuffer.offsetWrite_size
  refine ⟨⟨hplain.toWF.offsetWrite hplain.offset, ?_⟩, ?_, ?_, ?_, fun i hi hin => ?_⟩
  · exact MemBuffer.offsetWrite_offset.trans hplain.offset
  · rw [hfilled]
    change n ≤ _
    omega
  · rw [hfilled]
    omega
  · change 0 ≤ int32 block
    omega
  rw [hfilled] at hin
  have hi : n ≤ i := hi
  change s.Covered ((int32 block).toNat * _ + i) ∧ (p.mb.offsetWrite rel data).data[i]? =
    some (f ((int32 block).toNat * _ + i))
  rw [hindex, Int.toNat_natCast]
  by_cases hnew : rel ≤ i ∧ i < rel + data.length
  · obtain ⟨j, rfl⟩ : ∃ j, i = rel + j := ⟨i - rel, by omega⟩
    have hj : j < data.length := by omega
    rw [← Nat.add_assoc]
    exact ⟨hcovered j hj, (MemBuffer.offsetWrite_inside hplain.toWF hplain.offset hj).trans
      (hdata j hj)⟩
  · obtain ⟨hlow, hcov, hbyte⟩ := hold i hi hin (by omega)
    exact ⟨hcov, (MemBuffer.offsetWrite_outside hplain.toWF hplain.offset hlow
      (by omega)).trans hbyte⟩

/-- The data for a block that the page `p` took: the block is complete if it fills the page. -/
structure PagePart.Stored (f : Nat → UInt8) (p : PagePart) (block rel : Nat) (data : List UInt8)
    (s t : MemBufferMapped) : Prop where
  holding : Holding f (block * s.pageSz + rel) data s t
  others : ∀ b : Nat, b ≠ block → t.dynBitmap.bitTest b = s.dynBitmap.bitTest b ∧
    t.partialGetByIdx b = s.partialGetByIdx b
  full : s.pageSz ≤ p.mb.getSize - p.userLong → t.dynBitmap.bitTest block = true
  rest : ¬ s.pageSz ≤ p.mb.getSize - p.userLong →
    t.dynBitmap.bitTest block = s.dynBitmap.bitTest block ∧
      t.partialGetByIdx block = s.partialGetByIdx block

theorem partialStored_ends (h : Inv f s) {p : PagePart} {block rel : Nat} (hp : p.Good f s)
    (hblock : p.userInt = block) (hdata : SliceOf f (block * s.pageSz + rel) data)
    (hpage : 0 < s.pageSz) (hne : 0 < data.length)
    (hcovered : ∀ i < data.length, s.Covered (block * s.pageSz + rel + i)) :
    Ends (partialStored p data block rel) s (fun _ t => Inv f t ∧ p.Stored f block rel data s t)
      fun _ _ => False := by
  simp only [partialStored, ends_bind, ends_get, ends_modify, ends_ite, ends_pure]
  have hinv := h.mainWrite hdata
  have hholding := h.holding hdata hne hcovered
  refine ⟨fun hfull => ?_, fun hrest =>
    ⟨hinv, hholding, fun _ _ => ⟨rfl, rfl⟩, fun hfull => absurd hfull hrest, fun _ => ⟨rfl, rfl⟩⟩⟩
  have hhigh := hp.high
  have hlow := hp.low
  rw [hp.plain.getSize] at hfull
  have hzero : p.userLong = 0 := by omega
  have hsize : p.mb.size = s.pageSz := by omega
  have hbytes : p.mb.offsetRead 0 s.pageSz = p.mb.data.take s.pageSz := by
    simp [MemBuffer.offsetRead, hp.plain.offset]
  have hlen : (p.mb.offsetRead 0 s.pageSz).length = s.pageSz := by
    have hused := hp.plain.used
    have halloc := hp.plain.allocated
    rw [hbytes, length_take]
    omega
  have hfilled : ∀ i < s.pageSz, s.Covered (block * s.pageSz + i) ∧
      p.mb.data[i]? = some (f (block * s.pageSz + i)) := by
    intro i hi
    have hat := hp.filled i (by omega) (by omega)
    rw [hblock, Int.toNat_natCast] at hat
    exact hat
  -- the last byte of the block was written, so the block is below the largest `int`
  have hsmall : block + 1 < 2 ^ 31 := by
    obtain ⟨⟨c, hc, -, hend⟩, -⟩ := hfilled (s.pageSz - 1) (by omega)
    have hbound := h.small c hc
    have hreach : (block + 1) * s.pageSz ≤ c.offset + c.size := by
      rw [Nat.succ_mul]
      omega
    exact Nat.lt_of_le_of_lt ((Nat.le_div_iff_mul_le hpage).2 hreach) hbound
  have hcount : s.pageSz / s.pageSz = 1 := Nat.div_self hpage
  refine (alignedWrite_ends hinv (by omega) (fun i hi => ?_) ?_ (fun i hi => ?_) ?_).imp
    (fun _ t ht => ?_)
  rotate_right
  · obtain ⟨hinv', hmarked, haligned⟩ := ht
    rw [hlen] at hmarked
    change Marked block (s.pageSz / s.pageSz) _ _ at hmarked
    rw [hcount] at hmarked
    refine ⟨hinv'.drop _, hholding.before ⟨haligned.pageSz, haligned.calls⟩ haligned.kept
        haligned.bounded,
      fun b hb => ⟨hmarked.bitTest b (by omega), ?_⟩,
      fun _ => hmarked.set block le_rfl (Nat.lt_succ_self _), fun hno => ?_⟩
    · exact (find_eraseP_of_ne (by omega)).trans (hmarked.page b (by omega))
    · rw [hp.plain.getSize] at hno
      exact absurd hfull hno
  · rw [hlen] at hi
    rw [hbytes, getElem?_take_of_lt hi]
    exact (hfilled i hi).2
  · rw [hlen]
    exact Nat.mod_self _
  · rw [hlen] at hi
    exact (hfilled i hi).1
  · rw [hlen]
    change s.pageSz / s.pageSz + block < _
    omega

theorem PagePart.accepts_some {p : PagePart} {dataSz rel n : Nat}
    (h : p.accepts dataSz rel = some n) (hgap : ¬ p.Gap dataSz rel) (hplain : p.mb.Plain)
    (hlow : p.userLong ≤ p.mb.size) :
    rel ≤ p.mb.size ∧ p.userLong ≤ rel + dataSz ∧ n = min p.userLong rel := by
  rw [Gap, hplain.getSize] at hgap
  simp only [accepts, hplain.getSize] at h
  split at h
  · cases h
  split at h
  · cases h
  split at h
  · cases h
  rw [Option.some.injEq] at h
  split at h <;> omega

theorem mem_replaceF {l : List PagePart} {block : Int} {q r : PagePart}
    (h : r ∈ l.replaceF fun p => if p.userInt = block then some q else none) :
    r ∈ l ∨ r = q := by
  induction l with
  | nil => cases h
  | cons p l ih =>
      by_cases hp : p.userInt = block
      · simp only [List.replaceF, hp, if_true, mem_cons] at h
        exact h.symm.imp_left (mem_cons_of_mem p)
      · simp only [List.replaceF, hp, if_false, mem_cons] at h
        rcases h with rfl | h
        · exact .inl mem_cons_self
        · exact (ih h).imp_left (mem_cons_of_mem p)

theorem find_replaceF {l : List PagePart} {a : Int} {q : PagePart} (hq : q.userInt = a) (b : Int) :
    (l.replaceF fun p => if p.userInt = a then some q else none).find? (fun p => p.userInt = b) =
      if b = a then (l.find? fun p => p.userInt = a).map fun _ => q
      else l.find? fun p => p.userInt = b := by
  induction l with
  | nil => simp [List.replaceF]
  | cons p l ih =>
      by_cases ha : p.userInt = a
      · by_cases hb : b = a
        · simp [List.replaceF, ha, hb, hq]
        · have hba : ¬ a = b := fun h => hb h.symm
          simp [List.replaceF, ha, hb, hq, hba]
      · by_cases hb : p.userInt = b
        · have hba : ¬ b = a := fun h => ha (hb.trans h)
          simp [List.replaceF, hb, hba]
        · by_cases hba : b = a
          · subst hba
            simpa [List.replaceF, ha] using ih
          · simpa [List.replaceF, ha, hb, hba] using ih

theorem find_index {block : Int} {p : PagePart} (h : s.partialGetByIdx block = some p) :
    p ∈ s.partialMbList ∧ p.userInt = block := by
  refine ⟨mem_of_find?_eq_some h, ?_⟩
  simpa using find?_some h

/-- The partial page of `block` once it took the data, if it takes them. -/
def takes (s : MemBufferMapped) (data : List UInt8) (block rel : Nat) : Option PagePart :=
  if s.dynBitmap.bitTest block then none
  else match s.partialGetByIdx block with
    | some p => (p.accepts data.length rel).map (p.fill data block rel)
    | none => some (.fill { mb := .new s.pageSz } data block rel rel)

/-- The data for a block whose partial page takes them. -/
structure PagePart.Taken (f : Nat → UInt8) (p : PagePart) (block rel : Nat) (data : List UInt8)
    (s t : MemBufferMapped) : Prop where
  holding : Holding f (block * s.pageSz + rel) data s t
  others : ∀ b : Nat, b ≠ block → t.dynBitmap.bitTest b = s.dynBitmap.bitTest b ∧
    t.partialGetByIdx b = s.partialGetByIdx b
  full : s.pageSz ≤ p.mb.getSize - p.userLong → t.dynBitmap.bitTest block = true
  rest : ¬ s.pageSz ≤ p.mb.getSize - p.userLong →
    t.dynBitmap.bitTest block = false ∧ t.partialGetByIdx block = some p

theorem PagePart.Stored.taken {p : PagePart} {block rel : Nat} {l : List PagePart}
    (h : p.Stored f block rel data { s with partialMbList := l } t)
    (hincomplete : s.dynBitmap.bitTest block = false)
    (hpage : l.find? (fun p => p.userInt = (block : Int)) = some p)
    (hothers : ∀ b : Nat, b ≠ block →
      l.find? (fun p => p.userInt = (b : Int)) = s.partialGetByIdx b) :
    p.Taken f block rel data s t where
  holding := ⟨⟨h.holding.pageSz, h.holding.calls⟩, h.holding.kept, h.holding.stored,
    h.holding.bounded⟩
  others b hb := ⟨(h.others b hb).1, (h.others b hb).2.trans (hothers b hb)⟩
  full hfull := h.full hfull
  rest hno := ⟨(h.rest hno).1.trans hincomplete, (h.rest hno).2.trans hpage⟩

theorem partialDataProcess_ends (h : Inv f s) {block rel : Nat} (hne : 0 < data.length)
    (hsmall : block < 2 ^ 31)
    (hdata : SliceOf f (block * s.pageSz + rel) data) (hpage : 0 < s.pageSz)
    (hcovered : ∀ i < data.length, s.Covered (block * s.pageSz + rel + i))
    (hfit : rel + data.length ≤ s.pageSz)
    (hgap : s.dynBitmap.bitTest block = false →
      ∀ p ∈ s.partialGetByIdx block, ¬ p.Gap data.length rel) :
    Ends (partialDataProcess data block rel) s
      (fun _ t => Inv f t ∧ Later s t ∧
        (∀ p, s.takes data block rel = some p → p.Taken f block rel data s t) ∧
          (s.takes data block rel = none → t = s))
      fun _ _ => False := by
  have hindex : int32 block = block := int32_of_lt (by omega) (by omega)
  simp only [partialDataProcess, ends_bind, ends_get, ends_ite, ends_pure]
  refine ⟨fun hcomplete => ⟨h, Later.refl s, fun p htakes => ?_, fun _ => trivial⟩,
    fun hincomplete => ?_⟩
  · simp [takes, hcomplete] at htakes
  have hclear : s.dynBitmap.bitTest block = false := by simpa using hincomplete
  have hgap := hgap hclear
  unfold takes
  rw [if_neg hincomplete]
  cases hfind : s.partialGetByIdx block with
  | none =>
      simp only [ends_bind, ends_modify, ends_pure]
      have hnew : PagePart.Good f s (.fill { mb := .new s.pageSz } data block rel rel) := by
        refine PagePart.good_fill (MemBuffer.plain_new _) (Nat.zero_le _) hsmall hdata hcovered hfit
          le_rfl fun i hi hin hout => ?_
        change i < max 0 _ at hin
        omega
      obtain ⟨p, hp⟩ : ∃ p, PagePart.fill { mb := .new s.pageSz } data block rel rel = p := ⟨_, rfl⟩
      rw [hp] at hnew ⊢
      have hadded : Inv f { s with partialMbList := p :: s.partialMbList } := by
        refine ⟨h.plain, h.bitmap, h.sound, fun q hq => ?_, h.small⟩
        rcases mem_cons.1 hq with rfl | hq
        · exact hnew.later ⟨rfl, rfl⟩
        · exact (h.parts q hq).later ⟨rfl, rfl⟩
      have hblock : p.userInt = block := by
        rw [← hp]
        exact hindex
      refine (partialStored_ends hadded (hnew.later ⟨rfl, rfl⟩) hblock hdata hpage hne
        hcovered).imp (fun _ t ht =>
          ⟨ht.1, ⟨ht.2.holding.pageSz, ht.2.holding.calls⟩, fun q hq => ?_, (by simp)⟩)
      rw [Option.some.injEq] at hq
      subst hq
      refine ht.2.taken hclear (by simp [hblock]) fun b hb => ?_
      rw [find?_cons_of_neg (by simp [hblock, Ne.symm hb])]
      rfl
  | some p =>
      obtain ⟨hmem, hblock⟩ := find_index hfind
      have hgood := h.parts p hmem
      simp only
      cases haccepts : p.accepts data.length rel with
      | none => exact ⟨h, Later.refl s, (by simp), fun _ => rfl⟩
      | some n =>
          simp only [ends_bind, ends_modify, ends_pure]
          obtain ⟨hend, hjoin, hn⟩ := PagePart.accepts_some haccepts (hgap p hfind)
            hgood.plain hgood.low
          have hfilled : (p.fill data block rel n).Good f s := by
            refine PagePart.good_fill hgood.plain hgood.high hsmall hdata hcovered hfit (by omega)
              fun i hi hin hout => ?_
            have hat := hgood.filled i (by omega) (by omega)
            rw [hblock, Int.toNat_natCast] at hat
            exact ⟨by omega, hat⟩
          obtain ⟨q, hq⟩ : ∃ q, p.fill data block rel n = q := ⟨_, rfl⟩
          rw [hq] at hfilled ⊢
          have hreplaced : Inv f { s with
              partialMbList := s.partialMbList.replaceF fun p =>
                if p.userInt = block then some q else none } := by
            refine ⟨h.plain, h.bitmap, h.sound, fun r hr => ?_, h.small⟩
            rcases mem_replaceF hr with hold | rfl
            · exact (h.parts r hold).later ⟨rfl, rfl⟩
            · exact hfilled.later ⟨rfl, rfl⟩
          have hqblock : q.userInt = block := by
            rw [← hq]
            exact hindex
          refine (partialStored_ends hreplaced (hfilled.later ⟨rfl, rfl⟩) hqblock hdata hpage
            hne hcovered).imp (fun _ t ht =>
              ⟨ht.1, ⟨ht.2.holding.pageSz, ht.2.holding.calls⟩, fun r hr => ?_, (by simp)⟩)
          rw [Option.map_some, Option.some.injEq, hq] at hr
          subst hr
          refine ht.2.taken hclear ?_ fun b hb => ?_
          · rw [find_replaceF hqblock, if_pos rfl]
            exact congrArg _ hfind
          · rw [find_replaceF hqblock, if_neg (by omega)]
            rfl

theorem writeAligned_ends (h : Inv f s) {block : Nat} (n : Nat)
    (hdata : SliceOf f (block * s.pageSz) data) (haligned : data.length % s.pageSz = 0)
    (hcovered : ∀ i < data.length, s.Covered (block * s.pageSz + i))
    (hsmall : 0 < data.length → data.length / s.pageSz + block < 2 ^ 31) :
    Ends (writeAligned data block n) s
      (fun _ t => Inv f t ∧ Marked block (data.length / s.pageSz) s t ∧
        Holding f (block * s.pageSz) data s t) fun _ _ => False := by
  simp only [writeAligned, ends_ite, ends_bind, ends_modify, ends_pure]
  refine ⟨fun hne => ?_, fun hempty => ⟨h, ⟨Later.refl s, fun b hlow hhigh => ?_, fun _ _ => rfl,
    fun _ _ => rfl⟩, Later.refl s, fun _ hpos => hpos, fun i hi => by omega, fun _ hs => hs⟩⟩
  · refine (alignedWrite_ends h hne hdata haligned hcovered (hsmall hne)).imp
      (fun _ t ht => ?_)
    obtain ⟨hinv, hmarked, hholding⟩ := ht
    exact ⟨⟨hinv.plain, hinv.bitmap, hinv.sound, fun p hp => (hinv.parts p hp).later ⟨rfl, rfl⟩,
      hinv.small⟩, ⟨⟨hmarked.pageSz, hmarked.calls⟩, hmarked.set, hmarked.bitTest, hmarked.page⟩,
      ⟨hholding.pageSz, hholding.calls⟩, hholding.kept, hholding.stored,
      hholding.bounded⟩
  · rw [Nat.eq_zero_of_not_pos hempty, Nat.zero_div] at hhigh
    omega

/-- The part of a write that goes to the partial page of `block`. -/
structure Part (f : Nat → UInt8) (block rel : Nat) (data : List UInt8) (s t : MemBufferMapped) :
    Prop extends Later s t where
  taken : ∀ p, 0 < data.length → s.takes data block rel = some p → p.Taken f block rel data s t
  dropped : s.takes data block rel = none → t = s
  empty : ¬ 0 < data.length → t = s

theorem writePartial_ends (h : Inv f s) {block rel : Nat} (hsmall : block < 2 ^ 31)
    (hdata : SliceOf f (block * s.pageSz + rel) data) (hpage : 0 < s.pageSz)
    (hcovered : ∀ i < data.length, s.Covered (block * s.pageSz + rel + i))
    (hfit : rel + data.length ≤ s.pageSz)
    (hgap : 0 < data.length → s.dynBitmap.bitTest block = false →
      ∀ p ∈ s.partialGetByIdx block, ¬ p.Gap data.length rel) :
    Ends (writePartial data block rel) s (fun _ t => Inv f t ∧ Part f block rel data s t)
      fun _ _ => False := by
  simp only [writePartial, ends_ite, ends_bind, ends_pure]
  refine ⟨fun hne => ?_, fun hempty =>
    ⟨h, Later.refl s, fun _ hne => absurd hne hempty, fun _ => rfl, fun _ => rfl⟩⟩
  exact (partialDataProcess_ends h hne hsmall hdata hpage hcovered hfit (hgap hne)).imp
    (fun _ t ht => ⟨ht.1, ht.2.1, fun p _ => ht.2.2.1 p, ht.2.2.2, fun hempty => absurd hne hempty⟩)

theorem blockSizeTrail_cases (page off n : Nat) :
    (off % page = 0 ∧ blockSizeTrail page off n = 0) ∨
    (0 < off % page ∧ blockSizeTrail page off n = page - off % page ∧ page - off % page ≤ n) ∨
    (0 < off % page ∧ blockSizeTrail page off n = n ∧ n < page - off % page) := by
  simp only [blockSizeTrail]
  by_cases hrel : off % page > 0
  · rw [if_pos hrel]
    by_cases hcut : page - off % page > n
    · rw [if_pos hcut]
      exact .inr (.inr ⟨hrel, rfl, hcut⟩)
    · rw [if_neg hcut]
      exact .inr (.inl ⟨hrel, rfl, by omega⟩)
  · rw [if_neg hrel, if_neg (by omega)]
    exact .inl ⟨by omega, rfl⟩

theorem front_cut {page trail : Nat} (hpage : 0 < page) {n : Nat}
    (htrail : blockSizeTrail page off n = trail) :
    trail ≤ n ∧ off % page + trail ≤ page ∧
      (trail < n → off + trail = (if trail > 0 then off / page + 1 else off / page) * page) := by
  have hrel := Nat.mod_lt off hpage
  have hoff := Nat.div_add_mod' off page
  rcases blockSizeTrail_cases page off n with ⟨hzero, ht⟩ | ⟨hpos, ht, hle⟩ | ⟨hpos, ht, hlt⟩
  · obtain rfl : trail = 0 := htrail.symm.trans ht
    refine ⟨Nat.zero_le _, by omega, fun _ => ?_⟩
    rw [if_neg (Nat.lt_irrefl 0)]
    omega
  · obtain rfl : trail = page - off % page := htrail.symm.trans ht
    refine ⟨hle, by omega, fun _ => ?_⟩
    rw [if_pos (by omega), Nat.succ_mul]
    omega
  · obtain rfl : trail = n := htrail.symm.trans ht
    exact ⟨le_rfl, by omega, fun hlt => absurd hlt (Nat.lt_irrefl _)⟩

/-- How a write of `n` bytes at `off` is cut: `trail` bytes in front, `count` whole pages
from the block `start` on, and `finish` bytes of the block behind them. -/
structure Cut (page off n trail count finish start : Nat) : Prop where
  size : n = trail + count * page + finish
  finish_lt : finish < page
  front : off % page + trail ≤ page
  start_eq : start = if trail > 0 then off / page + 1 else off / page
  border : trail < n → off + trail = start * page
  higher : trail < n → (off + n) / page = start + count

theorem cut_exists {page : Nat} (hpage : 0 < page) (off n : Nat) :
    ∃ trail count finish start, Cut page off n trail count finish start ∧
      blockSizeTrail page off n = trail ∧ (n - trail) % page = finish := by
  obtain ⟨trail, htrail⟩ : ∃ t, blockSizeTrail page off n = t := ⟨_, rfl⟩
  obtain ⟨hle, hfront, hborder⟩ := front_cut hpage htrail
  have hparts := Nat.div_add_mod' (n - trail) page
  have hfinish := Nat.mod_lt (n - trail) hpage
  refine ⟨trail, (n - trail) / page, (n - trail) % page, _, ⟨by omega, hfinish, hfront, rfl,
    hborder, fun hlt => ?_⟩, htrail, rfl⟩
  obtain ⟨start, hstart⟩ : ∃ b, (if trail > 0 then off / page + 1 else off / page) = b := ⟨_, rfl⟩
  rw [hstart] at hborder ⊢
  have hsplit : off + n = (n - trail) % page + (start + (n - trail) / page) * page := by
    have := hborder hlt
    rw [Nat.add_mul]
    omega
  rw [hsplit, Nat.add_mul_div_right _ _ hpage, Nat.div_eq_of_lt hfinish, Nat.zero_add]

/-- What a write does: its whole pages, its front part, its finish. -/
def Written (f : Nat → UInt8) (off : Nat) (data : List UInt8) (s v : MemBufferMapped) : Prop :=
  ∃ trail count finish start t u w, Cut s.pageSz off data.length trail count finish start ∧
    (Inv f t ∧ Marked start count s t ∧
      Holding f (start * s.pageSz) ((data.drop trail).take (count * s.pageSz)) s t) ∧
    (Inv f u ∧ Part f (off / s.pageSz) (off % s.pageSz) (data.take trail) t u) ∧
    Part f ((off + data.length) / s.pageSz) 0 ((data.drop trail).drop (count * s.pageSz)) u w ∧
    v = { w with pctStringUpdate := true }

theorem Written.later (h : Written f off data s t) : Later s t := by
  obtain ⟨_, _, _, _, _, _, _, -, ⟨-, hmarked, -⟩, ⟨-, hfront⟩, hfinish, rfl⟩ := h
  have hlater := (hmarked.toLater.trans hfront.toLater).trans hfinish.toLater
  exact ⟨hlater.pageSz, hlater.calls⟩

theorem write_ends (h : Inv f s) (hdata : SliceOf f off data)
    (hcovered : ∀ i < data.length, s.Covered (off + i))
    (horderly : s.Orderly ⟨off, data.length⟩) :
    Ends (write off data) s (fun _ t => Inv f t ∧ Written f off data s t)
      fun _ t => t = s ∧ s.pageSz = 0 := by
  obtain ⟨hsmall, hclosed⟩ := horderly
  simp only at hsmall hclosed
  simp only [write, ends_bind, ends_get, ends_assertThat, ends_modify]
  refine ⟨fun hpos => ?_, fun hzero => ⟨trivial, by simpa using hzero⟩⟩
  have hpage : 0 < s.pageSz := Nat.pos_of_ne_zero (by simpa using hpos)
  obtain ⟨trail, count, finish, start, hcut, htrail, hfin⟩ :=
    cut_exists hpage off data.length
  obtain ⟨hsize, hfinish, hfront, hstart, hborder, hhigher⟩ := hcut
  rw [htrail] at hclosed ⊢
  rw [hfin, ← hstart]
  have hoff := Nat.div_add_mod' off s.pageSz
  have hrounded : data.length - (trail + finish) = count * s.pageSz := by omega
  rw [hrounded]
  have hlower : off / s.pageSz ≤ (off + data.length) / s.pageSz :=
    Nat.div_le_div_right (Nat.le_add_right _ _)
  have hmiddle : ((data.drop trail).take (count * s.pageSz)).length = count * s.pageSz := by
    rw [length_take, length_drop]
    omega
  have hrest : ((data.drop trail).drop (count * s.pageSz)).length = finish := by
    rw [length_drop, length_drop]
    omega
  have haligned : Ends (writeAligned ((data.drop trail).take (count * s.pageSz)) start
      ((off + data.length) / s.pageSz * s.pageSz)) s
      (fun _ t => Inv f t ∧ Marked start count s t ∧
        Holding f (start * s.pageSz) ((data.drop trail).take (count * s.pageSz)) s t)
      fun _ _ => False := by
    have hmul : ((data.drop trail).take (count * s.pageSz)).length / s.pageSz = count := by
      rw [hmiddle]
      exact Nat.mul_div_cancel _ hpage
    have hnonempty : ∀ i < count * s.pageSz, off + trail = start * s.pageSz := fun i hi =>
      hborder (by omega)
    refine (writeAligned_ends h _ (fun i hi => ?_) ?_ (fun i hi => ?_) fun hpos => ?_).imp
      (fun _ t ht => ?_)
    rotate_right
    · rw [hmul] at ht
      exact ht
    · have hat := (hdata.drop trail).take (count * s.pageSz) i hi
      rw [hnonempty i (hmiddle ▸ hi)] at hat
      exact hat
    · rw [hmiddle]
      exact Nat.mul_mod_left _ _
    · rw [hmiddle] at hi
      rw [← hnonempty i hi, Nat.add_assoc]
      exact hcovered _ (by omega)
    · rw [hmiddle] at hpos
      rw [hmul]
      have hat := hhigher (by omega)
      omega
  refine haligned.total fun _ t ht => ?_
  obtain ⟨hinv, hmarked, hholding⟩ := ht
  have hfrontData : (data.take trail).length = trail := by
    rw [length_take]
    omega
  refine (writePartial_ends hinv (by omega) ?_ (by rw [hmarked.pageSz]; exact hpage) (fun i hi => ?_)
    ?_ fun hne hincomplete p hp => ?_).total fun _ u hu => ?_
  · rw [hmarked.pageSz, hoff]
    exact hdata.take trail
  · rw [hmarked.pageSz, hoff, hmarked.covered]
    exact hcovered i (by omega)
  · rw [hmarked.pageSz, hfrontData]
    exact hfront
  · -- the aligned part begins behind the block of the front part
    rw [hfrontData] at hne ⊢
    have hbelow : off / s.pageSz < start := by
      rw [hstart, if_pos hne]
      exact Nat.lt_succ_self _
    rw [hmarked.bitTest _ (.inl hbelow)] at hincomplete
    rw [hmarked.page _ (.inl hbelow)] at hp
    exact hclosed hne hincomplete p hp
  obtain ⟨hinv', hpart⟩ := hu
  have hpage' : u.pageSz = s.pageSz := hpart.pageSz.trans hmarked.pageSz
  have hlast : ∀ i < finish,
      (off + data.length) / s.pageSz * u.pageSz + 0 + i = off + (trail + count * s.pageSz + i) := by
    intro i hi
    have hat := hborder (by omega)
    rw [hhigher (by omega), hpage', Nat.add_mul]
    omega
  refine (writePartial_ends hinv' hsmall (fun i hi => ?_) (hpage' ▸ hpage) (fun i hi => ?_) ?_
    fun _ _ p _ hgap => ?_).total fun _ v hv => ?_
  · rw [hrest] at hi
    rw [hlast i hi, ← Nat.add_assoc off, ← Nat.add_assoc off]
    exact (hdata.drop trail).drop (count * s.pageSz) i (hrest ▸ hi)
  · rw [hrest] at hi
    rw [hlast i hi, hpart.covered, hmarked.covered]
    exact hcovered _ (by omega)
  · rw [hrest, hpage']
    omega
  · exact Nat.not_lt_zero _ hgap.1
  · obtain ⟨hinv'', hpart'⟩ := hv
    exact ⟨⟨hinv''.plain, hinv''.bitmap, hinv''.sound,
      fun p hp => (hinv''.parts p hp).later ⟨rfl, rfl⟩, hinv''.small⟩,
      trail, count, finish, start, t, u, v,
      ⟨hsize, hfinish, hfront, hstart, hborder, hhigher⟩, ⟨hinv, hmarked, hholding⟩,
      ⟨hinv', hpart⟩, hpart', rfl⟩

theorem Inv.called (h : Inv f s) {c : Call} (hsmall : (c.offset + c.size) / s.pageSz < 2 ^ 31) :
    Inv f { s with calls := s.calls ++ [c] } := by
  have hmono : ∀ pos, s.Covered pos → Covered { s with calls := s.calls ++ [c] } pos := by
    rintro pos ⟨d, hd, hin⟩
    exact ⟨d, mem_append_left _ hd, hin⟩
  refine ⟨h.plain, h.bitmap, fun block hset i hi => ?_, fun p hp => ?_, fun d hd => ?_⟩
  · obtain ⟨hcovered, hrest⟩ := h.sound block hset i hi
    exact ⟨hmono _ hcovered, hrest⟩
  · have hgood := h.parts p hp
    refine ⟨hgood.plain, hgood.low, hgood.high, hgood.index, fun i hlow hhigh => ?_⟩
    exact (hgood.filled i hlow hhigh).imp_left (hmono _)
  · rcases mem_append.1 hd with hd | hd
    · exact h.small d hd
    · rw [mem_singleton.1 hd]
      exact hsmall

theorem handle_ends (h : Inv f s) {c : Call} (horderly : s.Orderly c) :
    Ends (handle f c) s (fun _ t => Inv f t ∧
      Written f c.offset (slice f c) { s with calls := s.calls ++ [c] } t)
      fun _ t => Inv f t ∧ s.pageSz = 0 := by
  have hlen : (slice f c).length = c.size := by simp [slice]
  have hcalled := h.called horderly.small
  simp only [handle, ends_bind, ends_modify]
  refine (write_ends hcalled (sliceOf_slice f c) (fun i hi => ?_) ?_).mono (fun _ _ ht => ht)
    fun _ t ht => ⟨ht.1 ▸ hcalled, ht.2⟩
  · exact ⟨c, mem_append_right _ (mem_singleton_self c), by omega, by omega⟩
  · rw [hlen]
    exact ⟨horderly.small, horderly.closed⟩

theorem handle_inv (h : Inv f s) {c : Call} (horderly : s.Orderly c) :
    Ends (handle f c) s (fun _ => Inv f) fun _ => Inv f :=
  (handle_ends h horderly).mono (fun _ _ ht => ht.1) fun _ _ ht => ht.1

end Steps

theorem inv_init (f : Nat → UInt8) (pageSz : Nat) : Inv f (init pageSz) where
  plain := MemBuffer.plain_new pageSz
  bitmap := DynBitMap.wf_new 256
  sound block hset := by
    have hset : (DynBitMap.new 256).bitTest block = true := hset
    rw [DynBitMap.bitTest_new] at hset
    cases hset
  parts p hp := by cases hp
  small c hc := by cases hc

instance (p : PagePart) (dataSz relOffset : Nat) : Decidable (p.Gap dataSz relOffset) :=
  inferInstanceAs (Decidable (_ ∧ _))

instance (s : MemBufferMapped) (c : Call) : Decidable (s.Orderly c) :=
  decidable_of_iff
    ((c.offset + c.size) / s.pageSz < 2 ^ 31 ∧
      (0 < blockSizeTrail s.pageSz c.offset c.size →
        s.dynBitmap.bitTest (c.offset / s.pageSz) = false →
          ∀ p ∈ s.partialGetByIdx (c.offset / s.pageSz : Nat),
            ¬ p.Gap (blockSizeTrail s.pageSz c.offset c.size) (c.offset % s.pageSz)))
    ⟨fun h => ⟨h.1, h.2⟩, fun h => ⟨h.small, h.closed⟩⟩

/-- **Soundness of the bitmap.**  In every run whose calls leave no gap in a partial page,
every byte of a block whose bit is set was written, and the main buffer holds it. -/
theorem complete_blocks_hold_content (f : Nat → UInt8) (pageSz : Nat) (calls : List Call)
    (horderly : Runs.Meets (handle f) Orderly (.live (init pageSz)) calls) :
    Sound f (runFrom f pageSz calls).state := by
  have h : Runs.Holds (Inv f) (fun _ => Inv f) (runFrom f pageSz calls) :=
    Runs.invariant_run_of (fun _ _ h horderly => handle_inv h horderly)
      (c := .live (init pageSz)) (inv_init f pageSz) calls horderly
  exact h.always.sound

def joinedCalls : List Call := [⟨4, 2⟩, ⟨6, 37⟩, ⟨0, 4⟩, ⟨43, 20⟩]

theorem complete_blocks_hold_content_joined :
    (runFrom Nat.toUInt8 10 joinedCalls).state.dynBitmap.bitTest 4 = true ∧
      Sound Nat.toUInt8 (runFrom Nat.toUInt8 10 joinedCalls).state :=
  ⟨by decide +kernel, complete_blocks_hold_content _ _ _ (by decide +kernel)⟩

/-- The partial page of the first write ends at 6, but takes the second one at 8: the third
one completes the block without its bytes 6 and 7. -/
theorem gap_completes_block :
    ¬ Sound Nat.toUInt8 (runFrom Nat.toUInt8 10 [⟨4, 2⟩, ⟨8, 2⟩, ⟨0, 4⟩]).state := by
  intro h
  have hset : (runFrom Nat.toUInt8 10 [⟨4, 2⟩, ⟨8, 2⟩, ⟨0, 4⟩]).state.dynBitmap.bitTest 0 = true := by
    decide +kernel
  have hunwritten : ¬ Covered (runFrom Nat.toUInt8 10 [⟨4, 2⟩, ⟨8, 2⟩, ⟨0, 4⟩]).state 6 := by
    unfold Covered
    decide +kernel
  have hheld := h 0 hset 6 (by decide +kernel)
  rw [Nat.zero_mul, Nat.zero_add] at hheld
  exact hunwritten hheld.1


end MemBufferMapped

end BrbData
