import BrbFramework.Data.MemBufferContent
import BrbFramework.Data.MetaDataUnpack

/-!
# Copies of a memory buffer

The readers of a buffer see the `MemBufferGetSize` bytes behind `MemBufferDeref`,
those from its base offset on. `MemBufferDup`, `MemBufferDupOffset`,
`MemBufferMerge` and the serialiser all copy these bytes to the start of a new
buffer. `MemBufferDup` and the unserialiser set the base offset of the new
buffer to that of the old one none the less, and so they skip it twice.

All sizes are `unsigned long`, and nothing compares an offset with one.
-/

namespace BrbData

open Handler Machine List LittleEndian
open MetaData hiding Fault

namespace MemBufferCopies

open MemBufferContent (Fault content Room)

/-! ## The calls -/

/-- `MemBufferNew`, whose `grow_rate` has 32 bits. -/
def newBuffer (growRate : Nat) : MemBuffer := .new (growRate % 2 ^ 32)

/-- `MemBufferGetSize`. -/
def getSize (mb : MemBuffer) : Nat := uint64Sub mb.size mb.offset

/-- `MemBufferDeref`, as a distance from `mb->data`. -/
def deref (mb : MemBuffer) : Option Nat := some mb.offset

/-- `MemBufferOffsetDeref`, null where the offset exceeds the capacity. -/
def offsetDeref (mb : MemBuffer) (offset : Nat) : Option Nat :=
  if mb.capacity < offset then none else some (uint64 (mb.offset + offset))

/-- The `len` bytes behind a pointer into `mb`. -/
def readFrom (mb : MemBuffer) (dataPtr : Option Nat) (len : Nat) : Except Fault (List UInt8) :=
  if len = 0 then .ok []
  else
    match dataPtr with
    | none => .error .null
    | some pos =>
      if pos + len ≤ mb.data.length then .ok ((mb.data.drop pos).take len) else .error .outside

/-- `MemBufferAdd`. -/
def add (mb : MemBuffer) (newData : List UInt8) : Except Fault MemBuffer :=
  match MemBufferContent.add newData mb with
  | .ok _ mb' => .ok mb'
  | .error f _ => .error f

/-- `MemBufferDup`. -/
def dup (mb : MemBuffer) : Except Fault MemBuffer := do
  let dataSz := getSize mb
  let newMb ← add (newBuffer (dataSz + 1)) (← readFrom mb (deref mb) dataSz)
  return { newMb with offset := mb.offset }

/-- `MemBufferDupOffset`, once it has the pointer and the size. It answers NULL where nothing
is left. -/
def dupFrom (mb : MemBuffer) (dataPtr : Option Nat) (dataSz : Nat) :
    Except Fault (Option MemBuffer) :=
  if dataSz = 0 then .ok none
  else do return some (← add (newBuffer (dataSz + 1)) (← readFrom mb dataPtr dataSz))

/-- `MemBufferDupOffset`. -/
def dupOffset (mb : MemBuffer) (offset : Nat) : Except Fault (Option MemBuffer) :=
  dupFrom mb (offsetDeref mb offset) (uint64Sub (getSize mb) offset)

/-- `MemBufferMerge`. -/
def merge (mb₁ mb₂ : MemBuffer) : Except Fault MemBuffer := do
  let mergedMb := newBuffer (getSize mb₁ + getSize mb₂)
  let mergedMb ← add mergedMb (← readFrom mb₁ (deref mb₁) (getSize mb₁))
  add mergedMb (← readFrom mb₂ (deref mb₂) (getSize mb₂))

/-! ## Serialisation -/

/-- `DATATYPE_MEM_BUFFER_META`. -/
def datatypeMeta : UInt64 := 19

/-- `DATATYPE_MEM_BUFFER_DATA`. -/
def datatypeData : UInt64 := 20

/-- The fields of a buffer that its owner sets and its metadata takes along. -/
structure Tags where
  dataType : UInt32 := 0
  dataState : UInt32 := 0
  userInt : UInt32 := 0
  userLong : UInt64 := 0
  deriving DecidableEq, Repr

/-- `MemBufferMetaData` as it lies in memory, with the bytes that align its fields. -/
def metaDataBytes (mb : MemBuffer) (tags : Tags) : List UInt8 :=
  LittleEndian.ofNat 4 mb.growRate ++ LittleEndian.ofNat 4 tags.dataType.toNat ++
    LittleEndian.ofNat 4 tags.dataState.toNat ++ [0, 0, 0, 0] ++
    LittleEndian.ofNat 8 mb.offset ++ LittleEndian.ofNat 8 (getSize mb) ++
    LittleEndian.ofNat 4 tags.userInt.toNat ++ [0, 0, 0, 0] ++
    LittleEndian.ofNat 8 tags.userLong.toNat

/-- `MemBufferMetaDataPack` adds to the items that are there. -/
def metaDataPack (mb : MemBuffer) (tags : Tags) (items : List MetaDataItem) (itemSubId : UInt64) :
    Except Fault (List MetaDataItem) := do
  let data ← readFrom mb (deref mb) (getSize mb)
  return items ++
    [⟨datatypeMeta, itemSubId, metaDataBytes mb tags⟩, ⟨datatypeData, itemSubId, data⟩]

/-- `MemBufferMetaDataPackToMB`. -/
def metaDataPackToMB (mb : MemBuffer) (tags : Tags) (itemSubId : UInt64) : Except Fault MemBuffer :=
  do return pack (← metaDataPack mb tags [] itemSubId) (.new 1024)

def populate (memBufMeta : List UInt8) (mb : MemBuffer) : MemBuffer × Tags :=
  let field := fun pos len => LittleEndian.toNat ((memBufMeta.drop pos).take len)
  ({ mb with growRate := field 0 4, offset := field 16 8 },
    { dataType := UInt32.ofNat (field 4 4)
      dataState := UInt32.ofNat (field 8 4)
      userInt := UInt32.ofNat (field 32 4)
      userLong := UInt64.ofNat (field 40 8) })

/-- One turn of the loop of `MemBufferMetaDataUnPack`. -/
def unPackItem (raw : List UInt8) (st : MemBuffer × Tags) (metaItem : MetaDataItem.Found) :
    Except Fault (MemBuffer × Tags) :=
  if metaItem.itemId = datatypeMeta then
    if metaItem.ptr + 48 ≤ raw.length then
      .ok (populate ((raw.drop metaItem.ptr).take 48) st.1)
    else .error .outside
  else if metaItem.itemId = datatypeData then
    if metaItem.ptr + metaItem.sz ≤ raw.length then
      (·, st.2) <$> add st.1 (load raw metaItem)
    else .error .outside
  else .ok st

/-- `MemBufferMetaDataUnPackFromMB`, which answers NULL where the unpacker fails. -/
def metaDataUnPackFromMB (rawMetadataMb : MemBuffer) : Except Fault (Option (MemBuffer × Tags)) :=
  match unpack (start rawMetadataMb) with
  | .error _ _ => .error .outside
  | .ok .success t => some <$> t.items.foldlM (unPackItem t.raw) (.new 512, {})
  | .ok _ _ => .ok none

/-! ## What a reader sees -/

/-- The bytes of a buffer from its base offset on. -/
def visible (mb : MemBuffer) : List UInt8 := (content mb).drop mb.offset

/-- A reader of `mb` finds `MemBufferGetSize` bytes behind `MemBufferDeref`, and they are `bs`. -/
structure Shows (mb : MemBuffer) (bs : List UInt8) : Prop where
  size : getSize mb = bs.length
  bytes : (mb.data.drop mb.offset).take bs.length = bs

def ShowsAny : Option MemBuffer → List UInt8 → Prop
  | none, bs => bs = []
  | some mb, bs => Shows mb bs

/-- A buffer in memory, with fields of their widths. -/
structure Stored (mb : MemBuffer) : Prop extends mb.WF where
  memory : mb.data.length < 2 ^ 62
  offset : mb.offset < 2 ^ 64
  growRate : mb.growRate < 2 ^ 32

def DupShows (mb : MemBuffer) : Prop := ∃ newMb, dup mb = .ok newMb ∧ Shows newMb (visible mb)

def DupOffsetShows (mb : MemBuffer) (offset : Nat) : Prop :=
  ∃ newMb, dupOffset mb offset = .ok newMb ∧ ShowsAny newMb ((visible mb).drop offset)

def MergeShows (mb₁ mb₂ : MemBuffer) : Prop :=
  ∃ mergedMb, merge mb₁ mb₂ = .ok mergedMb ∧ Shows mergedMb (visible mb₁ ++ visible mb₂)

def ComesBack (mb : MemBuffer) (tags : Tags) (itemSubId : UInt64) : Prop :=
  ∃ packedMb newMb newTags, metaDataPackToMB mb tags itemSubId = .ok packedMb ∧
    metaDataUnPackFromMB packedMb = .ok (some (newMb, newTags)) ∧ Shows newMb (visible mb)

section Reads

variable {mb : MemBuffer}

theorem length_visible (h : mb.WF) : (visible mb).length = mb.size - mb.offset := by
  rw [visible, length_drop, MemBufferContent.length_content h]

theorem readFrom_in {pos len : Nat} (h : pos + len ≤ mb.data.length) :
    readFrom mb (some pos) len = .ok ((mb.data.drop pos).take len) := by
  unfold readFrom
  by_cases hlen : len = 0
  · rw [if_pos hlen, hlen, take_zero]
  · rw [if_neg hlen]
    simp only [h, if_true]

theorem readFrom_out {pos len : Nat} (hlen : 0 < len) (h : mb.data.length < pos + len) :
    readFrom mb (some pos) len = .error .outside := by
  unfold readFrom
  rw [if_neg (by omega)]
  simp only [Nat.not_le.2 h, if_false]

theorem Stored.getSize (h : Stored mb) :
    (mb.offset ≤ mb.size ∧ MemBufferCopies.getSize mb = (visible mb).length) ∨
      (mb.size < mb.offset ∧
        mb.offset + MemBufferCopies.getSize mb = mb.size + 2 ^ 64 ∧ visible mb = []) := by
  have hallocated := h.allocated
  have hused := h.used
  have hmemory := h.memory
  have hoffset := h.offset
  rcases Nat.lt_or_ge mb.size mb.offset with hpast | hin
  · right
    refine ⟨hpast, ?_, ?_⟩
    · unfold MemBufferCopies.getSize uint64Sub
      omega
    · apply eq_nil_of_length_eq_zero
      rw [length_visible h.toWF]
      omega
  · left
    refine ⟨hin, ?_⟩
    rw [length_visible h.toWF]
    exact uint64Sub_of_le hin (by omega)

theorem Stored.readFrom_deref (h : Stored mb) :
    readFrom mb (deref mb) (MemBufferCopies.getSize mb) =
      if mb.offset ≤ mb.size then .ok (visible mb) else .error .outside := by
  have hallocated := h.allocated
  have hused := h.used
  have hmemory := h.memory
  have hoffset := h.offset
  have hlength := length_visible h.toWF
  rcases h.getSize with ⟨hin, hsize⟩ | ⟨hpast, hsize, -⟩
  · rw [if_pos hin, hsize, deref, readFrom_in (by omega), hlength, visible, content, drop_take]
  · rw [if_neg (by omega), deref, readFrom_out (by omega) (by omega)]

end Reads

section Targets

variable {mb : MemBuffer}

theorem add_eq (h : mb.WF) {d : List UInt8} (hroom : Room mb (d.length + 1)) :
    add mb d = .ok (mb.add d) := by
  have hends : Ends (MemBufferContent.add d) mb (fun _ mb' => mb' = mb.add d) fun _ _ => False :=
    (MemBufferContent.ends_add h hroom).2 rfl
  unfold Ends at hends
  unfold add
  cases hadd : MemBufferContent.add d mb with
  | ok a mb' =>
    rw [hadd] at hends
    rw [hends]
  | error f mb' =>
    rw [hadd] at hends
    exact hends.elim

theorem growRate_newBuffer (growRate : Nat) : (newBuffer growRate).growRate < 2 ^ 32 := by
  unfold newBuffer MemBuffer.new
  split <;> simp only <;> omega

theorem add_newBuffer (growRate : Nat) {d : List UInt8} (hd : d.length < 2 ^ 63) :
    add (newBuffer growRate) d = .ok ((newBuffer growRate).add d) := by
  have hrate := growRate_newBuffer growRate
  have hroom : Room (newBuffer growRate) (d.length + 1) := by
    change 0 + 0 + (newBuffer growRate).growRate + (d.length + 1) < 2 ^ 64
    omega
  exact add_eq (MemBuffer.wf_new _) hroom

theorem plain_newBuffer (growRate : Nat) : (newBuffer growRate).Plain := MemBuffer.plain_new _

theorem shows_content_iff (h : mb.WF) (hsize : mb.size < 2 ^ 63) (hoffset : mb.offset < 2 ^ 64) :
    Shows mb (content mb) ↔ mb.offset = 0 := by
  have hlength := MemBufferContent.length_content h
  constructor
  · intro hshows
    have hsame := hshows.size
    rw [hlength] at hsame
    unfold getSize uint64Sub at hsame
    omega
  · intro hzero
    constructor
    · rw [hlength, getSize, hzero]
      exact uint64Sub_of_le (Nat.zero_le _) (by omega)
    · rw [hlength, hzero, drop_zero]
      rfl

theorem shows_added (growRate : Nat) {d : List UInt8} (hd : d.length < 2 ^ 63) :
    Shows ((newBuffer growRate).add d) d := by
  have hplain := (plain_newBuffer growRate).add d
  have hcontent : content ((newBuffer growRate).add d) = d :=
    (MemBuffer.take_add (plain_newBuffer growRate).toWF d).trans (nil_append d)
  have hlength := MemBufferContent.length_content hplain.toWF
  have hall := (shows_content_iff hplain.toWF (by rw [← hlength, hcontent]; exact hd)
    (by rw [hplain.offset]; omega)).2 hplain.offset
  rwa [hcontent] at hall

end Targets

/-! ## The copies -/

section Copies

variable {mb : MemBuffer}

theorem Stored.length_visible_lt (h : Stored mb) : (visible mb).length < 2 ^ 62 := by
  have hallocated := h.allocated
  have hused := h.used
  have hmemory := h.memory
  rw [length_visible h.toWF]
  omega

theorem dup_eq (h : Stored mb) :
    dup mb =
      if mb.offset ≤ mb.size then
        .ok { (newBuffer (getSize mb + 1)).add (visible mb) with offset := mb.offset }
      else .error .outside := by
  have hshort := h.length_visible_lt
  unfold dup
  simp only [h.readFrom_deref]
  by_cases hin : mb.offset ≤ mb.size
  · simp only [if_pos hin, bind, Except.bind, pure, Except.pure,
      add_newBuffer _ (by omega : (visible mb).length < 2 ^ 63)]
  · simp only [if_neg hin, bind, Except.bind]

theorem dupShows_iff (h : Stored mb) : DupShows mb ↔ mb.offset = 0 := by
  have hshort := h.length_visible_lt
  unfold DupShows
  rw [dup_eq h]
  by_cases hin : mb.offset ≤ mb.size
  · obtain ⟨added, hadded⟩ :
        ∃ added, (newBuffer (getSize mb + 1)).add (visible mb) = added := ⟨_, rfl⟩
    have hplain : added.Plain := hadded ▸ (plain_newBuffer _).add _
    have hcontent : content added = visible mb := by
      rw [← hadded]
      exact MemBuffer.take_add (plain_newBuffer _).toWF _
    have hlength := MemBufferContent.length_content hplain.toWF
    have hiff := @shows_content_iff { added with offset := mb.offset }
      ⟨hplain.allocated, hplain.used⟩ (by simp only; rw [← hlength, hcontent]; omega) h.offset
    have hsame : content { added with offset := mb.offset } = visible mb := hcontent
    rw [hsame] at hiff
    rw [if_pos hin, hadded]
    constructor
    · rintro ⟨newMb, hnew, hshows⟩
      cases hnew
      exact hiff.1 hshows
    · intro hzero
      exact ⟨_, rfl, hiff.2 hzero⟩
  · rw [if_neg hin]
    constructor
    · rintro ⟨newMb, hnew, -⟩
      cases hnew
    · intro hzero
      omega

theorem length_readFrom {dataPtr : Option Nat} {len : Nat} {d : List UInt8}
    (h : readFrom mb dataPtr len = .ok d) : d.length = len := by
  unfold readFrom at h
  by_cases hlen : len = 0
  · rw [if_pos hlen] at h
    cases h
    exact hlen.symm
  · rw [if_neg hlen] at h
    cases dataPtr with
    | none => cases h
    | some pos =>
      by_cases hin : pos + len ≤ mb.data.length
      · simp only [hin, if_true] at h
        cases h
        rw [length_take, length_drop]
        omega
      · simp only [hin, if_false] at h
        cases h

theorem dupFrom_nonempty {dataPtr : Option Nat} {dataSz : Nat} (hpos : dataSz ≠ 0)
    (hshort : dataSz < 2 ^ 63 ∨ ∀ d, readFrom mb dataPtr dataSz ≠ .ok d) :
    ¬ ∃ newMb, dupFrom mb dataPtr dataSz = .ok newMb ∧ ShowsAny newMb [] := by
  rintro ⟨newMb, hnew, hshows⟩
  unfold dupFrom at hnew
  rw [if_neg hpos] at hnew
  cases hread : readFrom mb dataPtr dataSz with
  | error f =>
    rw [hread] at hnew
    cases hnew
  | ok d =>
    have hlength := length_readFrom hread
    have hd : d.length < 2 ^ 63 := by
      rcases hshort with hshort | hnone
      · omega
      · exact absurd hread (hnone d)
    simp only [hread, bind, Except.bind, pure, Except.pure, add_newBuffer _ hd] at hnew
    rw [← Except.ok.inj hnew] at hshows
    have hall := (shows_added (dataSz + 1) hd).size
    have hempty := Shows.size hshows
    rw [hall, length_nil] at hempty
    omega

theorem dupFrom_shows {dataPtr : Option Nat} {dataSz : Nat} {d : List UInt8}
    (hread : readFrom mb dataPtr dataSz = .ok d) (hshort : dataSz < 2 ^ 63) :
    ∃ newMb, dupFrom mb dataPtr dataSz = .ok newMb ∧ ShowsAny newMb d := by
  have hlength := length_readFrom hread
  unfold dupFrom
  by_cases hzero : dataSz = 0
  · refine ⟨none, if_pos hzero, ?_⟩
    apply eq_nil_of_length_eq_zero
    omega
  · rw [if_neg hzero]
    have hd : d.length < 2 ^ 63 := by omega
    refine ⟨some ((newBuffer (dataSz + 1)).add d), ?_, shows_added (dataSz + 1) hd⟩
    simp only [hread, bind, Except.bind, pure, Except.pure, add_newBuffer _ hd]

/-- `MemBufferDupOffset` copies what is visible from the offset on. Behind the end of it the
size wraps, and what it reads is outside, unless the size happens to wrap to zero. -/
theorem dupOffsetShows_iff (h : Stored mb) {offset : Nat} (hoffset : offset < 2 ^ 64) :
    DupOffsetShows mb offset ↔
      mb.offset + offset ≤ mb.size ∨ mb.offset + offset = mb.size + 2 ^ 64 := by
  have hallocated := h.allocated
  have hused := h.used
  have hmemory := h.memory
  have hbase := h.offset
  have hlength := length_visible h.toWF
  obtain ⟨size, hsize⟩ : ∃ n, getSize mb = n := ⟨_, rfl⟩
  obtain ⟨dataSz, hdataSz⟩ : ∃ n, uint64Sub size offset = n := ⟨_, rfl⟩
  have hwraps : dataSz < 2 ^ 64 ∧ ((mb.offset + offset ≤ mb.size ∧
      dataSz + (mb.offset + offset) = mb.size) ∨
        (mb.size < mb.offset + offset ∧ dataSz + (mb.offset + offset) = mb.size + 2 ^ 64) ∨
          mb.size + 2 ^ 64 < mb.offset + offset ∧
            dataSz + (mb.offset + offset) = mb.size + 2 ^ 64 + 2 ^ 64) := by
    unfold getSize uint64Sub at hsize
    unfold uint64Sub at hdataSz
    omega
  have hsame : dupOffset mb offset = dupFrom mb (offsetDeref mb offset) dataSz := by
    rw [dupOffset, hsize, hdataSz]
  unfold DupOffsetShows
  rw [hsame]
  rcases Nat.lt_or_ge mb.size (mb.offset + offset) with hpast | hin
  · have hnone : (visible mb).drop offset = [] := by
      apply eq_nil_of_length_eq_zero
      rw [length_drop]
      omega
    rw [hnone]
    by_cases hzero : dataSz = 0
    · constructor
      · intro _
        right
        omega
      · intro _
        exact ⟨none, if_pos hzero, rfl⟩
    · constructor
      · intro hshows
        refine absurd hshows (dupFrom_nonempty hzero ?_)
        by_cases hshort : dataSz < 2 ^ 63
        · exact .inl hshort
        · right
          intro d hread
          unfold offsetDeref at hread
          by_cases hcapacity : mb.capacity < offset
          · rw [if_pos hcapacity, readFrom, if_neg hzero] at hread
            cases hread
          · rw [if_neg hcapacity, readFrom_out (by omega) (by omega)] at hread
            cases hread
      · intro hcond
        omega
  · have hread : readFrom mb (offsetDeref mb offset) dataSz = .ok ((visible mb).drop offset) := by
      have hdata : dataSz = mb.size - (mb.offset + offset) := by omega
      rw [offsetDeref, if_neg (by omega), uint64_of_lt (by omega), readFrom_in (by omega), hdata,
        visible, drop_drop, content, drop_take]
    constructor
    · intro _
      exact .inl hin
    · intro _
      exact dupFrom_shows hread (by omega)

theorem mergeShows_iff {mb₁ mb₂ : MemBuffer} (h₁ : Stored mb₁) (h₂ : Stored mb₂) :
    MergeShows mb₁ mb₂ ↔ mb₁.offset ≤ mb₁.size ∧ mb₂.offset ≤ mb₂.size := by
  have hshort₁ := h₁.length_visible_lt
  have hshort₂ := h₂.length_visible_lt
  unfold MergeShows merge
  simp only [h₁.readFrom_deref, h₂.readFrom_deref]
  generalize hgrow : getSize mb₁ + getSize mb₂ = growRate
  by_cases hin₁ : mb₁.offset ≤ mb₁.size
  · by_cases hin₂ : mb₂.offset ≤ mb₂.size
    · have hfirst := add_newBuffer growRate (by omega : (visible mb₁).length < 2 ^ 63)
      have hnew := plain_newBuffer growRate
      have hplain := hnew.add (visible mb₁)
      have hcapacity : ((newBuffer growRate).add (visible mb₁)).capacity ≤
          0 + (newBuffer growRate).growRate + ((visible mb₁).length + 1) :=
        MemBuffer.checkForGrow_capacity_le _
      have hrate := growRate_newBuffer growRate
      have hsame : ((newBuffer growRate).add (visible mb₁)).growRate =
          (newBuffer growRate).growRate := MemBuffer.checkForGrow_growRate _
      have hused := hplain.used
      have hroom : Room ((newBuffer growRate).add (visible mb₁)) ((visible mb₂).length + 1) := by
        unfold Room
        omega
      have hcontent : content (((newBuffer growRate).add (visible mb₁)).add (visible mb₂)) =
          visible mb₁ ++ visible mb₂ := by
        rw [content, MemBuffer.take_add hplain.toWF, MemBuffer.take_add hnew.toWF]
        rfl
      have hboth := hplain.add (visible mb₂)
      have hlength := MemBufferContent.length_content hboth.toWF
      rw [hcontent, length_append] at hlength
      have hshows := (shows_content_iff hboth.toWF (by omega)
        (by rw [hboth.offset]; omega)).2 hboth.offset
      rw [hcontent] at hshows
      simp only [if_pos hin₁, if_pos hin₂, bind, Except.bind, hfirst, add_eq hplain.toWF hroom]
      constructor
      · intro _
        exact ⟨hin₁, hin₂⟩
      · intro _
        exact ⟨_, rfl, hshows⟩
    · have hfirst := add_newBuffer growRate (by omega : (visible mb₁).length < 2 ^ 63)
      simp only [if_pos hin₁, if_neg hin₂, bind, Except.bind, hfirst]
      constructor
      · rintro ⟨mergedMb, hmerged, -⟩
        cases hmerged
      · intro hboth
        exact absurd hboth.2 hin₂
  · simp only [if_neg hin₁, bind, Except.bind]
    constructor
    · rintro ⟨mergedMb, hmerged, -⟩
      cases hmerged
    · intro hboth
      exact absurd hboth.1 hin₁

end Copies

/-! ## The way through packed metadata -/

section Serialised

variable {mb : MemBuffer} {tags : Tags} {itemSubId : UInt64}

theorem toNat_field {bytes : List UInt8} {pos w n : Nat} (pre post : List UInt8)
    (hbytes : bytes = pre ++ ofNat w n ++ post) (hpos : pos = pre.length)
    (hn : n < 256 ^ w) : toNat ((bytes.drop pos).take w) = n := by
  rw [hbytes, slice_append hpos (length_ofNat w n).symm, toNat_ofNat]
  exact Nat.mod_eq_of_lt hn

@[simp] theorem length_metaDataBytes (mb : MemBuffer) (tags : Tags) :
    (metaDataBytes mb tags).length = 48 := by
  simp [metaDataBytes]

theorem populate_metaDataBytes (h : Stored mb) (tags : Tags) (mb' : MemBuffer) :
    populate (metaDataBytes mb tags) mb' =
      ({ mb' with growRate := mb.growRate, offset := mb.offset }, tags) := by
  obtain ⟨dataType, dataState, userInt, userLong⟩ := tags
  obtain ⟨bytes, hbytes⟩ :
      ∃ bytes, metaDataBytes mb ⟨dataType, dataState, userInt, userLong⟩ = bytes := ⟨_, rfl⟩
  -- what stands in front of each field, from the first one to the last
  obtain ⟨numbers, hnumbers⟩ : ∃ l, ofNat 4 mb.growRate ++
      ofNat 4 dataType.toNat ++ ofNat 4 dataState.toNat ++
        [0, 0, 0, 0] = l := ⟨_, rfl⟩
  obtain ⟨sizes, hsizes⟩ : ∃ l, ofNat 8 mb.offset ++
      ofNat 8 (getSize mb) = l := ⟨_, rfl⟩
  have hnumbersLen : numbers.length = 16 := by simp [← hnumbers]
  have hsizesLen : sizes.length = 16 := by simp [← hsizes]
  have hgrowRate : toNat ((bytes.drop 0).take 4) = mb.growRate := by
    refine toNat_field [] (ofNat 4 dataType.toNat ++
      ofNat 4 dataState.toNat ++ [0, 0, 0, 0] ++ sizes ++
        ofNat 4 userInt.toNat ++ [0, 0, 0, 0] ++ ofNat 8 userLong.toNat)
      ?_ rfl h.growRate
    rw [← hbytes, ← hsizes]
    simp [metaDataBytes]
  have hdataType : toNat ((bytes.drop 4).take 4) = dataType.toNat := by
    refine toNat_field (ofNat 4 mb.growRate) (ofNat 4 dataState.toNat ++
      [0, 0, 0, 0] ++ sizes ++ ofNat 4 userInt.toNat ++ [0, 0, 0, 0] ++
        ofNat 8 userLong.toNat) ?_ (by simp) dataType.toNat_lt
    rw [← hbytes, ← hsizes]
    simp [metaDataBytes]
  have hdataState : toNat ((bytes.drop 8).take 4) = dataState.toNat := by
    refine toNat_field (ofNat 4 mb.growRate ++ ofNat 4 dataType.toNat)
      ([0, 0, 0, 0] ++ sizes ++ ofNat 4 userInt.toNat ++ [0, 0, 0, 0] ++
        ofNat 8 userLong.toNat) ?_ (by simp) dataState.toNat_lt
    rw [← hbytes, ← hsizes]
    simp [metaDataBytes]
  have hoffset : toNat ((bytes.drop 16).take 8) = mb.offset := by
    refine toNat_field numbers (ofNat 8 (getSize mb) ++
      ofNat 4 userInt.toNat ++ [0, 0, 0, 0] ++ ofNat 8 userLong.toNat)
      ?_ hnumbersLen.symm h.offset
    rw [← hbytes, ← hnumbers]
    simp [metaDataBytes]
  have huserInt : toNat ((bytes.drop 32).take 4) = userInt.toNat := by
    refine toNat_field (numbers ++ sizes) ([0, 0, 0, 0] ++ ofNat 8 userLong.toNat)
      ?_ (by simp [hnumbersLen, hsizesLen]) userInt.toNat_lt
    rw [← hbytes, ← hnumbers, ← hsizes]
    simp [metaDataBytes]
  have huserLong : toNat ((bytes.drop 40).take 8) = userLong.toNat := by
    refine toNat_field (numbers ++ sizes ++ ofNat 4 userInt.toNat ++ [0, 0, 0, 0]) []
      ?_ (by simp [hnumbersLen, hsizesLen]) userLong.toNat_lt
    rw [← hbytes, ← hnumbers, ← hsizes]
    simp [metaDataBytes]
  rw [hbytes]
  simp only [populate, hgrowRate, hdataType, hdataState, hoffset, huserInt, huserLong,
    UInt32.ofNat_toNat, UInt64.ofNat_toNat]

def packedItems (mb : MemBuffer) (tags : Tags) (itemSubId : UInt64) : List MetaDataItem :=
  [⟨datatypeMeta, itemSubId, metaDataBytes mb tags⟩, ⟨datatypeData, itemSubId, visible mb⟩]

theorem metaDataPackToMB_eq (h : Stored mb) :
    metaDataPackToMB mb tags itemSubId =
      if mb.offset ≤ mb.size then .ok (pack (packedItems mb tags itemSubId) (.new 1024))
      else .error .outside := by
  unfold metaDataPackToMB metaDataPack
  simp only [h.readFrom_deref]
  by_cases hin : mb.offset ≤ mb.size
  · simp only [if_pos hin, bind, Except.bind, pure, Except.pure, nil_append]
    rfl
  · simp only [if_neg hin, bind, Except.bind]

theorem Stored.packable (h : Stored mb) (tags : Tags) (itemSubId : UInt64) :
    Packable (packedItems mb tags itemSubId) := by
  have hshort := h.length_visible_lt
  constructor
  · simp only [packedItems, length_cons, length_nil]
    omega
  · simp only [packedItems, map_cons, map_nil, sum_cons, sum_nil,
      length_metaDataBytes]
    omega

def populated (mb : MemBuffer) : MemBuffer :=
  { MemBuffer.new 512 with growRate := mb.growRate, offset := mb.offset }

theorem wf_populated (mb : MemBuffer) : (populated mb).WF := ⟨Nat.le_refl 0, Nat.le_refl 0⟩

theorem unPack_items (h : Stored mb) {raw : List UInt8}
    (hall : AllWhole raw 64 (packedItems mb tags itemSubId).length)
    (hitems : (itemsFrom raw 64 (packedItems mb tags itemSubId).length).map (reload raw) =
      packedItems mb tags itemSubId) :
    (itemsFrom raw 64 (packedItems mb tags itemSubId).length).foldlM (unPackItem raw)
      (.new 512, {}) = .ok ((populated mb).add (visible mb), tags) := by
  have hshort := h.length_visible_lt
  have hrate := h.growRate
  obtain ⟨pos, hpos⟩ : ∃ pos, MetaData.next raw 64 = pos := ⟨_, rfl⟩
  simp only [packedItems, length_cons, length_nil, Nat.zero_add, itemsFrom,
    map_cons, map_nil, List.cons.injEq, and_true, hpos] at hall hitems ⊢
  obtain ⟨hmeta, hdata⟩ := hitems
  have hmetaId : (itemAt raw 64).itemId = datatypeMeta := congrArg MetaDataItem.itemId hmeta
  have hdataId : (itemAt raw pos).itemId = datatypeData := congrArg MetaDataItem.itemId hdata
  have hmetaLoad : load raw (itemAt raw 64) = metaDataBytes mb tags :=
    congrArg MetaDataItem.content hmeta
  have hdataLoad : load raw (itemAt raw pos) = visible mb := congrArg MetaDataItem.content hdata
  have hdataWhole : Whole raw pos := hpos ▸ hall.2.1
  have hinside : (itemAt raw pos).ptr + (itemAt raw pos).sz ≤ raw.length := by
    have hend := hdataWhole.inside
    unfold MetaData.next at hend
    simp only [itemAt]
    omega
  have hbytes : (itemAt raw 64).ptr + 48 ≤ raw.length ∧
      (raw.drop (itemAt raw 64).ptr).take 48 = metaDataBytes mb tags := by
    have hlength := congrArg List.length hmetaLoad
    rw [length_metaDataBytes, load, length_take, length_drop] at hlength
    refine ⟨by omega, ?_⟩
    rw [← hmetaLoad, load, take_eq_take_iff, length_drop]
    omega
  have hfirst : unPackItem raw (.new 512, {}) (itemAt raw 64) = .ok (populated mb, tags) := by
    rw [unPackItem, if_pos hmetaId, if_pos hbytes.1, hbytes.2, populate_metaDataBytes h]
    rfl
  have hroom : Room (populated mb) ((visible mb).length + 1) := by
    change 0 + 0 + mb.growRate + ((visible mb).length + 1) < 2 ^ 64
    omega
  have hsecond : unPackItem raw (populated mb, tags) (itemAt raw pos) =
      .ok ((populated mb).add (visible mb), tags) := by
    rw [unPackItem, if_neg (by rw [hdataId]; decide), if_pos hdataId, if_pos hinside, hdataLoad,
      add_eq (wf_populated mb) hroom]
    rfl
  simp only [foldlM_cons, foldlM_nil, hfirst, bind, Except.bind, hsecond]
  rfl

theorem unPackFromMB_eq (h : Stored mb) (growRate : Nat) :
    metaDataUnPackFromMB (pack (packedItems mb tags itemSubId) (.new growRate)) =
      if 7 ≤ (visible mb).length then .ok (some ((populated mb).add (visible mb), tags))
      else .ok none := by
  have hpackable := h.packable tags itemSubId
  obtain ⟨s, hs⟩ : ∃ s, start (pack (packedItems mb tags itemSubId) (.new growRate)) = s := ⟨_, rfl⟩
  unfold metaDataUnPackFromMB
  rw [hs]
  by_cases hlong : 7 ≤ (visible mb).length
  · rw [if_pos hlong]
    obtain ⟨hall, hitems, hends⟩ := hpackable.finds (by
      intro last hlast
      cases hlast
      exact hlong) hs
    unfold Ends at hends
    cases hunpack : unpack s with
    | error f t =>
      rw [hunpack] at hends
      exact hends.elim
    | ok code t =>
      rw [hunpack] at hends
      obtain ⟨hcode, hraw, hfound⟩ := hends
      subst hcode
      simp only [hraw, hfound, unPack_items h hall hitems]
      rfl
  · rw [if_neg hlong]
    obtain ⟨init, last, hitems, hshort⟩ : ∃ init last,
        packedItems mb tags itemSubId = init ++ [last] ∧ last.content.length < 7 :=
      ⟨[_], _, rfl, Nat.lt_of_not_le hlong⟩
    rw [hitems] at hpackable hs
    have hfails := @short_last_item_ends growRate _ _ hpackable hshort
    rw [hs] at hfails
    unfold Ends at hfails
    cases hunpack : unpack s with
    | error f t =>
      rw [hunpack] at hfails
      exact hfails.elim
    | ok code t =>
      rw [hunpack] at hfails
      have hcode : code = .failedNeedMoreDataMetaitem := hfails
      subst hcode
      rfl

theorem packComesBack_iff (h : Stored mb) :
    ComesBack mb tags itemSubId ↔ mb.offset = 0 ∧ 7 ≤ mb.size := by
  have hallocated := h.allocated
  have hused := h.used
  have hmemory := h.memory
  have hlength := length_visible h.toWF
  have hwf := (wf_populated mb).add (visible mb)
  have hcontent : content ((populated mb).add (visible mb)) = visible mb :=
    (MemBuffer.take_add (wf_populated mb) (visible mb)).trans (nil_append _)
  have hsize := MemBufferContent.length_content hwf
  rw [hcontent] at hsize
  have hbase : ((populated mb).add (visible mb)).offset = mb.offset :=
    MemBuffer.checkForGrow_offset _
  have hiff := shows_content_iff hwf (by omega) (by rw [hbase]; exact h.offset)
  rw [hcontent, hbase] at hiff
  unfold ComesBack
  rw [metaDataPackToMB_eq h]
  by_cases hin : mb.offset ≤ mb.size
  · rw [if_pos hin]
    constructor
    · rintro ⟨packedMb, newMb, newTags, hpacked, hback, hshows⟩
      rw [← Except.ok.inj hpacked, unPackFromMB_eq h 1024] at hback
      by_cases hlong : 7 ≤ (visible mb).length
      · rw [if_pos hlong] at hback
        have hnew : (populated mb).add (visible mb) = newMb :=
          congrArg Prod.fst (Option.some.inj (Except.ok.inj hback))
        rw [← hnew] at hshows
        exact ⟨hiff.1 hshows, by omega⟩
      · rw [if_neg hlong] at hback
        cases Except.ok.inj hback
    · rintro ⟨hzero, hlong⟩
      refine ⟨_, (populated mb).add (visible mb), tags, rfl, ?_, hiff.2 hzero⟩
      rw [unPackFromMB_eq h 1024, if_pos (by omega)]
  · rw [if_neg hin]
    constructor
    · rintro ⟨packedMb, newMb, newTags, hpacked, -⟩
      cases hpacked
    · intro hboth
      omega

end Serialised

/-- **Copies.**  Where each of the four copies shows the bytes that were visible. -/
theorem copies_iff (mb mb₂ : MemBuffer) (offset : Nat) (tags : Tags) (itemSubId : UInt64)
    (h : Stored mb) (h₂ : Stored mb₂) (hoffset : offset < 2 ^ 64) :
    (DupShows mb ↔ mb.offset = 0) ∧
      (DupOffsetShows mb offset ↔
        mb.offset + offset ≤ mb.size ∨ mb.offset + offset = mb.size + 2 ^ 64) ∧
      (MergeShows mb mb₂ ↔ mb.offset ≤ mb.size ∧ mb₂.offset ≤ mb₂.size) ∧
      (ComesBack mb tags itemSubId ↔ mb.offset = 0 ∧ 7 ≤ mb.size) :=
  ⟨dupShows_iff h, dupOffsetShows_iff h hoffset, mergeShows_iff h h₂, packComesBack_iff h⟩

/-- A buffer of eight bytes that is read from the second one on. -/
def secondByteOn : MemBuffer :=
  { (MemBuffer.new 64).add [1, 2, 3, 4, 5, 6, 7, 8] with offset := 1 }

theorem stored_secondByteOn : Stored secondByteOn := by
  have hplain := (MemBuffer.plain_new 64).add [1, 2, 3, 4, 5, 6, 7, 8]
  exact ⟨⟨hplain.allocated, hplain.used⟩, by decide, by decide, by decide⟩

theorem copies_iff_secondByteOn :
    (DupShows secondByteOn ↔ secondByteOn.offset = 0) ∧
      (DupOffsetShows secondByteOn 3 ↔ secondByteOn.offset + 3 ≤ secondByteOn.size ∨
        secondByteOn.offset + 3 = secondByteOn.size + 2 ^ 64) ∧
      (MergeShows secondByteOn secondByteOn ↔ secondByteOn.offset ≤ secondByteOn.size ∧
        secondByteOn.offset ≤ secondByteOn.size) ∧
      (ComesBack secondByteOn {} 7 ↔ secondByteOn.offset = 0 ∧ 7 ≤ secondByteOn.size) :=
  copies_iff secondByteOn secondByteOn 3 {} 7 stored_secondByteOn stored_secondByteOn (by decide)

/-- Its copies lose the second byte, and there is no copy from behind its end. -/
theorem base_offset_is_skipped_twice :
    (∃ newMb, dup secondByteOn = .ok newMb ∧ newMb.bytes = [3, 4, 5, 6, 7, 8]) ∧
      visible secondByteOn = [2, 3, 4, 5, 6, 7, 8] ∧ ¬ DupShows secondByteOn ∧
      ¬ DupOffsetShows secondByteOn 8 ∧ ¬ ComesBack secondByteOn {} 7 := by
  refine ⟨?_, by decide, ?_, ?_, ?_⟩
  · rw [dup_eq stored_secondByteOn, if_pos (by decide)]
    exact ⟨_, rfl, by decide⟩
  · rw [dupShows_iff stored_secondByteOn]
    decide
  · rw [dupOffsetShows_iff stored_secondByteOn (by decide)]
    decide
  · rw [packComesBack_iff stored_secondByteOn]
    decide

end MemBufferCopies

end BrbData
