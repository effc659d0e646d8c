import BrbFramework.Lib.Machine

/-!
# Growing memory buffers

A `MemBuffer` is an allocation of `capacity` bytes of which the first `size` are
in use. `MemBufferCheckForGrow` extends the allocation before a write, and
`realloc` may move it: `moved` counts the allocations, so that a pointer taken
with `MemBufferDeref` is good as long as `moved` is what it was.
-/

namespace BrbData

open Machine List

structure MemBuffer where
  data : List UInt8 := []
  size : Nat := 0
  capacity : Nat := 0
  offset : Nat := 0
  growRate : Nat
  moved : Nat := 0
  deriving DecidableEq, Repr

namespace MemBuffer

/-- `MemBufferNew`. -/
def new (growRate : Nat) : MemBuffer :=
  { growRate := if growRate = 0 then 64 else growRate }

/-- `MemBufferGetSize`. -/
def getSize (mb : MemBuffer) : Nat := mb.size - mb.offset

/-- `MemBufferCheckForGrow`. The bytes behind the old capacity are cleared. -/
def checkForGrow (mb : MemBuffer) (newDataSz : Nat) : MemBuffer :=
  let needMem := mb.growRate + newDataSz
  if mb.capacity = 0 then
    { mb with data := List.replicate needMem 0, capacity := needMem, moved := mb.moved + 1 }
  else if mb.capacity ≤ mb.size + newDataSz then
    { mb with
      data := mb.data.take mb.capacity ++ List.replicate needMem 0
      capacity := mb.capacity + needMem
      moved := mb.moved + 1 }
  else mb

/-- `MemBufferOffsetWrite`. -/
def offsetWrite (mb : MemBuffer) (offset : Nat) (data : List UInt8) : MemBuffer :=
  let writeEnd := offset + data.length
  let mb := mb.checkForGrow (writeEnd + 1)
  { mb with
    data := splice mb.data (mb.offset + offset) data
    size := if writeEnd < mb.size then mb.size else writeEnd }

/-- `MemBufferAdd`. -/
def add (mb : MemBuffer) (newData : List UInt8) : MemBuffer :=
  let mb := mb.checkForGrow (newData.length + 1)
  { mb with data := splice mb.data mb.size newData, size := mb.size + newData.length }

/-- `MemBufferPutNULLTerminator`. -/
def putNULLTerminator (mb : MemBuffer) : MemBuffer :=
  let mb := mb.add [0]
  { mb with size := mb.size - 1 }

/-- `MemBufferShrink`. -/
def shrink (mb : MemBuffer) : MemBuffer :=
  let mb := mb.putNULLTerminator
  if mb.size ≤ 1 then mb
  else { mb with
    data := mb.data.take (mb.size + 1)
    capacity := mb.size
    moved := mb.moved + 1 }

/-- `MemBufferClean`. -/
def clean (mb : MemBuffer) : MemBuffer :=
  { mb with data := splice mb.data 0 (List.replicate mb.size 0), size := 0, offset := 0 }

/-- What a reader finds behind `MemBufferOffsetDeref`. -/
def offsetRead (mb : MemBuffer) (offset len : Nat) : List UInt8 :=
  (mb.data.drop (mb.offset + offset)).take len

/-- The bytes behind `MemBufferDeref` that are in use. -/
def bytes (mb : MemBuffer) : List UInt8 := mb.offsetRead 0 mb.getSize

/-! ## Well-formed buffers -/

structure WF (mb : MemBuffer) : Prop where
  allocated : mb.capacity ≤ mb.data.length
  used : mb.size ≤ mb.capacity

theorem wf_new (growRate : Nat) : (new growRate).WF := ⟨by simp [new], by simp [new]⟩

variable {mb : MemBuffer}

section Grow

variable (n : Nat)

@[simp] theorem checkForGrow_size : (mb.checkForGrow n).size = mb.size := by
  unfold checkForGrow
  split
  · rfl
  · split <;> rfl

@[simp] theorem checkForGrow_offset : (mb.checkForGrow n).offset = mb.offset := by
  unfold checkForGrow
  split
  · rfl
  · split <;> rfl

theorem checkForGrow_capacity : n ≤ (mb.checkForGrow n).capacity := by
  unfold checkForGrow
  simp only
  split
  · simp only
    omega
  · split
    · simp only
      omega
    · omega

@[simp] theorem checkForGrow_growRate : (mb.checkForGrow n).growRate = mb.growRate := by
  unfold checkForGrow
  split
  · rfl
  · split <;> rfl

theorem checkForGrow_capacity_le :
    (mb.checkForGrow n).capacity ≤ mb.capacity + mb.growRate + n := by
  unfold checkForGrow
  simp only
  split
  · simp only
    omega
  · split
    · simp only
      omega
    · omega

theorem WF.checkForGrow (h : mb.WF) : (mb.checkForGrow n).WF := by
  have hdata := h.allocated
  have hused := h.used
  refine ⟨?_, ?_⟩
  · unfold MemBuffer.checkForGrow
    simp only
    split
    · simp
    · split
      · simp only [length_append, length_take, length_replicate]
        omega
      · exact hdata
  · rw [checkForGrow_size]
    unfold MemBuffer.checkForGrow
    simp only
    split
    · simp only
      omega
    · split
      · simp only
        omega
      · exact hused

theorem room_checkForGrow (h : mb.WF) : mb.size + n ≤ (mb.checkForGrow n).capacity := by
  have hused := h.used
  unfold MemBuffer.checkForGrow
  simp only
  split
  · simp only
    omega
  · split
    · simp only
      omega
    · omega

theorem checkForGrow_data (h : mb.WF) {i : Nat} (hi : i < mb.size) :
    (mb.checkForGrow n).data[i]? = mb.data[i]? := by
  have hdata := h.allocated
  have hused := h.used
  unfold MemBuffer.checkForGrow
  simp only
  split
  · omega
  · split
    · simp only
      rw [getElem?_append_left (by rw [length_take]; omega),
        getElem?_take_of_lt (by omega)]
    · rfl

end Grow

section OffsetWrite

variable {off : Nat} {data : List UInt8}

@[simp] theorem offsetWrite_offset : (mb.offsetWrite off data).offset = mb.offset := by
  simp [offsetWrite]

theorem offsetWrite_size :
    (mb.offsetWrite off data).size = max mb.size (off + data.length) := by
  simp only [offsetWrite, checkForGrow_size]
  split <;> omega

theorem offsetWrite_fits (h : mb.WF) (hoff : mb.offset = 0) :
    (mb.checkForGrow (off + data.length + 1)).offset + off + data.length ≤
      (mb.checkForGrow (off + data.length + 1)).data.length := by
  have hcap : off + data.length + 1 ≤ (mb.checkForGrow (off + data.length + 1)).capacity :=
    checkForGrow_capacity _
  have hdata := (h.checkForGrow (off + data.length + 1)).allocated
  rw [checkForGrow_offset, hoff]
  omega

theorem WF.offsetWrite (h : mb.WF) (hoff : mb.offset = 0) : (mb.offsetWrite off data).WF := by
  have hgrow := h.checkForGrow (off + data.length + 1)
  have hcap : off + data.length + 1 ≤ (mb.checkForGrow (off + data.length + 1)).capacity :=
    checkForGrow_capacity _
  have hused := hgrow.used
  rw [checkForGrow_size] at hused
  refine ⟨?_, ?_⟩
  · simp only [MemBuffer.offsetWrite]
    rw [length_splice (offsetWrite_fits h hoff)]
    exact hgrow.allocated
  · rw [offsetWrite_size]
    simp only [MemBuffer.offsetWrite]
    omega

theorem offsetWrite_inside (h : mb.WF) (hoff : mb.offset = 0) {i : Nat} (hi : i < data.length) :
    (mb.offsetWrite off data).data[off + i]? = data[i]? := by
  have hfits : _ + off + data.length ≤ _ := offsetWrite_fits h hoff
  have hin := splice_inside hfits hi
  rw [checkForGrow_offset, hoff, Nat.zero_add] at hin
  simp only [offsetWrite, checkForGrow_offset, hoff, Nat.zero_add]
  exact hin

theorem offsetWrite_outside (h : mb.WF) (hoff : mb.offset = 0) {i : Nat} (hsize : i < mb.size)
    (hi : i < off ∨ off + data.length ≤ i) :
    (mb.offsetWrite off data).data[i]? = mb.data[i]? := by
  have hfits : _ + off + data.length ≤ _ := offsetWrite_fits h hoff
  have hgrow := checkForGrow_data (off + data.length + 1) h hsize
  simp only [offsetWrite, checkForGrow_offset, hoff, Nat.zero_add]
  rw [checkForGrow_offset, hoff, Nat.zero_add] at hfits
  rcases hi with hi | hi
  · rw [splice_below hfits hi, hgrow]
  · rw [splice_above hfits hi, hgrow]

end OffsetWrite

section Bytes

/-- A buffer whose bytes are those from the start of its allocation to its size. -/
structure Plain (mb : MemBuffer) : Prop extends mb.WF where
  offset : mb.offset = 0

theorem plain_new (growRate : Nat) : (new growRate).Plain := ⟨wf_new growRate, rfl⟩

theorem Plain.bytes (h : mb.Plain) : mb.bytes = mb.data.take mb.size := by
  simp [MemBuffer.bytes, offsetRead, getSize, h.offset]

theorem Plain.getSize (h : mb.Plain) : mb.getSize = mb.size := by
  simp [MemBuffer.getSize, h.offset]

theorem Plain.length_bytes (h : mb.Plain) : mb.bytes.length = mb.size := by
  have hdata := h.allocated
  have hused := h.used
  rw [h.bytes, length_take]
  omega

@[simp] theorem bytes_new (growRate : Nat) : (new growRate).bytes = [] := by
  simp [MemBuffer.bytes, new, offsetRead]

theorem add_fits (h : mb.WF) (n : Nat) : mb.size + n ≤ (mb.checkForGrow n).data.length :=
  (room_checkForGrow n h).trans (h.checkForGrow n).allocated

theorem WF.add (h : mb.WF) (d : List UInt8) : (mb.add d).WF := by
  have hfits := add_fits h (d.length + 1)
  have hgrow := h.checkForGrow (d.length + 1)
  have hcap := room_checkForGrow (d.length + 1) h
  constructor
  · simp only [MemBuffer.add]
    rw [length_splice (by rw [checkForGrow_size]; omega)]
    exact hgrow.allocated
  · simp only [MemBuffer.add, checkForGrow_size]
    omega

theorem Plain.add (h : mb.Plain) (d : List UInt8) : (mb.add d).Plain := by
  refine ⟨h.toWF.add d, ?_⟩
  simp only [MemBuffer.add, checkForGrow_offset, h.offset]

theorem take_checkForGrow (h : mb.WF) (n : Nat) :
    (mb.checkForGrow n).data.take mb.size = mb.data.take mb.size := by
  refine ext_getElem? fun i => ?_
  by_cases hi : i < mb.size
  · rw [getElem?_take_of_lt hi, getElem?_take_of_lt hi, checkForGrow_data n h hi]
  · rw [getElem?_take_eq_none (by omega), getElem?_take_eq_none (by omega)]

theorem take_add (h : mb.WF) (d : List UInt8) :
    (mb.add d).data.take (mb.add d).size = mb.data.take mb.size ++ d := by
  have hfits := add_fits h (d.length + 1)
  have hlen : ((mb.checkForGrow (d.length + 1)).data.take mb.size).length = mb.size := by
    rw [length_take]
    omega
  rw [← take_checkForGrow h (d.length + 1)]
  simp only [MemBuffer.add, splice, checkForGrow_size]
  rw [take_append_of_le_length (by rw [length_append, hlen]),
    take_of_length_le (by rw [length_append, hlen])]

theorem Plain.bytes_add (h : mb.Plain) (d : List UInt8) : (mb.add d).bytes = mb.bytes ++ d := by
  rw [(h.add d).bytes, h.bytes, take_add h.toWF]

theorem Plain.rewrite (h : mb.Plain) {bs : List UInt8} (hbs : bs.length = mb.size) :
    MemBuffer.Plain { mb with data := splice mb.data mb.offset bs } ∧
      MemBuffer.bytes { mb with data := splice mb.data mb.offset bs } = bs := by
  have hdata := h.allocated
  have hused := h.used
  have hplain : MemBuffer.Plain { mb with data := splice mb.data mb.offset bs } := by
    refine ⟨⟨?_, hused⟩, h.offset⟩
    simp only
    rw [length_splice (by rw [h.offset]; omega)]
    exact hdata
  refine ⟨hplain, ?_⟩
  rw [hplain.bytes]
  simp only [h.offset, splice, take_zero, nil_append]
  rw [← hbs, take_left]

theorem Plain.putNULLTerminator (h : mb.Plain) : mb.putNULLTerminator.Plain := by
  have hadd := h.add [0]
  refine ⟨⟨hadd.allocated, ?_⟩, hadd.offset⟩
  have := hadd.used
  simp only [MemBuffer.putNULLTerminator]
  omega

@[simp] theorem putNULLTerminator_size : mb.putNULLTerminator.size = mb.size := by
  simp [MemBuffer.putNULLTerminator, MemBuffer.add]

theorem Plain.bytes_putNULLTerminator (h : mb.Plain) : mb.putNULLTerminator.bytes = mb.bytes := by
  have hadd : (mb.add [0]).data.take (mb.size + 1) = mb.bytes ++ [0] := by
    have := h.bytes_add [0]
    rw [(h.add [0]).bytes] at this
    simpa [MemBuffer.add] using this
  rw [h.putNULLTerminator.bytes, putNULLTerminator_size]
  simp only [MemBuffer.putNULLTerminator]
  calc (mb.add [0]).data.take mb.size
      = ((mb.add [0]).data.take (mb.size + 1)).take mb.size := by
        rw [take_take, Nat.min_eq_left (Nat.le_succ _)]
    _ = (mb.bytes ++ [0]).take mb.size := by rw [hadd]
    _ = mb.bytes := by rw [← h.length_bytes, take_left]

@[simp] theorem shrink_size : mb.shrink.size = mb.size := by
  unfold shrink
  simp only
  split
  · exact putNULLTerminator_size
  · exact putNULLTerminator_size

theorem plain_shrink (h : mb.Plain) : mb.shrink.Plain := by
  have hterm := h.putNULLTerminator
  unfold shrink
  simp only
  split
  · exact hterm
  · refine ⟨⟨?_, le_rfl⟩, hterm.offset⟩
    have hdata := hterm.allocated
    have hused := hterm.used
    change mb.putNULLTerminator.size ≤ _
    rw [length_take]
    omega

theorem bytes_shrink (h : mb.Plain) : mb.shrink.bytes = mb.bytes := by
  rw [← h.bytes_putNULLTerminator, (plain_shrink h).bytes, h.putNULLTerminator.bytes, shrink_size,
    putNULLTerminator_size]
  unfold shrink
  simp only
  split
  · rfl
  · rw [take_take, putNULLTerminator_size, Nat.min_eq_left (Nat.le_succ _)]

theorem Plain.clean (h : mb.Plain) : mb.clean.Plain := by
  have hdata := h.allocated
  have hused := h.used
  refine ⟨⟨?_, Nat.zero_le _⟩, rfl⟩
  simp only [MemBuffer.clean]
  rw [length_splice (by rw [length_replicate]; omega)]
  exact hdata

@[simp] theorem bytes_clean : mb.clean.bytes = [] := by
  simp [MemBuffer.bytes, MemBuffer.clean, offsetRead, MemBuffer.getSize]

theorem Plain.shrink (h : mb.Plain) {n : Nat} (hn : n ≤ mb.size) :
    ({ mb with size := n } : MemBuffer).Plain :=
  ⟨⟨h.allocated, hn.trans h.used⟩, h.offset⟩

theorem Plain.bytes_shrink (h : mb.Plain) {n : Nat} (hn : n ≤ mb.size) :
    ({ mb with size := n } : MemBuffer).bytes = mb.bytes.take n := by
  rw [(h.shrink hn).bytes, h.bytes, take_take, Nat.min_eq_left hn]

theorem Plain.offsetRead (h : mb.Plain) {off len : Nat} (hin : off + len ≤ mb.size) :
    mb.offsetRead off len = (mb.bytes.drop off).take len := by
  rw [h.bytes, MemBuffer.offsetRead, h.offset, Nat.zero_add, drop_take, take_take,
    Nat.min_eq_left (by omega)]

end Bytes

end MemBuffer

end BrbData
