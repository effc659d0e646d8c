import BrbFramework.Lib.Runs
import BrbFramework.Data.MemBuffer

/-!
# The content operations of a memory buffer

The calls that change what a `MemBuffer` holds, with their arithmetic in 64 bits
and every write checked against the allocation. `Op.Keeps` is the array of
bytes that each of them stands for; the base offset moves the target of
`MemBufferOffsetWrite` and nothing else.

Each call works out size, room and target by an expression of its own.
`content_run` says for which buffers and arguments they agree. A buffer marked
as read-only, which two of the calls refuse, is left out.
-/

namespace BrbData

open Handler Machine List

namespace MemBufferContent

inductive Fault
  /-- A write through the null pointer of `MemBufferOffsetDeref`. -/
  | null
  /-- A write that is not inside the allocation. -/
  | outside
  deriving DecidableEq, Repr

abbrev M := EStateM Fault MemBuffer

/-- A `memcpy` or `memset` of `bs` to `data + pos`. -/
def copyIn (pos : Nat) (bs : List UInt8) : M PUnit := do
  let mb ← get
  if bs = [] then pure ()
  else
    assertThat (pos + bs.length ≤ mb.data.length) .outside
    set { mb with data := splice mb.data pos bs }

/-- `MemBufferCheckForGrow`, which clears what `realloc` adds. -/
def checkForGrow (newDataSz : Nat) : M PUnit := do
  let mb ← get
  let needMem := uint64 (mb.growRate + newDataSz)
  if mb.capacity = 0 then
    set { mb with data := List.replicate needMem 0, capacity := needMem, moved := mb.moved + 1 }
  else if mb.capacity ≤ uint64 (mb.size + newDataSz) then
    let capacity := uint64 (mb.capacity + needMem)
    assertThat (mb.capacity + needMem = capacity) .outside
    set { mb with
      data := mb.data.take mb.capacity ++ List.replicate needMem 0
      capacity := capacity
      moved := mb.moved + 1 }
  else pure ()

/-- `MemBufferAdd`. -/
def add (newData : List UInt8) : M PUnit := do
  checkForGrow (uint64 (newData.length + 1))
  let mb ← get
  copyIn mb.size newData
  modify fun mb => { mb with size := uint64 (mb.size + newData.length) }

/-- `MemBufferOverwrite`. -/
def overwrite (newDataOffset : Nat) (newData : List UInt8) : M PUnit := do
  let neededSize := uint64 (newDataOffset + newData.length)
  checkForGrow (uint64 (neededSize + 1))
  copyIn newDataOffset newData
  modify fun mb => { mb with size := uint64 (mb.size + neededSize) }

/-- `MemBufferOffsetWrite`. The pointer is that of `MemBufferOffsetDeref`, null
where the offset exceeds the capacity. -/
def offsetWrite (offset : Nat) (data : List UInt8) : M PUnit := do
  let writeEnd := uint64 (offset + data.length)
  checkForGrow (uint64 (writeEnd + 1))
  let mb ← get
  assertThat (offset ≤ mb.capacity ∨ data = []) .null
  copyIn (uint64 (mb.offset + offset)) data
  modify fun mb => { mb with size := if writeEnd < mb.size then mb.size else writeEnd }

/-- `MemBufferOffsetSet`. -/
def offsetSet (offset : Nat) : M PUnit := modify fun mb => { mb with offset := offset }

/-- `MemBufferOffsetIncrement`. -/
def offsetIncrement (offset : Nat) : M PUnit :=
  modify fun mb => { mb with offset := uint64 (mb.offset + offset) }

/-- `MemBufferClean`. -/
def clean : M PUnit := do
  let mb ← get
  copyIn 0 (List.replicate mb.size 0)
  modify fun mb => { mb with size := 0, offset := 0 }

/-- `MemBufferPutNULLTerminator`. -/
def putNULLTerminator : M PUnit := do
  add [0]
  modify fun mb => { mb with size := uint64Sub mb.size 1 }

/-- `MemBufferShrink`. -/
def shrink : M PUnit := do
  putNULLTerminator
  let mb ← get
  if mb.size ≤ 1 then pure ()
  else
    set { mb with
      data := mb.data.take (mb.size + 1)
      capacity := mb.size
      moved := mb.moved + 1 }

/-- `MemBufferRemoveLastChar`. -/
def removeLastChar : M PUnit := do
  let mb ← get
  if mb.size = 0 then pure ()
  else if mb.size = 1 then clean
  else
    copyIn (mb.size - 1) [0]
    modify fun mb => { mb with size := mb.size - 1 }

/-- The loop of `MemBufferShrinkToToken` from `i` down: what `j` is where the
token is found. -/
def findToken (data : List UInt8) (base : Nat) (token : UInt8) : Nat → Int → Option Int
  | 0, _ => none
  | i + 1, j =>
      if data[base + (i + 1)]? = some token then some (j - 1) else findToken data base token i (j + 1)

/-- `MemBufferShrinkToToken`. The size is an `int`. -/
def shrinkToToken (token : UInt8) : M PUnit := do
  let mb ← get
  let dataSz := int32 (uint64Sub mb.size mb.offset)
  match findToken mb.data mb.offset token dataSz.toNat 0 with
  | none => pure ()
  | some j => set { mb with size := ((mb.size - j) % 2 ^ 64).toNat }

inductive Op
  | add (newData : List UInt8)
  | offsetWrite (offset : Nat) (data : List UInt8)
  | overwrite (newDataOffset : Nat) (newData : List UInt8)
  | offsetSet (offset : Nat)
  | offsetIncrement (offset : Nat)
  | clean
  | shrink
  | removeLastChar
  | shrinkToToken (token : UInt8)
  deriving DecidableEq, Repr

def handle : Op → M PUnit
  | .add newData => MemBufferContent.add newData
  | .offsetWrite offset data => MemBufferContent.offsetWrite offset data
  | .overwrite newDataOffset newData => MemBufferContent.overwrite newDataOffset newData
  | .offsetSet offset => MemBufferContent.offsetSet offset
  | .offsetIncrement offset => MemBufferContent.offsetIncrement offset
  | .clean => MemBufferContent.clean
  | .shrink => MemBufferContent.shrink
  | .removeLastChar => MemBufferContent.removeLastChar
  | .shrinkToToken token => MemBufferContent.shrinkToToken token

/-! ## The array of bytes -/

def content (mb : MemBuffer) : List UInt8 := mb.data.take mb.size

theorem wf_putNULLTerminator {mb : MemBuffer} (h : mb.WF) : mb.putNULLTerminator.WF := by
  have hadd := h.add [0]
  have hused := hadd.used
  refine ⟨hadd.allocated, ?_⟩
  simp only [MemBuffer.putNULLTerminator]
  omega

theorem content_putNULLTerminator {mb : MemBuffer} (h : mb.WF) :
    content mb.putNULLTerminator = content mb := by
  have hadd := MemBuffer.take_add h [0]
  have hsize : (mb.add [0]).size = mb.size + 1 := by simp [MemBuffer.add]
  have hlength : (mb.data.take mb.size).length = mb.size := by
    have hused := h.used
    have hallocated := h.allocated
    rw [length_take]
    omega
  have hdata : mb.putNULLTerminator.data = (mb.add [0]).data := rfl
  rw [hsize] at hadd
  rw [content, content, MemBuffer.putNULLTerminator_size, hdata]
  calc (mb.add [0]).data.take mb.size = ((mb.add [0]).data.take (mb.size + 1)).take mb.size := by
        rw [take_take, Nat.min_eq_left (Nat.le_succ _)]
    _ = (mb.data.take mb.size ++ [0]).take mb.size := by rw [hadd]
    _ = mb.data.take mb.size := by rw [take_append_of_le_length hlength.ge, take_take,
        Nat.min_self]

/-- `new` is `old` with `bs` written at `pos`: exactly these bytes are changed, and
the size is the larger of the old one and the end of the range. -/
structure WrittenAt (old new : List UInt8) (pos : Nat) (bs : List UInt8) : Prop where
  length : new.length = max old.length (pos + bs.length)
  inside : ∀ i < bs.length, new[pos + i]? = bs[i]?
  outside : ∀ i < old.length, i < pos ∨ pos + bs.length ≤ i → new[i]? = old[i]?

/-- `new` is `old` up to its last `token` from `base` on, if there is one. -/
def CutAtToken (old new : List UInt8) (base : Nat) (token : UInt8) : Prop :=
  (token ∉ old.drop base ∧ new = old) ∨
    ∃ k, base < k ∧ k ≤ old.length ∧ old[k - 1]? = some token ∧ token ∉ old.drop k ∧ new = old.take k

/-- What a call is to do to the content of a buffer, whose size is to stay
within the capacity, and to its base offset. -/
def Op.Keeps (mb : MemBuffer) (o : Op) (mb' : MemBuffer) : Prop :=
  mb'.size ≤ mb'.capacity ∧ mb'.capacity ≤ mb'.data.length ∧
    match o with
    | .add newData => content mb' = content mb ++ newData ∧ mb'.offset = mb.offset
    | .offsetWrite offset data =>
        WrittenAt (content mb) (content mb') (mb.offset + offset) data ∧ mb'.offset = mb.offset
    | .overwrite newDataOffset newData =>
        WrittenAt (content mb) (content mb') newDataOffset newData ∧ mb'.offset = mb.offset
    | .offsetSet offset => content mb' = content mb ∧ mb'.offset = offset
    | .offsetIncrement offset => content mb' = content mb ∧ mb'.offset = uint64 (mb.offset + offset)
    | .clean => content mb' = [] ∧ mb'.offset = 0
    | .shrink => content mb' = content mb ∧ mb'.offset = mb.offset
    | .removeLastChar =>
        content mb' = (content mb).dropLast ∧ mb'.offset = if mb.size = 1 then 0 else mb.offset
    | .shrinkToToken token =>
        CutAtToken (content mb) (content mb') mb.offset token ∧ mb'.offset = mb.offset

/-- The buffer can grow by `n` bytes. -/
def Room (mb : MemBuffer) (n : Nat) : Prop := mb.size + mb.capacity + mb.growRate + n < 2 ^ 64

instance (mb : MemBuffer) (n : Nat) : Decidable (Room mb n) := inferInstanceAs (Decidable (_ < _))

def Op.Fits (mb : MemBuffer) : Op → Prop
  | .add newData => Room mb (newData.length + 1)
  | .offsetWrite offset data =>
      Room mb (offset + data.length + 1) ∧
        (mb.offset = 0 ∨ mb.offset + offset + data.length ≤ mb.size)
  | .overwrite newDataOffset newData =>
      Room mb (newDataOffset + newData.length + 1) ∧
        (mb.size = 0 ∨ newDataOffset + newData.length = 0)
  | .shrink => Room mb 2
  | .shrinkToToken token =>
      if mb.size ≤ mb.offset then int32 (uint64Sub mb.size mb.offset) ≤ 0
      else
        mb.size - mb.offset < 2 ^ 31 ∧ mb.data[mb.size]? ≠ some token ∧
          (token ∈ (content mb).drop (mb.offset + 1) ∨ mb.data[mb.offset]? ≠ some token ∨
            mb.size = mb.offset + 1)
  | .offsetSet _ | .offsetIncrement _ | .clean | .removeLastChar => True

instance (mb : MemBuffer) (o : Op) : Decidable (o.Fits mb) := by
  cases o <;> unfold Op.Fits <;> infer_instance

section Writes

variable {mb : MemBuffer} {Q : PUnit → MemBuffer → Prop} {E : Fault → MemBuffer → Prop}

theorem ends_copyIn {pos : Nat} {bs : List UInt8} (h : pos + bs.length ≤ mb.data.length) :
    Ends (copyIn pos bs) mb Q E ↔ Q ⟨⟩ { mb with data := splice mb.data pos bs } := by
  unfold copyIn
  rw [ends_bind, ends_get]
  by_cases hbs : bs = []
  · simp only [hbs, if_true, ends_pure, splice_nil]
  · simp only [hbs, if_false, ends_bind, ends_assertThat, ends_set, h, decide_true, true_implies,
      Bool.true_eq_false, false_implies, and_true]

theorem ends_checkForGrow {n : Nat} (h : Room mb n) :
    Ends (checkForGrow n) mb Q E ↔ Q ⟨⟩ (mb.checkForGrow n) := by
  unfold Room at h
  have hneed : uint64 (mb.growRate + n) = mb.growRate + n := uint64_of_lt (by omega)
  have hsize : uint64 (mb.size + n) = mb.size + n := uint64_of_lt (by omega)
  have hcap : uint64 (mb.capacity + (mb.growRate + n)) = mb.capacity + (mb.growRate + n) :=
    uint64_of_lt (by omega)
  unfold checkForGrow MemBuffer.checkForGrow
  rw [ends_bind, ends_get]
  simp only [hneed, hsize, hcap]
  split
  · rw [ends_set]
  · split
    · simp only [ends_bind, ends_assertThat, ends_set, decide_true, true_implies,
        Bool.true_eq_false, false_implies, and_true]
    · rw [ends_pure]

theorem length_content (h : mb.WF) : (content mb).length = mb.size := by
  rw [content, length_take, Nat.min_eq_left (h.used.trans h.allocated)]

theorem content_checkForGrow (h : mb.WF) (n : Nat) : content (mb.checkForGrow n) = content mb := by
  rw [content, MemBuffer.checkForGrow_size, MemBuffer.take_checkForGrow h]
  rfl

theorem writtenAt_splice {data bs : List UInt8} {size pos : Nat} (hsize : size ≤ data.length)
    (hfits : pos + bs.length ≤ data.length) :
    WrittenAt (data.take size) ((splice data pos bs).take (max size (pos + bs.length))) pos bs where
  length := by
    rw [length_take, length_splice hfits, length_take]
    omega
  inside i hi := by
    rw [getElem?_take_of_lt (by omega), splice_inside hfits hi]
  outside i hi h := by
    rw [length_take] at hi
    rw [getElem?_take_of_lt (by omega), getElem?_take_of_lt (by omega)]
    rcases h with h | h
    · exact splice_below hfits h
    · exact splice_above hfits h

end Writes

section Steps

variable {mb : MemBuffer}

/-- What the steps below show of the buffer they leave. -/
def Leaves (P : List UInt8 → Prop) (offset : Nat) (mb' : MemBuffer) : Prop :=
  mb'.WF ∧ P (content mb') ∧ mb'.offset = offset

theorem ends_add (h : mb.WF) {d : List UInt8} (hroom : Room mb (d.length + 1))
    {Q : PUnit → MemBuffer → Prop} {E : Fault → MemBuffer → Prop} :
    Ends (add d) mb Q E ↔ Q ⟨⟩ (mb.add d) := by
  have hsum : mb.size + mb.capacity + mb.growRate + (d.length + 1) < 2 ^ 64 := hroom
  have hlen := MemBuffer.add_fits h (d.length + 1)
  have hsize : (mb.checkForGrow (d.length + 1)).size = mb.size := MemBuffer.checkForGrow_size _
  unfold add
  rw [uint64_of_lt (by omega : d.length + 1 < 2 ^ 64), ends_bind, ends_checkForGrow hroom, ends_bind,
    ends_get, ends_bind, ends_copyIn (by omega), ends_modify]
  simp only [hsize, uint64_of_lt (by omega : mb.size + d.length < 2 ^ 64)]
  simp only [MemBuffer.add, hsize]

theorem add_ends (h : mb.WF) {d : List UInt8} (hroom : Room mb (d.length + 1)) :
    Ends (add d) mb
      (fun _ mb' => Leaves (· = content mb ++ d) mb.offset mb' ∧ mb'.size = mb.size + d.length ∧
        mb'.size + 1 ≤ mb'.data.length)
      fun _ _ => False := by
  have hlen := MemBuffer.add_fits h (d.length + 1)
  have hsize : (mb.checkForGrow (d.length + 1)).size = mb.size := MemBuffer.checkForGrow_size _
  rw [ends_add h hroom]
  refine ⟨⟨h.add d, MemBuffer.take_add h d, ?_⟩, ?_, ?_⟩
  · exact MemBuffer.checkForGrow_offset _
  · simp only [MemBuffer.add, hsize]
  · simp only [MemBuffer.add, hsize]
    rw [length_splice (by omega)]
    omega

theorem write_ends (h : mb.WF) (n pos size : Nat) (bs : List UInt8)
    (hfits : pos + bs.length ≤ mb.size ∨ pos + bs.length + 1 ≤ n)
    (hsize : size = max mb.size (pos + bs.length)) :
    pos + bs.length ≤ (mb.checkForGrow n).data.length ∧
      Leaves (WrittenAt (content mb) · pos bs) mb.offset
        { mb.checkForGrow n with data := splice (mb.checkForGrow n).data pos bs, size := size } := by
  have hgrow := h.checkForGrow n
  have hcap : n ≤ (mb.checkForGrow n).capacity := MemBuffer.checkForGrow_capacity n
  have hsame := content_checkForGrow h n
  have hused := hgrow.used
  have hallocated := hgrow.allocated
  have hold : (mb.checkForGrow n).size = mb.size := MemBuffer.checkForGrow_size _
  have hoffset : (mb.checkForGrow n).offset = mb.offset := MemBuffer.checkForGrow_offset _
  generalize mb.checkForGrow n = grown at *
  rw [hold] at hused
  have hin : pos + bs.length ≤ grown.data.length := by omega
  refine ⟨hin, ⟨?_, ?_⟩, ?_, hoffset⟩
  · simp only [length_splice hin]
    exact hallocated
  · simp only
    omega
  · rw [← hsame, hsize]
    simp only [content, hold]
    exact writtenAt_splice (by omega) hin

theorem offsetWrite_ends (h : mb.WF) {off : Nat} {d : List UInt8}
    (hroom : Room mb (off + d.length + 1))
    (hbase : mb.offset = 0 ∨ mb.offset + off + d.length ≤ mb.size) :
    Ends (offsetWrite off d) mb
      (fun _ => Leaves (WrittenAt (content mb) · (mb.offset + off) d) mb.offset)
      fun _ _ => False := by
  have hsum : mb.size + mb.capacity + mb.growRate + (off + d.length + 1) < 2 ^ 64 := hroom
  have hcap : off + d.length + 1 ≤ (mb.checkForGrow (off + d.length + 1)).capacity :=
    MemBuffer.checkForGrow_capacity _
  have hsize : (mb.checkForGrow (off + d.length + 1)).size = mb.size := MemBuffer.checkForGrow_size _
  obtain ⟨hin, hleaves⟩ := write_ends h (off + d.length + 1) (mb.offset + off)
    (if off + d.length < mb.size then mb.size else off + d.length) d (by omega)
    (by split <;> omega)
  unfold offsetWrite
  simp only [uint64_of_lt (by omega : off + d.length < 2 ^ 64),
    uint64_of_lt (by omega : off + d.length + 1 < 2 ^ 64)]
  rw [ends_bind, ends_checkForGrow hroom, ends_bind, ends_get, ends_bind, ends_assertThat]
  refine ⟨fun _ => ?_, fun hnull => ?_⟩
  · rw [MemBuffer.checkForGrow_offset, uint64_of_lt (by omega : mb.offset + off < 2 ^ 64), ends_bind,
      ends_copyIn hin, ends_modify]
    simpa only [hsize] using hleaves
  · rw [decide_eq_false_iff_not] at hnull
    exact hnull (.inl (by omega))

theorem overwrite_ends (h : mb.WF) {off : Nat} {d : List UInt8}
    (hroom : Room mb (off + d.length + 1)) (hempty : mb.size = 0 ∨ off + d.length = 0) :
    Ends (overwrite off d) mb (fun _ => Leaves (WrittenAt (content mb) · off d) mb.offset)
      fun _ _ => False := by
  have hsum : mb.size + mb.capacity + mb.growRate + (off + d.length + 1) < 2 ^ 64 := hroom
  have hsize : (mb.checkForGrow (off + d.length + 1)).size = mb.size := MemBuffer.checkForGrow_size _
  obtain ⟨hin, hleaves⟩ := write_ends h (off + d.length + 1) off
    (mb.size + (off + d.length)) d (by omega) (by omega)
  unfold overwrite
  simp only [uint64_of_lt (by omega : off + d.length < 2 ^ 64),
    uint64_of_lt (by omega : off + d.length + 1 < 2 ^ 64)]
  rw [ends_bind, ends_checkForGrow hroom, ends_bind, ends_copyIn hin, ends_modify]
  simpa only [hsize, uint64_of_lt (by omega : mb.size + (off + d.length) < 2 ^ 64)] using hleaves

theorem clean_ends (h : mb.WF) :
    Ends clean mb (fun _ => Leaves (· = []) 0) fun _ _ => False := by
  have hfits : 0 + (List.replicate mb.size (0 : UInt8)).length ≤ mb.data.length := by
    rw [length_replicate]
    exact (Nat.zero_add _).le.trans (h.used.trans h.allocated)
  unfold clean
  rw [ends_bind, ends_get, ends_bind, ends_copyIn hfits, ends_modify]
  refine ⟨⟨?_, Nat.zero_le _⟩, rfl, rfl⟩
  simp only [length_splice hfits]
  exact h.allocated

theorem leaves_cut (h : mb.WF) {n : Nat} {data : List UInt8} (hn : n ≤ mb.size)
    (hlen : mb.data.length = data.length) (hdata : data.take n = mb.data.take n) :
    Leaves (· = (content mb).take n) mb.offset { mb with data := data, size := n } := by
  refine ⟨⟨hlen ▸ h.allocated, hn.trans h.used⟩, ?_, rfl⟩
  simp only [content, take_take, Nat.min_eq_left hn, hdata]

theorem shrink_ends (h : mb.WF) (hroom : Room mb 2) :
    Ends shrink mb (fun _ => Leaves (· = content mb) mb.offset) fun _ _ => False := by
  have hsum : mb.size + mb.capacity + mb.growRate + 2 < 2 ^ 64 := hroom
  have hterminator : Room mb (([0] : List UInt8).length + 1) := by
    rw [length_singleton]
    exact hroom
  have hends := @add_ends mb h [0] hterminator
  unfold shrink putNULLTerminator
  rw [ends_bind, ends_bind]
  refine hends.imp fun _ mb₁ hadd => ?_
  have hwf : mb₁.WF := hadd.1.1
  have hcontent : content mb₁ = content mb ++ [0] := hadd.1.2.1
  have hoffset : mb₁.offset = mb.offset := hadd.1.2.2
  have hsize : mb₁.size = mb.size + 1 := hadd.2.1
  have hterm : uint64Sub mb₁.size 1 = mb.size := by
    rw [uint64Sub_of_le (by omega) (by omega), hsize, Nat.add_sub_cancel]
  rw [ends_modify, ends_bind, ends_get]
  simp only [hterm]
  have hkept : mb₁.data.take mb.size = content mb := by
    have htake : mb₁.data.take mb₁.size = content mb ++ [0] := hcontent
    calc mb₁.data.take mb.size = (mb₁.data.take mb₁.size).take mb.size := by
          rw [take_take, Nat.min_eq_left (by omega)]
      _ = content mb := by rw [htake, ← length_content h, take_left]
  have hused := hwf.used
  split
  · rw [ends_pure]
    exact ⟨⟨hwf.allocated, by simp only; omega⟩, hkept, hoffset⟩
  · rw [ends_set]
    refine ⟨⟨?_, Nat.le_refl _⟩, ?_, hoffset⟩
    · simp only [length_take]
      omega
    · simpa only [content, take_take, Nat.min_eq_left (Nat.le_succ _)] using hkept

theorem removeLastChar_ends (h : mb.WF) :
    Ends removeLastChar mb
      (fun _ => Leaves (· = (content mb).dropLast) (if mb.size = 1 then 0 else mb.offset))
      fun _ _ => False := by
  have hlen := length_content h
  have hin := h.used.trans h.allocated
  unfold removeLastChar
  rw [ends_bind, ends_get]
  split
  · rename_i hzero
    rw [ends_pure, if_neg (by omega)]
    refine ⟨h, ?_, rfl⟩
    rw [eq_nil_of_length_eq_zero (hlen.trans hzero)]
    rfl
  · split
    · rename_i hone
      refine (clean_ends h).imp fun _ mb' hclean => ?_
      refine ⟨hclean.1, ?_, hclean.2.2⟩
      obtain ⟨c, hc⟩ := length_eq_one_iff.mp (hlen.trans hone)
      rw [hclean.2.1, hc]
      rfl
    · have hfits : mb.size - 1 + [(0 : UInt8)].length ≤ mb.data.length := by
        simp only [length_singleton]
        omega
      rw [ends_bind, ends_copyIn hfits, ends_modify, dropLast_eq_take, hlen]
      refine leaves_cut h (by omega) (length_splice hfits).symm (ext_getElem? fun i => ?_)
      by_cases hi : i < mb.size - 1
      · rw [getElem?_take_of_lt hi, getElem?_take_of_lt hi, splice_below hfits hi]
      · rw [getElem?_take_eq_none (by omega), getElem?_take_eq_none (by omega)]

section Token

variable {data : List UInt8} {base n : Nat} {token : UInt8} {j : Int}

theorem findToken_none (h : findToken data base token n j = none) :
    ∀ p, 0 < p → p ≤ n → data[base + p]? ≠ some token := by
  induction n generalizing j with
  | zero => exact fun p hpos hle => absurd hpos (by omega)
  | succ n ih =>
      unfold findToken at h
      split at h
      · cases h
      · rename_i hne
        intro p hpos hle
        rcases Nat.lt_or_eq_of_le hle with hlt | rfl
        · exact ih h p hpos (by omega)
        · exact hne

theorem findToken_some {r : Int} (h : findToken data base token n j = some r) :
    ∃ p, 0 < p ∧ p ≤ n ∧ data[base + p]? = some token ∧
      (∀ q, p < q → q ≤ n → data[base + q]? ≠ some token) ∧ r = j + (n - p) - 1 := by
  induction n generalizing j with
  | zero => cases h
  | succ n ih =>
      unfold findToken at h
      split at h
      · rename_i heq
        refine ⟨n + 1, by omega, le_rfl, heq, fun q hlt hle => absurd hlt (by omega), ?_⟩
        cases h
        omega
      · rename_i hne
        obtain ⟨p, hpos, hle, heq, hlast, hr⟩ := ih h
        refine ⟨p, hpos, by omega, heq, fun q hlt hle => ?_, by omega⟩
        rcases Nat.lt_or_eq_of_le hle with hlt' | rfl
        · exact hlast q hlt (by omega)
        · exact hne

variable {mb : MemBuffer}

theorem mem_drop_content {k : Nat} :
    token ∈ (content mb).drop k ↔ ∃ i, k ≤ i ∧ i < mb.size ∧ mb.data[i]? = some token := by
  rw [mem_iff_getElem?]
  constructor
  · rintro ⟨i, hi⟩
    rw [getElem?_drop, content, getElem?_take] at hi
    split at hi
    · exact ⟨k + i, by omega, by assumption, hi⟩
    · cases hi
  · rintro ⟨i, hk, hi, heq⟩
    refine ⟨i - k, ?_⟩
    rw [getElem?_drop, Nat.add_sub_cancel' hk, content, getElem?_take_of_lt hi, heq]

theorem shrinkToToken_ends (h : mb.WF) (hsize : mb.size < 2 ^ 64)
    (hfits : (Op.shrinkToToken token).Fits mb) :
    Ends (shrinkToToken token) mb
      (fun _ => Leaves (CutAtToken (content mb) · mb.offset token) mb.offset)
      fun _ _ => False := by
  have hlen := length_content h
  unfold shrinkToToken
  rw [ends_bind, ends_get]
  simp only [Op.Fits] at hfits
  split at hfits
  · -- nothing is visible, and the loop does not run
    rename_i hle
    have hnil : (content mb).drop mb.offset = [] := drop_eq_nil_iff.mpr (hlen.le.trans hle)
    have hzero : (int32 (uint64Sub mb.size mb.offset)).toNat = 0 := by omega
    simp only [hzero, findToken, ends_pure]
    exact ⟨h, .inl ⟨by rw [hnil]; exact not_mem_nil, rfl⟩, rfl⟩
  · rename_i hlt
    obtain ⟨hint, hend, hfirst⟩ := hfits
    have hn : (int32 (uint64Sub mb.size mb.offset)).toNat = mb.size - mb.offset := by
      rw [uint64Sub_of_le (by omega) hsize, int32_of_lt (by omega) (by omega), Int.toNat_natCast]
    simp only [hn]
    have hlast : mb.data[mb.offset + (mb.size - mb.offset)]? ≠ some token := by
      rwa [Nat.add_sub_cancel' (by omega)]
    cases hfind : findToken mb.data mb.offset token (mb.size - mb.offset) 0 with
    | none =>
        have hnone := findToken_none hfind
        have hnot : ¬∃ i, mb.offset + 1 ≤ i ∧ i < mb.size ∧ mb.data[i]? = some token := by
          rintro ⟨i, hi, hisize, heq⟩
          refine hnone (i - mb.offset) (by omega) (by omega) ?_
          rwa [Nat.add_sub_cancel' (by omega)]
        simp only [ends_pure]
        refine ⟨h, ?_, rfl⟩
        by_cases hat : mb.data[mb.offset]? = some token
        · -- the token is the one visible byte
          have hone : mb.size = mb.offset + 1 :=
            (hfirst.resolve_left fun hmem => hnot (mem_drop_content.mp hmem)).resolve_left
              fun hne => hne hat
          refine .inr ⟨mb.size, by omega, by omega, ?_, ?_, ?_⟩
          · rw [content, getElem?_take_of_lt (by omega), hone]
            exact hat
          · rw [drop_eq_nil_iff.mpr hlen.le]
            exact not_mem_nil
          · rw [take_of_length_le hlen.le]
        · refine .inl ⟨fun hmem => ?_, rfl⟩
          obtain ⟨i, hi, hisize, heq⟩ := mem_drop_content.mp hmem
          rcases Nat.lt_or_eq_of_le hi with hi | rfl
          · exact hnot ⟨i, hi, hisize, heq⟩
          · exact hat heq
    | some r =>
        obtain ⟨p, hpos, hle, heq, hnext, hr⟩ := findToken_some hfind
        have hp : p < mb.size - mb.offset := by
          rcases Nat.lt_or_eq_of_le hle with hlt | rfl
          · exact hlt
          · exact absurd heq hlast
        have hnew : (((mb.size : Int) - r) % 2 ^ 64).toNat = mb.offset + p + 1 := by
          rw [Int.emod_eq_of_lt (by omega) (by omega)]
          omega
        simp only [ends_set, hnew]
        obtain ⟨hwf, hcut, hoffset⟩ :=
          @leaves_cut mb h (mb.offset + p + 1) mb.data (by omega) rfl rfl
        refine ⟨hwf, .inr ⟨mb.offset + p + 1, by omega, by omega, ?_, fun hmem => ?_, hcut⟩, rfl⟩
        · rw [Nat.add_sub_cancel, content, getElem?_take_of_lt (by omega)]
          exact heq
        · obtain ⟨i, hi, hisize, hat⟩ := mem_drop_content.mp hmem
          refine hnext (i - mb.offset) (by omega) (by omega) ?_
          rwa [Nat.add_sub_cancel' (by omega)]

end Token

theorem handle_ends {o : Op} (h : mb.WF) (hsize : mb.size < 2 ^ 64) (hfits : o.Fits mb) :
    Ends (handle o) mb (fun _ mb' => (mb'.WF ∧ mb'.size < 2 ^ 64) ∧ o.Keeps mb mb')
      fun _ _ => False := by
  have hlen := length_content h
  -- the size is the length of the content, which says how far it grew
  have hkeeps : ∀ {P : List UInt8 → Prop} {offset : Nat} {mb' : MemBuffer},
      Leaves P offset mb' → (P (content mb') → (content mb').length < 2 ^ 64) →
        (mb'.WF ∧ mb'.size < 2 ^ 64) ∧ mb'.size ≤ mb'.capacity ∧ mb'.capacity ≤ mb'.data.length ∧
          P (content mb') ∧ mb'.offset = offset := fun hl hbound =>
    ⟨⟨hl.1, length_content hl.1 ▸ hbound hl.2.1⟩, hl.1.used, hl.1.allocated, hl.2⟩
  cases o with
  | add d =>
      have hsum : mb.size + mb.capacity + mb.growRate + (d.length + 1) < 2 ^ 64 := hfits
      refine (add_ends h hfits).imp fun _ mb' hadd => hkeeps hadd.1 fun heq => ?_
      rw [heq, length_append]
      omega
  | offsetWrite off d =>
      obtain ⟨hroom, hbase⟩ := hfits
      have hsum : mb.size + mb.capacity + mb.growRate + (off + d.length + 1) < 2 ^ 64 := hroom
      refine (offsetWrite_ends h hroom hbase).imp fun _ mb' hl => hkeeps hl fun hw => ?_
      rw [hw.length]
      omega
  | overwrite off d =>
      obtain ⟨hroom, hempty⟩ := hfits
      have hsum : mb.size + mb.capacity + mb.growRate + (off + d.length + 1) < 2 ^ 64 := hroom
      refine (overwrite_ends h hroom hempty).imp fun _ mb' hl => hkeeps hl fun hw => ?_
      rw [hw.length]
      omega
  | offsetSet off => exact ⟨⟨⟨h.allocated, h.used⟩, hsize⟩, h.used, h.allocated, rfl, rfl⟩
  | offsetIncrement off => exact ⟨⟨⟨h.allocated, h.used⟩, hsize⟩, h.used, h.allocated, rfl, rfl⟩
  | clean =>
      refine (clean_ends h).imp fun _ mb' hl => hkeeps hl fun heq => ?_
      rw [heq]
      exact Nat.two_pow_pos 64
  | shrink =>
      refine (shrink_ends h hfits).imp fun _ mb' hl => hkeeps hl fun heq => ?_
      rwa [heq, hlen]
  | removeLastChar =>
      refine (removeLastChar_ends h).imp fun _ mb' hl => hkeeps hl fun heq => ?_
      rw [heq, length_dropLast]
      omega
  | shrinkToToken token =>
      refine (shrinkToToken_ends h hsize hfits).imp fun _ mb' hl => hkeeps hl fun hcut => ?_
      rcases hcut with ⟨-, heq⟩ | ⟨k, -, hk, -, -, heq⟩
      · rwa [heq, hlen]
      · rw [heq, length_take]
        omega

end Steps

/-- **Every call of a run whose calls fit does to the content what the array of
bytes says, inside the allocation.** -/
theorem content_run (growRate : Nat) (ops : List Op)
    (hfits : Runs.Meets handle (fun mb o => o.Fits mb) (.live (.new growRate)) ops) :
    Runs.Does handle Op.Keeps ops (.new growRate) :=
  Runs.does_of_meets (I := fun mb => mb.WF ∧ mb.size < 2 ^ 64)
    (R := fun mb o mb' => Op.Keeps mb o mb') (fun _ _ h ho => handle_ends h.1 h.2 ho)
    ⟨MemBuffer.wf_new growRate, Nat.two_pow_pos 64⟩ ops hfits

/-- Each call once, the writes both inside and over the end of what is there. -/
theorem content_run_each :
    Runs.Does handle Op.Keeps [.overwrite 1 [7, 8], .add [9, 10], .offsetWrite 3 [11, 12],
      .offsetSet 1, .offsetWrite 0 [13], .shrinkToToken 11, .offsetIncrement 2, .shrink,
      .removeLastChar, .clean, .overwrite 0 []] (.new 4) :=
  content_run 4 _ (by decide +kernel)

/-- Three bytes of which the first is overwritten have size four. -/
theorem overwrite_adds_up :
    ¬ Runs.Does handle Op.Keeps [.add [1, 2, 3], .overwrite 0 [9]] (.new 4) := by
  rintro ⟨-, ⟨-, -, hwritten, -⟩, -⟩
  exact absurd hwritten.length (by decide)

end MemBufferContent

end BrbData
