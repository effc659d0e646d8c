import BrbFramework.Crypto.Md5
import BrbFramework.Data.MemBuffer
import BrbFramework.Lib.Handler

/-!
# Packed metadata

`MetaDataPack` writes a header of 64 bytes and behind it, for each item, its
ids and its size, its content and a separator. `MetaDataUnpack` walks such a
buffer, which may come from anywhere. It compares what is left of the buffer
with the size of a `MetaDataItem`, a pointer longer than the three integers
that are in the buffer, and with the size field plus one, which wraps.

What the unpacker reads is read by `Unpacker.readBytes`, which stops the model when
a byte is outside the buffer.
-/

namespace BrbData

open Handler Machine

/-- An item that its owner added: the `sz` bytes at its `ptr` are its content. -/
structure MetaDataItem where
  itemId : UInt64
  itemSubId : UInt64
  content : List UInt8
  deriving DecidableEq, Repr

/-- An item that `MetaDataUnpack` added: `ptr` is an offset in the buffer. -/
structure MetaDataItem.Found where
  itemId : UInt64
  itemSubId : UInt64
  ptr : Nat
  sz : Nat
  deriving DecidableEq, Repr

namespace MetaData

/-- `METADATA_MAGIC_HEADER`, "BRB_META". -/
def magicHeader : List UInt8 := [0x42, 0x52, 0x42, 0x5F, 0x4D, 0x45, 0x54, 0x41]

/-- `METADATA_UNIT_SEPARATOR`. -/
def unitSeparator : UInt8 := 0x1F

/-- `METADATA_ITEM_RAW_SZ`. -/
def itemRawSz : Nat := 24

/-- `sizeof(MetaDataItem)`. -/
def sizeofItem : Nat := 32

/-- `sizeof(MetaDataHeader)`. -/
def sizeofHeader : Nat := 64

/-! ## Packing -/

/-- `MetaDataHeader`, without the reserved bytes, which are zero. -/
structure Header where
  version : Int := 0
  itemCount : Int
  size : Nat
  str : List UInt8 := magicHeader
  digest : Vector UInt8 16

def Header.bytes (h : Header) : List UInt8 :=
  LittleEndian.ofInt 4 h.version ++ LittleEndian.ofInt 4 h.itemCount ++
    LittleEndian.ofNat 8 h.size ++ h.str ++ h.digest.toList ++ List.replicate 24 0

/-- The digest of the contents, one after another. -/
def digest (contents : List (List UInt8)) : Vector UInt8 16 :=
  Md5.final (contents.foldl Md5.updateBig {})

/-- `MetaDataHeaderLoadData`. -/
def headerLoadData (items : List MetaDataItem) : Header where
  itemCount := items.length
  size := (items.map fun item => item.content.length + itemRawSz + 1).sum
  digest := digest (items.map (·.content))

/-- One turn of the loop of `MetaDataPack`. -/
def packItem (mb : MemBuffer) (item : MetaDataItem) : MemBuffer :=
  ((((mb.add (LittleEndian.ofNat 8 item.itemId.toNat)).add
    (LittleEndian.ofNat 8 item.itemSubId.toNat)).add
    (LittleEndian.ofNat 8 item.content.length)).add item.content).add [unitSeparator]

/-- `MetaDataPack`. -/
def pack (items : List MetaDataItem) (mb : MemBuffer) : MemBuffer :=
  items.foldl packItem (mb.add (headerLoadData items).bytes)

/-! ## Unpacking -/

/-- `MetaDataUnpackReturnCode`. -/
inductive ReturnCode
  | failedInvalidHeaderMagic
  | failedUninitialized
  | failedNoRawdata
  | failedCorruptedCanary
  | failedDigestInvalid
  | failedNeedMoreDataMetaitem
  | failedNeedMoreDataObject
  | success
  | lastitem
  deriving DecidableEq, Repr

inductive Fault
  | outside
  deriving DecidableEq, Repr

/-- What `MetaDataUnpack` works on: the bytes of the buffer and its offset, the items of the
target, the digest so far, and the numbers for its caller. -/
structure Unpacker where
  raw : List UInt8
  offset : Nat
  items : List MetaDataItem.Found := []
  md5 : Md5.Ctx := {}
  curOffset : Nat
  curRemaining : Nat := 0
  curNeeded : Nat := 0
  curItemCount : Nat := 0

abbrev M := EStateM Fault Unpacker

namespace Unpacker

/-- The `len` bytes behind the pointer to the offset `ptr`. -/
def readBytes (ptr len : Nat) : M (List UInt8) := do
  let s ← get
  assertThat (ptr + len ≤ s.raw.length) .outside
  return (s.raw.drop ptr).take len

/-- An `unsigned long`. -/
def readLong (ptr : Nat) : M Nat := do
  return LittleEndian.toNat (← readBytes ptr 8)

/-- `MemBufferOffsetIncrement`, and the same for `cur_offset`. -/
def increment (n : Nat) : M PUnit :=
  modify fun s => { s with offset := uint64 (s.offset + n), curOffset := uint64 (s.curOffset + n) }

/-- `MetaDataItemAdd`. -/
def itemAdd (itemId itemSubId ptr sz : Nat) : M PUnit :=
  modify fun s => { s with
    items := s.items ++ [⟨UInt64.ofNat itemId, UInt64.ofNat itemSubId, ptr, sz⟩] }

end Unpacker

open Unpacker

/-- The loop of `MetaDataUnpack` with `n` turns left: the error that ends it, or `none`. -/
def unpackItems : Nat → M (Option ReturnCode)
  | 0 => pure none
  | n + 1 => do
    let s ← get
    let metaItem := s.offset
    let curRemaining := uint64Sub s.raw.length s.offset
    modify fun s => { s with curRemaining := curRemaining }
    if curRemaining < sizeofItem then
      modify fun s => { s with curNeeded := sizeofItem - curRemaining }
      return some .failedNeedMoreDataMetaitem
    increment itemRawSz
    let curRemaining := curRemaining - itemRawSz
    modify fun s => { s with curRemaining := curRemaining }
    let sz ← readLong (metaItem + 16)
    if curRemaining < uint64 (sz + 1) then
      modify fun s => { s with curNeeded := uint64 (sz + 1) - curRemaining }
      return some .failedNeedMoreDataObject
    let rawDataPtr := (← get).offset
    itemAdd (← readLong metaItem) (← readLong (metaItem + 8)) rawDataPtr sz
    let content ← readBytes rawDataPtr sz
    modify fun s => { s with md5 := Md5.updateBig s.md5 content }
    increment sz
    modify fun s => { s with curRemaining := uint64Sub curRemaining sz }
    let canary ← readBytes (← get).offset 1
    if canary ≠ [unitSeparator] then
      return some .failedCorruptedCanary
    increment 1
    modify fun s => { s with
      curRemaining := uint64Sub s.curRemaining 1, curItemCount := s.curItemCount + 1 }
    -- "Finished buffer, STOP"
    let s ← get
    if s.offset = s.raw.length then
      return none
    unpackItems n

/-- "Finalize MD5 DIGEST" and compare it with that of the header. -/
def digestCheck (metaDataHdr : Nat) : M ReturnCode := do
  let digest ← readBytes (metaDataHdr + 24) 16
  if (Md5.final (← get).md5).toList ≠ digest then
    return .failedDigestInvalid
  return .success

/-- `MetaDataUnpack` up to the place where the offset is put back. -/
def unpackRaw : M ReturnCode := do
  let metaDataHdr := (← get).offset
  if (← readBytes (metaDataHdr + 16) 8) ≠ magicHeader then
    modify fun s => { s with offset := uint64Sub s.offset 64 }
    return .failedInvalidHeaderMagic
  increment sizeofHeader
  let itemCount := LittleEndian.toInt (← readBytes (metaDataHdr + 4) 4)
  match ← unpackItems itemCount.toNat with
  | some errorCode => return errorCode
  | none => digestCheck metaDataHdr

/-- `MetaDataUnpack`. -/
def unpack : M ReturnCode := do
  let oldMbOffset := (← get).offset
  let code ← unpackRaw
  modify fun s => { s with offset := oldMbOffset }
  return code

/-- `MetaDataUnpack` begins on a buffer and a new `MetaData`. -/
def start (mb : MemBuffer) : Unpacker where
  raw := mb.data.take mb.size
  offset := mb.offset
  curOffset := mb.offset

/-! ## Items that lie one behind another -/

section Format

variable (raw : List UInt8)

def longAt (pos : Nat) : Nat := LittleEndian.toNat ((raw.drop pos).take 8)

/-- The item whose first byte is at `pos`. -/
def itemAt (pos : Nat) : MetaDataItem.Found where
  itemId := UInt64.ofNat (longAt raw pos)
  itemSubId := UInt64.ofNat (longAt raw (pos + 8))
  ptr := pos + itemRawSz
  sz := longAt raw (pos + 16)

/-- Where the item at `pos` ends. -/
def next (pos : Nat) : Nat := pos + itemRawSz + longAt raw (pos + 16) + 1

def load (item : MetaDataItem.Found) : List UInt8 := (raw.drop item.ptr).take item.sz

/-- The unpacker accepts the item at `pos`: 32 bytes are left there, the item is in the
buffer and ends with its separator. -/
structure Whole (pos : Nat) : Prop where
  head : pos + sizeofItem ≤ raw.length
  inside : next raw pos ≤ raw.length
  canary : (raw.drop (pos + itemRawSz + longAt raw (pos + 16))).take 1 = [unitSeparator]

/-- Where `k` items from `pos` on end. -/
def after (pos : Nat) : Nat → Nat
  | 0 => pos
  | k + 1 => after (next raw pos) k

/-- The `k` items from `pos` on. -/
def itemsFrom (pos : Nat) : Nat → List MetaDataItem.Found
  | 0 => []
  | k + 1 => itemAt raw pos :: itemsFrom (next raw pos) k

/-- The unpacker accepts the `k` items from `pos` on. -/
def AllWhole (pos : Nat) : Nat → Prop
  | 0 => True
  | k + 1 => Whole raw pos ∧ AllWhole (next raw pos) k

end Format

@[simp] theorem length_itemsFrom (raw : List UInt8) (pos k : Nat) :
    (itemsFrom raw pos k).length = k := by
  induction k generalizing pos with
  | zero => rfl
  | succ k ih => simp [itemsFrom, ih]

theorem itemsFrom_succ (raw : List UInt8) (pos k : Nat) :
    itemsFrom raw pos (k + 1) = itemsFrom raw pos k ++ [itemAt raw (after raw pos k)] := by
  induction k generalizing pos with
  | zero => rfl
  | succ k ih => rw [itemsFrom, ih, itemsFrom, after, List.cons_append]

theorem allWhole_succ {raw : List UInt8} {pos k : Nat} (h : AllWhole raw pos (k + 1)) :
    AllWhole raw pos k ∧ Whole raw (after raw pos k) := by
  induction k generalizing pos with
  | zero => exact ⟨trivial, h.1⟩
  | succ k ih =>
      obtain ⟨hrest, hlast⟩ := ih h.2
      exact ⟨⟨h.1, hrest⟩, hlast⟩

/-! ## One turn of the loop -/

section Turn

variable {s : Unpacker} {Q : Option ReturnCode → Unpacker → Prop} {E : Fault → Unpacker → Prop}

theorem ends_readBytes {ptr len : Nat} {R : List UInt8 → Unpacker → Prop} :
    Ends (readBytes ptr len) s R E ↔
      (ptr + len ≤ s.raw.length → R ((s.raw.drop ptr).take len) s) ∧
        (s.raw.length < ptr + len → E .outside s) := by
  simp [readBytes]

theorem ends_readBytes_in {ptr len : Nat} {R : List UInt8 → Unpacker → Prop}
    (h : ptr + len ≤ s.raw.length) :
    Ends (readBytes ptr len) s R E ↔ R ((s.raw.drop ptr).take len) s := by
  rw [ends_readBytes]
  exact ⟨fun hends => hends.1 h, fun hread => ⟨fun _ => hread, fun hout => by omega⟩⟩

theorem ends_readLong_in {ptr : Nat} {R : Nat → Unpacker → Prop} (h : ptr + 8 ≤ s.raw.length) :
    Ends (readLong ptr) s R E ↔ R (longAt s.raw ptr) s := by
  rw [readLong, ends_bind, ends_readBytes_in h]
  rfl

theorem longAt_lt (raw : List UInt8) (pos : Nat) : longAt raw pos < 2 ^ 64 := by
  have hlt := LittleEndian.toNat_lt ((raw.drop pos).take 8)
  have hpow : 256 ^ ((raw.drop pos).take 8).length ≤ 256 ^ 8 :=
    Nat.pow_le_pow_right (by decide) (List.length_take_le _ _)
  exact Nat.lt_of_lt_of_le hlt hpow

/-- The state after an item that the unpacker accepts. -/
def Unpacker.took (s : Unpacker) : Unpacker :=
  let sz := longAt s.raw (s.offset + 16)
  { s with
    offset := next s.raw s.offset
    items := s.items ++ [itemAt s.raw s.offset]
    md5 := Md5.updateBig s.md5 (load s.raw (itemAt s.raw s.offset))
    curOffset := uint64 (uint64 (uint64 (s.curOffset + itemRawSz) + sz) + 1)
    curRemaining := s.raw.length - next s.raw s.offset
    curItemCount := s.curItemCount + 1 }

theorem unpackItems_whole (hsmall : s.raw.length < 2 ^ 63) (h : Whole s.raw s.offset) (n : Nat) :
    Ends (unpackItems (n + 1)) s Q E ↔
      if next s.raw s.offset = s.raw.length then Q none s.took
      else Ends (unpackItems n) s.took Q E := by
  obtain ⟨hhead, hinside, hcanary⟩ := h
  obtain ⟨sz, hsz⟩ : ∃ n, longAt s.raw (s.offset + 16) = n := ⟨_, rfl⟩
  have hnext : next s.raw s.offset = s.offset + 24 + sz + 1 := by rw [next, hsz, itemRawSz]
  rw [hnext] at hinside ⊢
  rw [hsz, itemRawSz] at hcanary
  unfold sizeofItem at hhead
  have hsub : uint64Sub s.raw.length s.offset = s.raw.length - s.offset :=
    uint64Sub_of_le (by omega) (by omega)
  have hitem : uint64 (s.offset + 24) = s.offset + 24 := uint64_of_lt (by omega)
  have hobject : uint64 (sz + 1) = sz + 1 := uint64_of_lt (by omega)
  have hdata : uint64 (s.offset + 24 + sz) = s.offset + 24 + sz := uint64_of_lt (by omega)
  have hend : uint64 (s.offset + 24 + sz + 1) = s.offset + 24 + sz + 1 := uint64_of_lt (by omega)
  have hrest : uint64Sub (s.raw.length - s.offset - 24) sz = s.raw.length - s.offset - 24 - sz :=
    uint64Sub_of_le (by omega) (by omega)
  have hrest' : uint64Sub (s.raw.length - s.offset - 24 - sz) 1 =
      s.raw.length - (s.offset + 24 + sz + 1) := by
    rw [uint64Sub_of_le (by omega) (by omega)]
    omega
  simp only [unpackItems, ends_bind, ends_get, ends_modify, increment, itemAdd, hsub, itemRawSz,
    sizeofItem, hitem, if_neg (show ¬ s.raw.length - s.offset < 32 by omega)]
  rw [ends_readLong_in (by dsimp only; omega)]
  simp only [ends_bind, ends_get, hsz, hobject,
    if_neg (show ¬ s.raw.length - s.offset - 24 < sz + 1 by omega)]
  rw [ends_readLong_in (by dsimp only; omega), ends_readLong_in (by dsimp only; omega)]
  simp only [ends_modify]
  rw [ends_readBytes_in (by dsimp only; omega)]
  simp only [hdata, hrest]
  rw [ends_readBytes_in (by dsimp only; omega)]
  simp only [hcanary, ne_eq, not_true_eq_false, if_false, ends_bind, ends_get, ends_modify, hend,
    hrest']
  by_cases hfinished : s.offset + 24 + sz + 1 = s.raw.length
  · simp only [if_pos hfinished, ends_pure, Unpacker.took, itemAt, load, hsz, hnext, itemRawSz]
  · simp only [if_neg hfinished, Unpacker.took, itemAt, load, hsz, hnext, itemRawSz]

theorem unpackItems_short (hle : s.offset ≤ s.raw.length) (hsmall : s.raw.length < 2 ^ 63)
    (hshort : s.raw.length < s.offset + sizeofItem) (n : Nat) :
    Ends (unpackItems (n + 1)) s (fun r _ => r = some .failedNeedMoreDataMetaitem)
      fun _ _ => False := by
  unfold sizeofItem at hshort
  have hsub : uint64Sub s.raw.length s.offset = s.raw.length - s.offset :=
    uint64Sub_of_le hle (by omega)
  simp only [unpackItems, ends_bind, ends_get, ends_modify, hsub, sizeofItem,
    if_pos (show s.raw.length - s.offset < 32 by omega), ends_pure]

theorem unpackItems_wraps (hsmall : s.raw.length < 2 ^ 63)
    (hhead : s.offset + sizeofItem ≤ s.raw.length)
    (hsize : longAt s.raw (s.offset + 16) = 2 ^ 64 - 1) (n : Nat) :
    Ends (unpackItems (n + 1)) s (fun _ _ => False) fun _ _ => True := by
  unfold sizeofItem at hhead
  have hsub : uint64Sub s.raw.length s.offset = s.raw.length - s.offset :=
    uint64Sub_of_le (by omega) (by omega)
  have hitem : uint64 (s.offset + 24) = s.offset + 24 := uint64_of_lt (by omega)
  have hobject : uint64 (2 ^ 64 - 1 + 1) = 0 := by decide
  simp only [unpackItems, ends_bind, ends_get, ends_modify, increment, itemAdd, hsub, itemRawSz,
    sizeofItem, hitem, if_neg (show ¬ s.raw.length - s.offset < 32 by omega)]
  rw [ends_readLong_in (by dsimp only; omega)]
  simp only [ends_bind, ends_get, hsize, hobject,
    if_neg (Nat.not_lt_zero (s.raw.length - s.offset - 24))]
  rw [ends_readLong_in (by dsimp only; omega), ends_readLong_in (by dsimp only; omega)]
  simp only [ends_modify]
  rw [ends_readBytes]
  exact ⟨fun hin => by dsimp only at hin; omega, fun _ => trivial⟩

theorem unpackItems_broken (hsmall : s.raw.length < 2 ^ 63)
    (hhead : s.offset + sizeofItem ≤ s.raw.length)
    (hsize : longAt s.raw (s.offset + 16) ≠ 2 ^ 64 - 1) (h : ¬ Whole s.raw s.offset) (n : Nat) :
    Ends (unpackItems (n + 1)) s (fun r _ => ∃ e, r = some e ∧ e ≠ .success)
      fun _ _ => False := by
  obtain ⟨sz, hsz⟩ : ∃ n, longAt s.raw (s.offset + 16) = n := ⟨_, rfl⟩
  have hlt : sz < 2 ^ 64 := hsz ▸ longAt_lt s.raw _
  rw [hsz] at hsize
  have hnot : s.offset + 24 + sz + 1 ≤ s.raw.length →
      (s.raw.drop (s.offset + 24 + sz)).take 1 ≠ [unitSeparator] := by
    intro hinside hcanary
    refine h ⟨hhead, ?_, ?_⟩
    · rw [next, hsz, itemRawSz]
      exact hinside
    · rw [hsz, itemRawSz]
      exact hcanary
  unfold sizeofItem at hhead
  have hsub : uint64Sub s.raw.length s.offset = s.raw.length - s.offset :=
    uint64Sub_of_le (by omega) (by omega)
  have hitem : uint64 (s.offset + 24) = s.offset + 24 := uint64_of_lt (by omega)
  have hobject : uint64 (sz + 1) = sz + 1 := uint64_of_lt (by omega)
  simp only [unpackItems, ends_bind, ends_get, ends_modify, increment, itemAdd, hsub, itemRawSz,
    sizeofItem, hitem, if_neg (show ¬ s.raw.length - s.offset < 32 by omega)]
  rw [ends_readLong_in (by dsimp only; omega)]
  simp only [hsz, hobject]
  by_cases hroom : s.raw.length - s.offset - 24 < sz + 1
  · rw [if_pos hroom]
    exact ⟨_, rfl, by decide⟩
  · rw [if_neg hroom]
    have hdata : uint64 (s.offset + 24 + sz) = s.offset + 24 + sz := uint64_of_lt (by omega)
    simp only [ends_bind, ends_get, ends_modify]
    rw [ends_readLong_in (by dsimp only; omega), ends_readLong_in (by dsimp only; omega)]
    dsimp only
    rw [ends_readBytes_in (by dsimp only; omega)]
    simp only [hdata]
    rw [ends_readBytes_in (by dsimp only; omega)]
    simp only [if_pos (hnot (by omega)), ends_pure]
    exact ⟨_, rfl, by decide⟩

theorem unpackItems_behind (hlow : s.raw.length < s.offset)
    (hhigh : s.offset ≤ s.raw.length + 40) (n : Nat) :
    Ends (unpackItems (n + 1)) s (fun _ _ => False) fun _ _ => True := by
  have hsub : ¬ uint64Sub s.raw.length s.offset < sizeofItem := by
    unfold uint64Sub sizeofItem
    omega
  simp only [unpackItems, ends_bind, ends_get, ends_modify, increment, itemAdd]
  rw [if_neg hsub]
  simp only [ends_bind, ends_modify]
  rw [readLong, ends_bind, ends_readBytes]
  exact ⟨fun hin => by dsimp only at hin; omega, fun _ => trivial⟩

end Turn

/-! ## The whole loop -/

/-- The state after `k` items that the unpacker accepts. -/
def Unpacker.tookAll : Nat → Unpacker → Unpacker
  | 0, s => s
  | k + 1, s => tookAll k s.took

section Loop

variable {s : Unpacker} {Q : Option ReturnCode → Unpacker → Prop} {E : Fault → Unpacker → Prop}

theorem tookAll_raw (k : Nat) (s : Unpacker) : (s.tookAll k).raw = s.raw := by
  induction k generalizing s with
  | zero => rfl
  | succ k ih => exact ih s.took

theorem tookAll_offset (k : Nat) (s : Unpacker) :
    (s.tookAll k).offset = after s.raw s.offset k := by
  induction k generalizing s with
  | zero => rfl
  | succ k ih => exact ih s.took

theorem tookAll_items (k : Nat) (s : Unpacker) :
    (s.tookAll k).items = s.items ++ itemsFrom s.raw s.offset k := by
  induction k generalizing s with
  | zero => exact (List.append_nil _).symm
  | succ k ih =>
      rw [Unpacker.tookAll, ih]
      exact List.append_assoc _ _ _

theorem tookAll_md5 (k : Nat) (s : Unpacker) :
    (s.tookAll k).md5 = ((itemsFrom s.raw s.offset k).map (load s.raw)).foldl Md5.updateBig s.md5 := by
  induction k generalizing s with
  | zero => rfl
  | succ k ih => exact ih s.took

theorem unpackItems_walk (hsmall : s.raw.length < 2 ^ 63) {k : Nat} (n : Nat)
    (h : AllWhole s.raw s.offset k) :
    Ends (unpackItems (k + n)) s Q E ↔
      if 0 < k ∧ after s.raw s.offset k = s.raw.length then Q none (s.tookAll k)
      else Ends (unpackItems n) (s.tookAll k) Q E := by
  induction k generalizing s with
  | zero => simp [Unpacker.tookAll]
  | succ k ih =>
      obtain ⟨hfirst, hrest⟩ := h
      rw [Nat.add_right_comm, unpackItems_whole hsmall hfirst]
      have hrest : AllWhole s.took.raw s.took.offset k := hrest
      by_cases hend : next s.raw s.offset = s.raw.length
      · obtain rfl : k = 0 := by
          cases k with
          | zero => rfl
          | succ k =>
              have hhead : next s.raw s.offset + sizeofItem ≤ s.raw.length := hrest.1.head
              unfold sizeofItem at hhead
              omega
        simp [hend, after, Unpacker.tookAll]
      · rw [if_neg hend, ih (s := s.took) hsmall hrest]
        have hzero : 0 < k ∧ after s.took.raw s.took.offset k = s.took.raw.length ↔
            0 < k + 1 ∧ after s.raw s.offset (k + 1) = s.raw.length := by
          refine ⟨fun hk => ⟨Nat.succ_pos k, hk.2⟩, fun hk => ⟨?_, hk.2⟩⟩
          rcases Nat.eq_zero_or_pos k with rfl | hpos
          · exact absurd hk.2 hend
          · exact hpos
        simp only [hzero, Unpacker.tookAll]

/-- How the loop ends: with an error, after all items, or at the end of the buffer; it reads
outside only behind a size field that wraps. -/
theorem unpackItems_ends (hsmall : s.raw.length < 2 ^ 63) (n : Nat) (hle : s.offset ≤ s.raw.length) :
    Ends (unpackItems n) s
      (fun r t => (∃ e, r = some e ∧ e ≠ .success) ∨
        r = none ∧ ∃ k ≤ n, AllWhole s.raw s.offset k ∧ t = s.tookAll k ∧
          (k = n ∨ 0 < k ∧ after s.raw s.offset k = s.raw.length))
      fun _ _ => ∃ k < n, AllWhole s.raw s.offset k ∧
        after s.raw s.offset k + sizeofItem ≤ s.raw.length ∧
        longAt s.raw (after s.raw s.offset k + 16) = 2 ^ 64 - 1 := by
  induction n generalizing s with
  | zero => exact .inr ⟨rfl, 0, le_rfl, trivial, rfl, .inl rfl⟩
  | succ n ih =>
      by_cases hhead : s.offset + sizeofItem ≤ s.raw.length
      · by_cases hsize : longAt s.raw (s.offset + 16) = 2 ^ 64 - 1
        · exact (unpackItems_wraps hsmall hhead hsize n).mono (fun _ _ hf => hf.elim)
            fun _ _ _ => ⟨0, Nat.succ_pos n, trivial, hhead, hsize⟩
        · by_cases hwhole : Whole s.raw s.offset
          · rw [unpackItems_whole hsmall hwhole]
            split
            · rename_i hend
              exact .inr ⟨rfl, 1, by omega, ⟨hwhole, trivial⟩, rfl, .inr ⟨Nat.one_pos, hend⟩⟩
            · refine (ih (s := s.took) hsmall hwhole.inside).mono (fun r t ht => ?_)
                fun _ _ hf => ?_
              · refine ht.imp_right fun ⟨hr, k, hk, hall, htook, hlast⟩ => ?_
                exact ⟨hr, k + 1, by omega, ⟨hwhole, hall⟩, htook, hlast.imp (by omega)
                  fun hlast => ⟨Nat.succ_pos k, hlast.2⟩⟩
              · obtain ⟨k, hk, hall, hroom, hwraps⟩ := hf
                exact ⟨k + 1, by omega, ⟨hwhole, hall⟩, hroom, hwraps⟩
          · exact (unpackItems_broken hsmall hhead hsize hwhole n).total fun _ _ hr => .inl hr
      · exact (unpackItems_short hle hsmall (by omega) n).total
          (fun _ _ hr => .inl ⟨_, hr, by decide⟩)

end Loop

end MetaData

end BrbData
