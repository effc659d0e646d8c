import BrbFramework.Data.DynBitMapMeta
import BrbFramework.Data.MemBufferMapped
import BrbFramework.Lib.Along

/-!
# Mapped buffers in packed metadata

`MemBufferMappedMetaDataPack` adds an item with the numbers of the buffer, the two items of
its bitmap, and its content as the last one. `MemBufferMappedMetaDataUnPack` unpacks the
bytes twice, once for the bitmap and once for the rest, and each time walks all items.

The unpacker wants 32 bytes where an item begins, so a content of less than seven bytes
hides its own item, and nothing comes back. The partial pages are not packed.

Whether a buffer serves several threads is not in the model of the buffer; what is packed of
it is an argument here.
-/

namespace BrbData

open Handler MetaData List

namespace MemBufferMapped

/-- `DATATYPE_MEMBUFFER_MAPPED_META`. -/
def datatypeMeta : UInt64 := 37

/-- `DATATYPE_MEMBUFFER_MAPPED_DATA`. -/
def datatypeData : UInt64 := 38

/-- `MemBufferMappedFlags`, from `thread_safe` on. -/
def flags (s : MemBufferMapped) (threadSafe : Bool) : Nat :=
  threadSafe.toNat + 8 * s.complete.toNat + 16 * s.pctStringUpdate.toNat

/-- `MemBufferMappedMetaData` as it lies in memory. -/
def metaDataBytes (s : MemBufferMapped) (threadSafe : Bool) : List UInt8 :=
  LittleEndian.ofNat 4 (s.flags threadSafe) ++ List.replicate 4 0 ++
    LittleEndian.ofInt 8 s.curOffset ++ LittleEndian.ofInt 4 s.pageSz ++ List.replicate 4 0

/-- `MemBufferMappedMetaDataPack` adds to the items that are there. -/
def metaDataPack (s : MemBufferMapped) (threadSafe : Bool) (items : List MetaDataItem)
    (itemSubId : UInt64) : List MetaDataItem :=
  s.dynBitmap.metaDataPack (items ++ [⟨datatypeMeta, itemSubId, s.metaDataBytes threadSafe⟩])
    itemSubId ++ [⟨datatypeData, itemSubId, s.mainMb.bytes⟩]

/-- `MemBufferMappedMetaDataPackToMB`. -/
def metaDataPackToMB (s : MemBufferMapped) (threadSafe : Bool) (itemSubId : UInt64) : MemBuffer :=
  pack (s.metaDataPack threadSafe [] itemSubId) (.new 1024)

def populate (raw : List UInt8) (ptr : Nat) (s : MemBufferMapped) : MemBufferMapped :=
  let flags := LittleEndian.toNat ((raw.drop ptr).take 4)
  { s with
    curOffset := (LittleEndian.toInt ((raw.drop (ptr + 8)).take 8)).toNat
    pageSz := (LittleEndian.toInt ((raw.drop (ptr + 16)).take 4)).toNat
    complete := flags.testBit 3
    pctStringUpdate := flags.testBit 4 }

def unPackItem (raw : List UInt8) (s : MemBufferMapped) (metaItem : MetaDataItem.Found) :
    Except MetaData.Fault MemBufferMapped :=
  if metaItem.itemId = datatypeMeta then
    if metaItem.ptr + 24 ≤ raw.length then .ok (s.populate raw metaItem.ptr)
    else .error .outside
  else if metaItem.itemId = datatypeData then
    if metaItem.ptr + metaItem.sz ≤ raw.length then
      .ok { s with mainMb := (MemBuffer.new 1024).add (load raw metaItem) }
    else .error .outside
  else .ok s

/-- `MemBufferMappedMetaDataUnPack`, which fails where the bitmap or the rest is not unpacked. -/
def metaDataUnPack (s : MemBufferMapped) (rawMetadataMb : MemBuffer) :
    Except MetaData.Fault (Option MemBufferMapped) := do
  match ← DynBitMap.metaDataUnPackFromMB rawMetadataMb with
  | none => return none
  | some dynBitmap =>
      match unpack (start rawMetadataMb) with
      | .error f _ => throw f
      | .ok .success t =>
          let s ← t.items.foldlM (unPackItem t.raw) { s with dynBitmap := dynBitmap }
          return some { s with pctStringUpdate := true }
      | .ok _ _ => return none

/-- `MemBufferMappedMetaDataUnPackFromMB`. -/
def metaDataUnPackFromMB (rawMetadataMb : MemBuffer) :
    Except MetaData.Fault (Option MemBufferMapped) :=
  (init 128).metaDataUnPack rawMetadataMb

/-- The same page size, offset, bitmap and content. -/
structure Same (s t : MemBufferMapped) : Prop where
  pageSz : t.pageSz = s.pageSz
  curOffset : t.curOffset = s.curOffset
  dynBitmap : DynBitMap.Same s.dynBitmap t.dynBitmap
  bytes : t.mainMb.bytes = s.mainMb.bytes

/-- What was packed is unpacked to the same buffer. -/
def ComesBack (s : MemBufferMapped) (threadSafe : Bool) (itemSubId : UInt64) : Prop :=
  ∃ t, metaDataUnPackFromMB (s.metaDataPackToMB threadSafe itemSubId) = .ok (some t) ∧ Same s t

/-- The numbers are ones that their fields hold, and what is packed is in memory. -/
structure Fits (s : MemBufferMapped) (threadSafe : Bool) (itemSubId : UInt64) : Prop where
  curOffset : s.curOffset < 2 ^ 63
  dynBitmap : s.dynBitmap.Long
  packable : Packable (s.metaDataPack threadSafe [] itemSubId)

/-- The buffers that a program has: new ones, what writes make of them, and what comes back. -/
inductive Reachable : MemBufferMapped → Prop
  | new (pageSz : Nat) : pageSz < 2 ^ 31 → Reachable (init pageSz)
  | write {s : MemBufferMapped} (offset : Nat) (data : List UInt8) :
      Reachable s → (exec (write offset data) s).2 = none → Reachable (exec (write offset data) s).1
  | unPack {s t : MemBufferMapped} (threadSafe : Bool) (itemSubId : UInt64) :
      Reachable s → Fits s threadSafe itemSubId →
      metaDataUnPackFromMB (s.metaDataPackToMB threadSafe itemSubId) = .ok (some t) → Reachable t

structure Formed (s : MemBufferMapped) : Prop where
  pageSz : s.pageSz < 2 ^ 31
  plain : s.mainMb.Plain
  dynBitmap : s.dynBitmap.WF

variable {s t : MemBufferMapped} {threadSafe : Bool} {itemSubId : UInt64}

/-! ## What the loop finds -/

section Rebuild

variable {raw : List UInt8}

theorem slice_of_slice {l bytes : List UInt8} {ptr sz k n : Nat}
    (hbytes : (l.drop ptr).take sz = bytes) (hin : k + n ≤ sz) :
    (l.drop (ptr + k)).take n = (bytes.drop k).take n := by
  rw [← hbytes, drop_take, take_take, drop_drop]
  congr 1
  omega

theorem populate_bytes (hpage : s.pageSz < 2 ^ 31) (hoffset : s.curOffset < 2 ^ 63) {ptr sz : Nat}
    (hbytes : (raw.drop ptr).take sz = s.metaDataBytes threadSafe) (u : MemBufferMapped) :
    ptr + 24 ≤ raw.length ∧ (u.populate raw ptr).pageSz = s.pageSz ∧
      (u.populate raw ptr).curOffset = s.curOffset := by
  have hlen : (s.metaDataBytes threadSafe).length = 24 := by simp [metaDataBytes]
  have htake := congrArg List.length hbytes
  rw [hlen, length_take, length_drop] at htake
  have hcur : (raw.drop (ptr + 8)).take 8 = LittleEndian.ofInt 8 s.curOffset := by
    rw [slice_of_slice hbytes (by omega), metaDataBytes, append_assoc]
    exact slice_append (by simp) (by simp)
  have hsz : (raw.drop (ptr + 16)).take 4 = LittleEndian.ofInt 4 s.pageSz := by
    rw [slice_of_slice hbytes (by omega), metaDataBytes]
    exact slice_append (by simp) (by simp)
  refine ⟨by omega, ?_, ?_⟩
  · simp only [populate, hsz]
    rw [LittleEndian.toInt_ofInt (by omega) (by omega)]
    rfl
  · simp only [populate, hcur]
    rw [LittleEndian.toInt_ofInt (by omega) (by omega)]
    rfl

/-- The four items are found as they were packed. -/
structure Found (s : MemBufferMapped) (threadSafe : Bool) (itemSubId : UInt64) (raw : List UInt8) :
    Prop where
  whole : AllWhole raw 64 4
  packed : (itemsFrom raw 64 4).map (reload raw) = s.metaDataPack threadSafe [] itemSubId

theorem Found.dynBitmap (h : Found s threadSafe itemSubId raw) (hwf : s.dynBitmap.WF)
    (hlong : s.dynBitmap.Long) (m₀ : DynBitMap) :
    ∃ m, DynBitMap.metaDataUnPack raw (itemsFrom raw 64 4) m₀ = .ok m ∧ m.WF ∧
      DynBitMap.Same s.dynBitmap m := by
  obtain ⟨hall, hpacked⟩ := h
  obtain ⟨hall, -⟩ := allWhole_succ hall
  rw [itemsFrom_succ] at hpacked ⊢
  rw [map_append, metaDataPack] at hpacked
  obtain ⟨hbitmap, hdata⟩ := append_inj hpacked (by simp [DynBitMap.metaDataPack])
  have hlen : ∀ item, (s.dynBitmap.metaDataPack ([] ++ [item]) itemSubId).length = 3 := fun _ => rfl
  rw [← hlen ⟨datatypeMeta, itemSubId, s.metaDataBytes threadSafe⟩] at hall hbitmap
  obtain ⟨m, hfold, htable, hcapacity, hseen, hcount⟩ :=
    DynBitMap.unPack_items true hlong hall hbitmap m₀
  rw [hlen] at hfold
  have hdataId : (itemAt raw (after raw 64 3)).itemId = datatypeData := by
    have hlast := singleton_inj.1 hdata
    exact congrArg MetaDataItem.itemId hlast
  have hskip : DynBitMap.unPackItem true raw m (itemAt raw (after raw 64 3)) = .ok m := by
    rw [DynBitMap.unPackItem, hdataId, if_neg (by decide), if_neg (by decide)]
  have hbit := hwf.bit_table htable
  refine ⟨m, ?_, ?_, (DynBitMap.same_iff hbit hseen).2 hcount⟩
  · rw [DynBitMap.metaDataUnPack, foldlM_append]
    rw [hfold]
    simp only [foldlM_cons, foldlM_nil, bind_pure]
    exact hskip
  · refine ⟨?_, fun i hi => ?_, fun i hi => ?_⟩
    · rw [hcapacity, htable, length_append, length_take, Nat.min_eq_left hwf.allocated]
      exact Nat.le_succ _
    · rw [hbit] at hi
      rw [hcapacity]
      exact hwf.inside i hi
    · rw [hseen] at hi
      rw [hbit]
      exact hwf.clear i hi

theorem Found.rest (h : Found s threadSafe itemSubId raw) (hpage : s.pageSz < 2 ^ 31)
    (hoffset : s.curOffset < 2 ^ 63) (u : MemBufferMapped) :
    ∃ t, (itemsFrom raw 64 4).foldlM (unPackItem raw) u = .ok t ∧ t.pageSz = s.pageSz ∧
      t.curOffset = s.curOffset ∧ t.dynBitmap = u.dynBitmap ∧ t.mainMb.Plain ∧
      t.mainMb.bytes = s.mainMb.bytes := by
  obtain ⟨hall, hpacked⟩ := h
  obtain ⟨-, hlast⟩ := allWhole_succ hall
  have hinside := hlast.inside
  unfold MetaData.next itemRawSz at hinside
  simp only [itemsFrom, MetaData.after, map_cons, map_nil, metaDataPack, DynBitMap.metaDataPack,
    nil_append, cons_append, List.cons.injEq] at hpacked hinside ⊢
  -- the items are found one for one
  generalize hfirst : itemAt raw 64 = first at hpacked ⊢
  generalize hsecond : itemAt raw (next raw 64) = second at hpacked ⊢
  generalize hthird : itemAt raw (next raw (next raw 64)) = third at hpacked ⊢
  generalize hpos : next raw (next raw (next raw 64)) = pos at hpacked hinside ⊢
  obtain ⟨hmeta, htable, hbits, hdata, -⟩ := hpacked
  have hmetaId : first.itemId = datatypeMeta := congrArg MetaDataItem.itemId hmeta
  have htableId : second.itemId = DynBitMap.datatypeMeta := congrArg MetaDataItem.itemId htable
  have hbitsId : third.itemId = DynBitMap.datatypeData := congrArg MetaDataItem.itemId hbits
  obtain ⟨hroom, hpageSz, hcurOffset⟩ := populate_bytes hpage hoffset
    (congrArg MetaDataItem.content hmeta) u
  obtain ⟨v, hv⟩ : ∃ v, u.populate raw first.ptr = v := ⟨_, rfl⟩
  have hbitmap : v.dynBitmap = u.dynBitmap := by
    rw [← hv]
    rfl
  rw [hv] at hpageSz hcurOffset
  have hmetaStep : unPackItem raw u first = .ok v := by
    rw [unPackItem, if_pos hmetaId, if_pos hroom, hv]
  have hskip : ∀ found : MetaDataItem.Found, found.itemId ≠ datatypeMeta →
      found.itemId ≠ datatypeData → unPackItem raw v found = .ok v := by
    intro found hnotMeta hnotData
    rw [unPackItem, if_neg hnotMeta, if_neg hnotData]
  have hdataId : (itemAt raw pos).itemId = datatypeData := congrArg MetaDataItem.itemId hdata
  have hload : load raw (itemAt raw pos) = s.mainMb.bytes := congrArg MetaDataItem.content hdata
  have hend : (itemAt raw pos).ptr + (itemAt raw pos).sz ≤ raw.length := by
    simp only [itemAt, itemRawSz]
    omega
  have hdataStep : unPackItem raw v (itemAt raw pos) =
      .ok { v with mainMb := (MemBuffer.new 1024).add s.mainMb.bytes } := by
    rw [unPackItem, hdataId, if_neg (by decide), if_pos rfl, if_pos hend, hload]
  have hnew := MemBuffer.plain_new 1024
  refine ⟨{ v with mainMb := (MemBuffer.new 1024).add s.mainMb.bytes }, ?_, hpageSz, hcurOffset,
    hbitmap, hnew.add _, ?_⟩
  · simp only [foldlM_cons, foldlM_nil, bind_pure, hmetaStep]
    change (unPackItem raw v second >>= fun v => unPackItem raw v third >>= fun v =>
      unPackItem raw v (itemAt raw pos)) = _
    rw [hskip second (by rw [htableId]; decide) (by rw [htableId]; decide)]
    change (unPackItem raw v third >>= fun v => unPackItem raw v (itemAt raw pos)) = _
    rw [hskip third (by rw [hbitsId]; decide) (by rw [hbitsId]; decide)]
    exact hdataStep
  · rw [hnew.bytes_add, MemBuffer.bytes_new, nil_append]

end Rebuild

/-! ## There and back -/

theorem Formed.length_bytes (h : Formed s) : s.mainMb.bytes.length = s.mainMb.size :=
  h.plain.length_bytes

theorem Formed.unPacks (h : Formed s) (hfits : Fits s threadSafe itemSubId)
    (hlong : 7 ≤ s.mainMb.size) :
    ∃ t, metaDataUnPackFromMB (s.metaDataPackToMB threadSafe itemSubId) = .ok (some t) ∧
      Same s t ∧ Formed t := by
  have hlast : ∀ last ∈ (s.metaDataPack threadSafe [] itemSubId).getLast?,
      7 ≤ last.content.length := by
    intro last hlast
    rw [metaDataPack, getLast?_concat, Option.mem_some_iff] at hlast
    rw [← hlast, h.length_bytes]
    exact hlong
  obtain ⟨u, hu⟩ : ∃ u, start (s.metaDataPackToMB threadSafe itemSubId) = u := ⟨_, rfl⟩
  obtain ⟨hwhole, hpacked, hends⟩ := hfits.packable.finds hlast hu
  have hlen : (s.metaDataPack threadSafe [] itemSubId).length = 4 := rfl
  rw [hlen] at hwhole hpacked hends
  have hfound : Found s threadSafe itemSubId u.raw := ⟨hwhole, hpacked⟩
  obtain ⟨code, v, hunpack, rfl, hraw, hitems⟩ := hends.returns
  obtain ⟨m, hbitmap, hwf, hsame⟩ := hfound.dynBitmap h.dynBitmap hfits.dynBitmap (.new 128)
  obtain ⟨t, hrest, hpageSz, hcurOffset, hmap, hplain, hbytes⟩ :=
    hfound.rest h.pageSz hfits.curOffset { init 128 with dynBitmap := m }
  have hfromMB : DynBitMap.metaDataUnPackFromMB (s.metaDataPackToMB threadSafe itemSubId) =
      .ok (some m) := by
    rw [DynBitMap.metaDataUnPackFromMB, hu, hunpack]
    simp only [hraw, hitems, hbitmap]
    rfl
  refine ⟨{ t with pctStringUpdate := true }, ?_, ⟨hpageSz, hcurOffset, hmap ▸ hsame, hbytes⟩,
    ⟨hpageSz ▸ h.pageSz, hplain, hmap ▸ hwf⟩⟩
  rw [metaDataUnPackFromMB, metaDataUnPack, hfromMB, hu, hunpack]
  change (v.items.foldlM (unPackItem v.raw) { init 128 with dynBitmap := m } >>= fun s =>
    pure (some { s with pctStringUpdate := true })) = _
  rw [hraw, hitems, hrest]
  rfl

theorem unPacks_nothing {init : List MetaDataItem} {last : MetaDataItem}
    (h : Packable (init ++ [last])) (hshort : last.content.length < 7) :
    metaDataUnPackFromMB (pack (init ++ [last]) (.new 1024)) = .ok none := by
  have hends := @short_last_item_ends 1024 _ _ h hshort
  obtain ⟨code, v, hunpack, rfl⟩ := hends.returns
  have hfromMB : DynBitMap.metaDataUnPackFromMB (pack (init ++ [last]) (.new 1024)) =
      .ok none := by
    rw [DynBitMap.metaDataUnPackFromMB, hunpack]
  rw [metaDataUnPackFromMB, metaDataUnPack, hfromMB]
  rfl

theorem Fits.unPacks_nothing (hfits : Fits s threadSafe itemSubId)
    (hshort : s.mainMb.bytes.length < 7) :
    metaDataUnPackFromMB (s.metaDataPackToMB threadSafe itemSubId) = .ok none := by
  obtain ⟨init, hinit⟩ : ∃ init, s.metaDataPack threadSafe [] itemSubId =
      init ++ [⟨datatypeData, itemSubId, s.mainMb.bytes⟩] := ⟨_, rfl⟩
  have hpackable := hfits.packable
  rw [hinit] at hpackable
  rw [metaDataPackToMB, hinit]
  exact MemBufferMapped.unPacks_nothing hpackable hshort

/-! ## Writes -/

structure Writes (s t : MemBufferMapped) : Prop where
  pageSz : t.pageSz = s.pageSz
  plain : s.mainMb.Plain → t.mainMb.Plain
  dynBitmap : s.dynBitmap.WF → t.dynBitmap.WF

instance : IsPreorder MemBufferMapped Writes where
  refl _ := ⟨rfl, id, id⟩
  trans _ _ _ h h' := ⟨h'.pageSz.trans h.pageSz, h'.plain ∘ h.plain, h'.dynBitmap ∘ h.dynBitmap⟩

theorem along_setBlocks (i : Int) (n : Nat) : Along Writes (setBlocks i n) := by
  induction n generalizing i with
  | zero => exact along_pure _
  | succ n ih =>
      rw [setBlocks]
      refine (along_assertThat _ _).bind fun _ => ?_
      refine (along_modify fun s => ?_).bind fun _ => ?_
      · exact ⟨rfl, id, fun h => h.bitSet _⟩
      refine (along_modify fun s => ?_).bind fun _ => ?_
      · exact ⟨rfl, id, id⟩
      exact (along_assertThat _ _).bind fun _ => ih (i + 1)

theorem along_mainWrite (offset : MemBufferMapped → Nat) (data : List UInt8) :
    Along (ε := Fault) Writes
      (modify fun s => { s with mainMb := s.mainMb.offsetWrite (offset s) data }) := by
  refine along_modify fun s => ⟨rfl, fun h => ?_, id⟩
  exact ⟨h.toWF.offsetWrite h.offset, MemBuffer.offsetWrite_offset.trans h.offset⟩

theorem along_alignedWrite (data : List UInt8) (blockIdx : Nat) :
    Along Writes (alignedWrite data blockIdx) := by
  refine along_get_bind fun s => ?_
  refine (along_assertThat _ _).bind fun _ => ?_
  refine (along_mainWrite (fun _ => blockIdx * s.pageSz) data).bind fun _ => ?_
  exact along_setBlocks _ _

theorem along_partialMbList (f : MemBufferMapped → List PagePart) :
    Along (ε := Fault) Writes (modify fun s => { s with partialMbList := f s }) :=
  along_modify fun _ => ⟨rfl, id, id⟩

theorem along_partialStored (pagePart : PagePart) (data : List UInt8) (blockIdx relOffset : Nat) :
    Along Writes (partialStored pagePart data blockIdx relOffset) := by
  refine along_get_bind fun s => ?_
  refine (along_mainWrite (fun s => blockIdx * s.pageSz + relOffset) data).bind fun _ => ?_
  refine Along.ite ?_ (along_pure _)
  exact (along_alignedWrite _ _).bind fun _ => along_partialMbList _

theorem along_partialDataProcess (data : List UInt8) (blockIdx relOffset : Nat) :
    Along Writes (partialDataProcess data blockIdx relOffset) := by
  refine along_get_bind fun s => ?_
  refine Along.ite (along_pure _) ?_
  cases s.partialGetByIdx blockIdx with
  | none =>
      refine (along_partialMbList _).bind fun _ => ?_
      exact (along_partialStored _ _ _ _).bind fun _ => along_pure _
  | some p =>
      dsimp only
      cases p.accepts data.length relOffset with
      | none => exact along_pure _
      | some partialMbOff =>
          refine (along_partialMbList _).bind fun _ => ?_
          exact (along_partialStored _ _ _ _).bind fun _ => along_pure _

theorem along_write (offset : Nat) (data : List UInt8) : Along Writes (write offset data) := by
  have haligned : ∀ data blockIdx off, Along Writes (writeAligned data blockIdx off) := by
    intro data blockIdx off
    refine Along.ite ?_ (along_pure _)
    refine (along_alignedWrite _ _).bind fun _ => along_modify fun _ => ⟨rfl, id, id⟩
  have hpart : ∀ data blockIdx off, Along Writes (writePartial data blockIdx off) := by
    intro data blockIdx off
    refine Along.ite ?_ (along_pure _)
    exact (along_partialDataProcess _ _ _).bind fun _ => along_pure _
  refine along_get_bind fun s => ?_
  refine (along_assertThat _ _).bind fun _ => ?_
  refine (haligned _ _ _).bind fun _ => ?_
  refine (hpart _ _ _).bind fun _ => ?_
  refine (hpart _ _ _).bind fun _ => ?_
  exact along_modify fun _ => ⟨rfl, id, id⟩

/-! ## Every buffer of a program -/

theorem formed_init {pageSz : Nat} (h : pageSz < 2 ^ 31) : Formed (init pageSz) :=
  ⟨h, MemBuffer.plain_new pageSz, DynBitMap.wf_new 256⟩

theorem Formed.write (h : Formed s) (offset : Nat) (data : List UInt8) :
    Formed (exec (write offset data) s).1 := by
  have hwrites : Writes s (exec (MemBufferMapped.write offset data) s).1 := by
    rcases exec_of_ends (along_write offset data s) with ⟨-, _, hdone⟩ | ⟨_, -, hstopped⟩
    · exact hdone
    · exact hstopped
  exact ⟨hwrites.pageSz ▸ h.pageSz, hwrites.plain h.plain, hwrites.dynBitmap h.dynBitmap⟩

theorem Reachable.formed (h : Reachable s) : Formed s := by
  induction h with
  | new pageSz hpage => exact formed_init hpage
  | write offset data _ _ ih => exact ih.write offset data
  | @unPack s t threadSafe itemSubId _ hfits hback ih =>
      by_cases hlong : 7 ≤ s.mainMb.size
      · obtain ⟨t, ht, -, hformed⟩ := ih.unPacks hfits hlong
        cases ht.symm.trans hback
        exact hformed
      · have hnone := hfits.unPacks_nothing (by rw [ih.length_bytes]; omega)
        cases hnone.symm.trans hback

theorem ComesBack.long (h : Formed s) (hfits : Fits s threadSafe itemSubId)
    (hback : ComesBack s threadSafe itemSubId) : 7 ≤ s.mainMb.size := by
  obtain ⟨t, ht, -⟩ := hback
  by_contra hshort
  have hnone := hfits.unPacks_nothing (by rw [h.length_bytes]; omega)
  cases hnone.symm.trans ht

def twoPages : MemBufferMapped := (exec (write 0 [1, 2, 3, 4, 5, 6, 7, 8]) (init 4)).1

def onePage : MemBufferMapped := (exec (write 0 [1, 2, 3, 4]) (init 4)).1

end MemBufferMapped

end BrbData
