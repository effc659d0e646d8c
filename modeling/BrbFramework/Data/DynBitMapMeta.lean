import BrbFramework.Data.DynBitMap
import BrbFramework.Data.MetaDataUnpack

/-!
# Bitmaps in packed metadata

`DynBitMapMetaDataPack` adds two items, the four numbers of the map and its
table. `DynBitMapMetaDataUnPack` and `DynBitMapMetaDataUnPackFromMeta` walk the
items that `MetaDataUnpack` found; they are one loop, but the second one leaves
out `bitset_count`.

`comesBack_iff` says which maps survive: those whose count is the one of a new
map anyway, and whose table is not too short for the unpacker.
-/

namespace BrbData

open Handler MetaData List LittleEndian

namespace DynBitMap

/-- `DATATYPE_DYN_BITMAP_META`. -/
def datatypeMeta : UInt64 := 7

/-- `DATATYPE_DYN_BITMAP_DATA`. -/
def datatypeData : UInt64 := 8

/-- `DynBitMapMetaData` as it lies in memory. -/
def metaDataBytes (m : DynBitMap) : List UInt8 :=
  LittleEndian.ofInt 8 m.capacity ++ LittleEndian.ofInt 8 m.growRate ++
    LittleEndian.ofInt 8 m.higherSeen ++ LittleEndian.ofInt 8 m.bitsetCount

def tableBytes (m : DynBitMap) : List UInt8 := (m.data.take m.capacity).map UInt8.ofBitVec

/-- `DynBitMapMetaDataPack` adds to the items that are there. -/
def metaDataPack (m : DynBitMap) (items : List MetaDataItem) (itemSubId : UInt64) :
    List MetaDataItem :=
  items ++ [⟨datatypeMeta, itemSubId, m.metaDataBytes⟩, ⟨datatypeData, itemSubId, m.tableBytes⟩]

/-- A `long` of the buffer. The numbers of a map are not negative, its count aside. -/
def longFrom (raw : List UInt8) (pos : Nat) : Int := LittleEndian.toInt ((raw.drop pos).take 8)

/-- "DYN_BITMAP METADATA, populate back", the count with the rest if `counts`. -/
def populate (counts : Bool) (raw : List UInt8) (ptr : Nat) (m : DynBitMap) : DynBitMap :=
  { m with
    capacity := (longFrom raw ptr).toNat
    growRate := (longFrom raw (ptr + 8)).toNat
    higherSeen := (longFrom raw (ptr + 16)).toNat
    bitsetCount := if counts then longFrom raw (ptr + 24) else m.bitsetCount }

def unPackItem (counts : Bool) (raw : List UInt8) (m : DynBitMap) (metaItem : MetaDataItem.Found) :
    Except Fault DynBitMap :=
  if metaItem.itemId = datatypeMeta then
    if metaItem.ptr + 32 ≤ raw.length then .ok (m.populate counts raw metaItem.ptr)
    else .error .outside
  else if metaItem.itemId = datatypeData then
    if metaItem.ptr + metaItem.sz ≤ raw.length then
      .ok { m with data := (load raw metaItem).map UInt8.toBitVec ++ [0#8] }
    else .error .outside
  else .ok m

/-- `DynBitMapMetaDataUnPackFromMeta`. -/
def metaDataUnPackFromMeta (raw : List UInt8) (items : List MetaDataItem.Found) :
    Except Fault DynBitMap :=
  items.foldlM (unPackItem false raw) (.new 128)

/-- `DynBitMapMetaDataUnPack`, once its metadata was unpacked. -/
def metaDataUnPack (raw : List UInt8) (items : List MetaDataItem.Found) (m : DynBitMap) :
    Except Fault DynBitMap :=
  items.foldlM (unPackItem true raw) m

/-- `DynBitMapMetaDataUnPackFromMB`, which answers NULL where the unpacker fails. -/
def metaDataUnPackFromMB (rawMetadataMb : MemBuffer) : Except Fault (Option DynBitMap) :=
  match unpack (start rawMetadataMb) with
  | .error f _ => .error f
  | .ok .success t => some <$> metaDataUnPack t.raw t.items (.new 128)
  | .ok _ _ => .ok none

/-- The same members, the same highest index and the same count. -/
structure Same (m m' : DynBitMap) : Prop where
  members : ∀ i, m'.bitTest i = m.bitTest i
  higherSeen : m'.higherSeen = m.higherSeen
  bitsetCount : m'.bitsetCount = m.bitsetCount

/-- The map that was packed behind `items` and serialised is decoded, and `rebuild` makes the
same map of it. -/
def ComesBack (rebuild : List UInt8 → List MetaDataItem.Found → Except Fault DynBitMap)
    (m : DynBitMap) (items : List MetaDataItem) (itemSubId : UInt64) (growRate : Nat) : Prop :=
  Ends unpack (start (pack (m.metaDataPack items itemSubId) (.new growRate)))
    (fun code t => code = .success ∧ ∃ m', rebuild t.raw t.items = .ok m' ∧ Same m m')
    fun _ _ => False

/-- The numbers of the map are ones that a `long` holds. -/
structure Long (m : DynBitMap) : Prop where
  capacity : m.capacity < 2 ^ 63
  growRate : m.growRate < 2 ^ 63
  higherSeen : m.higherSeen < 2 ^ 63
  bitsetCount : -2 ^ 63 ≤ m.bitsetCount ∧ m.bitsetCount < 2 ^ 63

section Rebuild

variable {m : DynBitMap} {raw : List UInt8}

theorem unPack_others (counts : Bool) {pos k : Nat} (h : AllWhole raw pos (k + 1)) (m : DynBitMap) :
    ∃ m', (itemsFrom raw pos k).foldlM (unPackItem counts raw) m = .ok m' ∧
      (counts = false → m'.bitsetCount = m.bitsetCount) := by
  induction k generalizing pos m with
  | zero => exact ⟨m, rfl, fun _ => rfl⟩
  | succ k ih =>
      obtain ⟨hfirst, hrest⟩ := h
      have hinside := hfirst.inside
      have hhead := hrest.1.head
      unfold MetaData.next itemRawSz at hinside
      unfold MetaData.next itemRawSz sizeofItem at hhead
      obtain ⟨m₁, hstep, hcount⟩ : ∃ m₁, unPackItem counts raw m (itemAt raw pos) = .ok m₁ ∧
          (counts = false → m₁.bitsetCount = m.bitsetCount) := by
        unfold unPackItem
        split
        · rw [if_pos (by simp only [itemAt, itemRawSz]; omega)]
          refine ⟨_, rfl, fun hcounts => ?_⟩
          rw [hcounts]
          rfl
        · split
          · rw [if_pos (by simp only [itemAt, itemRawSz]; omega)]
            exact ⟨_, rfl, fun _ => rfl⟩
          · exact ⟨m, rfl, fun _ => rfl⟩
      obtain ⟨m', hfold, hrestCount⟩ := ih hrest m₁
      refine ⟨m', ?_, fun hcounts => (hrestCount hcounts).trans (hcount hcounts)⟩
      rw [itemsFrom, foldlM_cons, hstep]
      exact hfold

theorem longFrom_append (pre post : List UInt8) {x : Int} (hlow : -2 ^ 63 ≤ x) (hhigh : x < 2 ^ 63)
    {pos : Nat} (hpos : pos = pre.length) :
    longFrom (pre ++ ofInt 8 x ++ post) pos = x := by
  rw [longFrom, slice_append hpos (length_ofInt 8 x).symm]
  exact toInt_ofInt (by omega) (by omega)

theorem populate_bytes (counts : Bool) (hlong : m.Long) {ptr sz : Nat}
    (hbytes : (raw.drop ptr).take sz = m.metaDataBytes) (m' : DynBitMap) :
    ptr + 32 ≤ raw.length ∧
      m'.populate counts raw ptr =
        { m' with
          capacity := m.capacity
          growRate := m.growRate
          higherSeen := m.higherSeen
          bitsetCount := if counts then m.bitsetCount else m'.bitsetCount } := by
  obtain ⟨hcapacity, hgrowRate, hhigherSeen, hcountLow, hcountHigh⟩ := hlong
  have hlen : m.metaDataBytes.length = 32 := by simp [metaDataBytes]
  have hroom : ptr + 32 ≤ raw.length := by
    have htake := congrArg List.length hbytes
    rw [hlen, length_take, length_drop] at htake
    omega
  have hpre : (raw.take ptr).length = ptr := length_take_of_le (by omega)
  obtain ⟨post, hraw⟩ : ∃ post, raw = raw.take ptr ++ m.metaDataBytes ++ post := by
    refine ⟨(raw.drop ptr).drop sz, ?_⟩
    rw [← hbytes, append_assoc, take_append_drop, take_append_drop]
  generalize raw.take ptr = pre at hpre hraw
  have hfirst : longFrom raw ptr = m.capacity := by
    rw [hraw, metaDataBytes]
    simp only [append_assoc]
    rw [← append_assoc]
    exact longFrom_append _ _ (by omega) (by omega) hpre.symm
  have hsecond : longFrom raw (ptr + 8) = m.growRate := by
    have hsplit : raw = (pre ++ ofInt 8 m.capacity) ++
        ofInt 8 m.growRate ++ (ofInt 8 m.higherSeen ++
          ofInt 8 m.bitsetCount ++ post) := by
      simp [hraw, metaDataBytes]
    rw [hsplit]
    exact longFrom_append _ _ (by omega) (by omega) (by simp [hpre])
  have hthird : longFrom raw (ptr + 16) = m.higherSeen := by
    have hsplit : raw = (pre ++ ofInt 8 m.capacity ++
        ofInt 8 m.growRate) ++ ofInt 8 m.higherSeen ++
          (ofInt 8 m.bitsetCount ++ post) := by
      simp [hraw, metaDataBytes]
    rw [hsplit]
    exact longFrom_append _ _ (by omega) (by omega) (by simp [hpre])
  have hfourth : longFrom raw (ptr + 24) = m.bitsetCount := by
    have hsplit : raw = (pre ++ ofInt 8 m.capacity ++
        ofInt 8 m.growRate ++ ofInt 8 m.higherSeen) ++
          ofInt 8 m.bitsetCount ++ post := by
      simp [hraw, metaDataBytes]
    rw [hsplit]
    exact longFrom_append _ _ hcountLow hcountHigh (by simp [hpre])
  refine ⟨hroom, ?_⟩
  rw [populate, hfirst, hsecond, hthird, hfourth]
  rfl

theorem WF.bit_table (h : m.WF) {m' : DynBitMap}
    (hdata : m'.data = m.data.take m.capacity ++ [0#8]) (i : Nat) : m'.bit i = m.bit i := by
  have halloc := h.allocated
  unfold bit
  rw [hdata]
  by_cases hbyte : i / 8 < m.capacity
  · have htake : i / 8 < (m.data.take m.capacity).length := by
      rw [length_take]
      omega
    rw [getD_append _ _ _ _ htake, getD_eq_getElem?_getD, getD_eq_getElem?_getD,
      getElem?_take_of_lt hbyte]
  · have hold : m.bit i = false := Bool.eq_false_iff.2 fun hset => hbyte (h.inside i hset)
    have hnew : (m.data.take m.capacity ++ [0#8]).getD (i / 8) 0#8 = 0#8 := by
      rw [getD_append_right _ _ _ _ (by rw [length_take]; omega)]
      cases i / 8 - (m.data.take m.capacity).length <;> rfl
    unfold bit at hold
    rw [hold, hnew, BitVec.getLsbD_zero]

theorem toBitVec_tableBytes (m : DynBitMap) :
    m.tableBytes.map UInt8.toBitVec = m.data.take m.capacity := by
  rw [tableBytes, map_map]
  exact map_id _

theorem unPack_items (counts : Bool) (hlong : m.Long) {items : List MetaDataItem}
    {itemSubId : UInt64}
    (hall : AllWhole raw 64 (m.metaDataPack items itemSubId).length)
    (hitems : (itemsFrom raw 64 (m.metaDataPack items itemSubId).length).map (reload raw) =
      m.metaDataPack items itemSubId) (m₀ : DynBitMap) :
    ∃ m', (itemsFrom raw 64 (m.metaDataPack items itemSubId).length).foldlM
        (unPackItem counts raw) m₀ = .ok m' ∧
      m'.data = m.data.take m.capacity ++ [0#8] ∧ m'.capacity = m.capacity ∧
      m'.higherSeen = m.higherSeen ∧
      m'.bitsetCount = if counts then m.bitsetCount else m₀.bitsetCount := by
  have hlen : (m.metaDataPack items itemSubId).length = items.length + 1 + 1 := by
    simp [metaDataPack]
  rw [hlen] at hall hitems ⊢
  obtain ⟨hall, hdataWhole⟩ := allWhole_succ hall
  rw [itemsFrom_succ, itemsFrom_succ] at hitems ⊢
  obtain ⟨m₁, hothers, hcount⟩ := unPack_others counts hall m₀
  generalize after raw 64 items.length = pos at hitems ⊢
  generalize after raw 64 (items.length + 1) = pos' at hitems hdataWhole ⊢
  -- the items are found one for one
  have hfound : reload raw (itemAt raw pos) = ⟨datatypeMeta, itemSubId, m.metaDataBytes⟩ ∧
      reload raw (itemAt raw pos') = ⟨datatypeData, itemSubId, m.tableBytes⟩ := by
    rw [append_assoc, map_append, metaDataPack] at hitems
    have hlast := (append_inj hitems (by simp)).2
    simpa using hlast
  obtain ⟨hmeta, hdata⟩ := hfound
  have hmetaId : (itemAt raw pos).itemId = datatypeMeta := congrArg MetaDataItem.itemId hmeta
  have hdataId : (itemAt raw pos').itemId = datatypeData := congrArg MetaDataItem.itemId hdata
  obtain ⟨hroom, hpopulate⟩ := populate_bytes counts hlong
    (congrArg MetaDataItem.content hmeta) m₁
  have htable : (load raw (itemAt raw pos')).map UInt8.toBitVec = m.data.take m.capacity := by
    rw [← toBitVec_tableBytes]
    exact congrArg (·.map UInt8.toBitVec) (congrArg MetaDataItem.content hdata)
  have hinside : (itemAt raw pos').ptr + (itemAt raw pos').sz ≤ raw.length := by
    have hinside := hdataWhole.inside
    unfold MetaData.next itemRawSz at hinside
    simp only [itemAt, itemRawSz]
    omega
  have hmetaStep : unPackItem counts raw m₁ (itemAt raw pos) =
      .ok (m₁.populate counts raw (itemAt raw pos).ptr) := by
    rw [unPackItem, if_pos hmetaId, if_pos hroom]
  have hdataStep : ∀ m₂, unPackItem counts raw m₂ (itemAt raw pos') =
      .ok { m₂ with data := m.data.take m.capacity ++ [0#8] } := fun m₂ => by
    rw [unPackItem, if_neg (by rw [hdataId]; decide), if_pos hdataId, if_pos hinside, htable]
  refine ⟨{ m₁ with
      data := m.data.take m.capacity ++ [0#8]
      capacity := m.capacity
      growRate := m.growRate
      higherSeen := m.higherSeen
      bitsetCount := if counts then m.bitsetCount else m₁.bitsetCount }, ?_,
    rfl, rfl, rfl, ?_⟩
  · rw [foldlM_append, foldlM_append, hothers]
    simp only [foldlM_cons, foldlM_nil, bind_pure]
    change (unPackItem counts raw m₁ (itemAt raw pos) >>= fun m₂ =>
      unPackItem counts raw m₂ (itemAt raw pos')) = _
    rw [hmetaStep, hpopulate]
    exact hdataStep _
  · cases counts with
    | false => exact hcount rfl
    | true => rfl

end Rebuild

section ComesBack

variable {m : DynBitMap} {items : List MetaDataItem} {itemSubId : UInt64} {growRate : Nat}

theorem length_tableBytes (h : m.WF) : m.tableBytes.length = m.capacity := by
  have halloc := h.allocated
  simp only [tableBytes, length_map, length_take]
  omega

theorem same_iff {m' : DynBitMap} (hbit : ∀ i, m'.bit i = m.bit i)
    (hseen : m'.higherSeen = m.higherSeen) : Same m m' ↔ m'.bitsetCount = m.bitsetCount := by
  constructor
  · exact fun hsame => hsame.bitsetCount
  · intro hcount
    refine ⟨fun i => ?_, hseen, hcount⟩
    rw [bitTest, bitTest, hseen, hbit]

/-- Both loops: the table must be long enough for the unpacker, and the count must be the one
that the loop leaves. -/
theorem comesBack_loop_iff (counts : Bool) (m₀ : DynBitMap) (growRate : Nat) (h : m.WF)
    (hlong : m.Long) (hpackable : Packable (m.metaDataPack items itemSubId)) :
    ComesBack (fun raw items => items.foldlM (unPackItem counts raw) m₀) m items itemSubId
        growRate ↔
      7 ≤ m.capacity ∧ (if counts then m.bitsetCount else m₀.bitsetCount) = m.bitsetCount := by
  have hpack : m.metaDataPack items itemSubId =
      (items ++ [⟨datatypeMeta, itemSubId, m.metaDataBytes⟩]) ++
        [⟨datatypeData, itemSubId, m.tableBytes⟩] := by
    simp [metaDataPack]
  unfold ComesBack
  by_cases hcapacity : 7 ≤ m.capacity
  · obtain ⟨s, hs⟩ : ∃ s, start (pack (m.metaDataPack items itemSubId) (.new growRate)) = s :=
      ⟨_, rfl⟩
    have hlast : ∀ last ∈ (m.metaDataPack items itemSubId).getLast?, 7 ≤ last.content.length := by
      intro last hlast
      rw [hpack, getLast?_concat, Option.mem_some_iff] at hlast
      rw [← hlast, length_tableBytes h]
      exact hcapacity
    obtain ⟨hall, hitems, hends⟩ := hpackable.finds hlast hs
    obtain ⟨m', hfold, hdata, -, hseen, hcount⟩ := unPack_items counts hlong hall hitems m₀
    have hbit := h.bit_table hdata
    rw [hs]
    apply ends_iff
    refine hends.imp fun code t ht => ?_
    obtain ⟨hcode, hraw, hfound⟩ := ht
    dsimp only
    rw [hraw, hfound, hfold, ← hcount, ← same_iff hbit hseen]
    constructor
    · rintro ⟨-, m'', hm'', hsame⟩
      cases hm''
      exact ⟨hcapacity, hsame⟩
    · rintro ⟨-, hsame⟩
      exact ⟨hcode, m', rfl, hsame⟩
  · constructor
    · intro hends
      rw [hpack] at hends hpackable
      have hfails := @short_last_item_ends growRate _ _ hpackable
        (by rw [length_tableBytes h]; omega)
      refine absurd ((hends.and hfails).mono (fun code t ht => ?_) fun _ _ hf => hf.1)
        not_ends_false
      rw [ht.2] at ht
      cases ht.1.1
    · exact fun hcond => absurd hcond.1 hcapacity

theorem ComesBack.bitsetCount (h : m.WF) (hlong : m.Long)
    (hpackable : Packable (m.metaDataPack items itemSubId))
    (hback : ComesBack metaDataUnPackFromMeta m items itemSubId growRate) : m.bitsetCount = 0 :=
  ((comesBack_loop_iff false (.new 128) growRate h hlong hpackable).mp hback).2.symm

/-- **`DynBitMapMetaDataUnPackFromMeta`.**  It forgets the count. -/
theorem comesBack_iff (m : DynBitMap) (items : List MetaDataItem) (itemSubId : UInt64)
    (growRate : Nat) (h : m.WF) (hlong : m.Long)
    (hpackable : Packable (m.metaDataPack items itemSubId)) :
    ComesBack metaDataUnPackFromMeta m items itemSubId growRate ↔
      7 ≤ m.capacity ∧ m.bitsetCount = 0 := by
  have hloop := comesBack_loop_iff false (.new 128) growRate h hlong hpackable
  refine hloop.trans (and_congr_right fun _ => ?_)
  exact eq_comm

/-- A new map, behind an item of another kind. -/
theorem comesBack_iff_new :
    ComesBack metaDataUnPackFromMeta (new 16) [⟨51, 0, [1, 2]⟩] 3 512 ↔
      7 ≤ (new 16).capacity ∧ (new 16).bitsetCount = 0 :=
  comesBack_iff (new 16) [⟨51, 0, [1, 2]⟩] 3 512 (wf_new 16)
    ⟨by decide, by decide, by decide, by decide⟩ ⟨by decide, by decide⟩

/-- One bit is set: the map comes back with the bit and with the count zero. -/
theorem one_bit_loses_the_count :
    ¬ ComesBack metaDataUnPackFromMeta ((new 16).bitSet 5) [] 0 512 :=
  mt (ComesBack.bitsetCount ((wf_new 16).bitSet 5)
    ⟨by decide, by decide, by decide, by decide⟩ ⟨by decide, by decide⟩) (by decide)

end ComesBack

end DynBitMap

end BrbData
