import BrbFramework.Data.MetaData

/-!
# What `MetaDataUnpack` accepts

`unpack_safe_iff` says on which buffers the unpacker reads nothing outside and
succeeds only with all its items. The header is read before anything is
checked, a size field of all ones passes the check of what is left, and the
loop also stops without an error where the buffer ends.

`round_trip_iff` says which packed buffers come back: the last item has to
leave the unpacker `sizeof(MetaDataItem)` bytes, while an item without content
has 25.
-/

namespace BrbData

open Handler Machine List LittleEndian

namespace MetaData

open Unpacker

/-! ## The header -/

/-- `item_count` of the header at `off`. -/
def itemCountAt (raw : List UInt8) (off : Nat) : Int :=
  LittleEndian.toInt ((raw.drop (off + 4)).take 4)

/-- `digest` of the header at `off`. -/
def digestAt (raw : List UInt8) (off : Nat) : List UInt8 := (raw.drop (off + 24)).take 16

/-- The bytes of the magic string of the header at `off`. -/
def strAt (raw : List UInt8) (off : Nat) : List UInt8 := (raw.drop (off + 16)).take 8

section Header

variable {s : Unpacker} {Q : ReturnCode → Unpacker → Prop} {E : Fault → Unpacker → Prop}

def Unpacker.opened (s : Unpacker) : Unpacker :=
  { s with
    offset := uint64 (s.offset + sizeofHeader), curOffset := uint64 (s.curOffset + sizeofHeader) }

theorem opened_offset (h : s.offset + 64 < 2 ^ 64) : s.opened.offset = s.offset + 64 :=
  uint64_of_lt h

theorem ends_digestCheck {hdr : Nat} :
    Ends (digestCheck hdr) s Q E ↔
      (hdr + 40 ≤ s.raw.length →
        if (Md5.final s.md5).toList = digestAt s.raw hdr then Q .success s
        else Q .failedDigestInvalid s) ∧
      (s.raw.length < hdr + 40 → E .outside s) := by
  rw [digestCheck, ends_bind, ends_readBytes, digestAt]
  refine and_congr (imp_congr_right fun _ => ?_) Iff.rfl
  rw [ends_bind, ends_get]
  by_cases heq : (Md5.final s.md5).toList = (s.raw.drop (hdr + 24)).take 16 <;> simp [heq]

theorem ends_unpackRaw (hstr : s.offset + 24 ≤ s.raw.length)
    (hmagic : strAt s.raw s.offset = magicHeader) :
    Ends unpackRaw s Q E ↔
      Ends (unpackItems (itemCountAt s.raw s.offset).toNat) s.opened
        (fun r t => match r with
          | some e => Q e t
          | none => Ends (digestCheck s.offset) t Q E) E := by
  have hmagic : (s.raw.drop (s.offset + 16)).take 8 = magicHeader := hmagic
  rw [unpackRaw, ends_bind, ends_get, ends_bind, ends_readBytes_in (by omega)]
  simp only [hmagic, ne_eq, not_true_eq_false, if_false, ends_bind, increment, ends_modify]
  rw [ends_readBytes_in (by dsimp only; omega)]
  change Ends (unpackItems (itemCountAt s.raw s.offset).toNat) s.opened _ _ ↔ _
  refine ⟨fun h => h.imp (fun r t ht => ?_),
    fun h => h.imp (fun r t ht => ?_)⟩ <;> cases r <;> exact ht

end Header

/-! ## Buffers from anywhere -/

/-- The unpacker reads nothing outside the buffer, and succeeds only with `item_count` items
that lie in it. -/
def DecodesSafely (mb : MemBuffer) : Prop :=
  Ends unpack (start mb)
    (fun code t => code = .success →
      (t.items.length : Int) = itemCountAt (start mb).raw mb.offset ∧
        ∀ item ∈ t.items, item.ptr + item.sz ≤ (start mb).raw.length)
    fun _ _ => False

/-- What a buffer needs for that: a header, no size field of all ones behind items that the
unpacker accepts, and no valid digest where the buffer ends before all items did. -/
structure Harmless (raw : List UInt8) (off : Nat) : Prop where
  str : off + 24 ≤ raw.length
  empty : strAt raw off = magicHeader → itemCountAt raw off ≤ 0 →
    off + 40 ≤ raw.length ∧ (itemCountAt raw off = 0 ∨ (digest []).toList ≠ digestAt raw off)
  header : strAt raw off = magicHeader → 0 < itemCountAt raw off → off + 64 ≤ raw.length
  sizes : strAt raw off = magicHeader → ∀ k : Nat, k < itemCountAt raw off →
    AllWhole raw (off + 64) k → after raw (off + 64) k + sizeofItem ≤ raw.length →
      longAt raw (after raw (off + 64) k + 16) ≠ 2 ^ 64 - 1
  counted : strAt raw off = magicHeader → ∀ k : Nat, 0 < k → k < itemCountAt raw off →
    AllWhole raw (off + 64) k → after raw (off + 64) k = raw.length →
      (digest ((itemsFrom raw (off + 64) k).map (load raw))).toList ≠ digestAt raw off

section Safe

variable {s : Unpacker} {Q : ReturnCode → Unpacker → Prop} {E : Fault → Unpacker → Prop}

theorem itemsFrom_inside {raw : List UInt8} {pos k : Nat} (h : AllWhole raw pos k) :
    ∀ item ∈ itemsFrom raw pos k, item.ptr + item.sz ≤ raw.length := by
  induction k generalizing pos with
  | zero => nofun
  | succ k ih =>
      intro item hitem
      rcases mem_cons.1 hitem with rfl | hitem
      · have hin := h.1.inside
        unfold next at hin
        simp only [itemAt]
        omega
      · exact ih h.2 item hitem

/-- The result the unpacker may leave, for the state `s` it began in. -/
def Unpacker.Fine (s : Unpacker) (code : ReturnCode) (t : Unpacker) : Prop :=
  code = .success → (t.items.length : Int) = itemCountAt s.raw s.offset ∧
    ∀ item ∈ t.items, item.ptr + item.sz ≤ s.raw.length

structure Unpacker.Fresh (s : Unpacker) : Prop where
  small : s.raw.length < 2 ^ 63
  empty : s.items = []
  context : s.md5 = {}

theorem tookAll_fresh (h : s.Fresh) (k : Nat) :
    (s.opened.tookAll k).items = itemsFrom s.raw s.opened.offset k ∧
      (Md5.final (s.opened.tookAll k).md5) =
        digest ((itemsFrom s.raw s.opened.offset k).map (load s.raw)) := by
  rw [tookAll_items, tookAll_md5]
  refine ⟨?_, ?_⟩
  · change s.items ++ _ = _
    rw [h.empty]
    rfl
  · change Md5.final (List.foldl Md5.updateBig s.md5 _) = _
    rw [h.context]
    rfl

theorem safe_of_harmless (hfresh : s.Fresh) (h : Harmless s.raw s.offset) :
    Ends unpackRaw s s.Fine fun _ _ => False := by
  have hsmall := hfresh.small
  have hstr := h.str
  by_cases hmagic : strAt s.raw s.offset = magicHeader
  · rw [ends_unpackRaw hstr hmagic]
    by_cases hcount : itemCountAt s.raw s.offset ≤ 0
    · obtain ⟨hin, hdigest⟩ := h.empty hmagic hcount
      rw [show (itemCountAt s.raw s.offset).toNat = 0 by omega, unpackItems, ends_pure,
        ends_digestCheck]
      refine ⟨fun _ => ?_, fun hout => ?_⟩
      · have hmd5 : Md5.final s.opened.md5 = digest [] := (tookAll_fresh hfresh 0).2
        rw [hmd5]
        split
        · rename_i heq
          refine fun _ => ⟨?_, fun item hitem => ?_⟩
          · change (s.items.length : Int) = _
            rw [hfresh.empty, hdigest.resolve_right fun hne => hne heq]
            rfl
          · have hitem : item ∈ s.items := hitem
            rw [hfresh.empty] at hitem
            cases hitem
        · intro h
          cases h
      · have hout : s.raw.length < s.offset + 40 := hout
        omega
    · have hheader := h.header hmagic (by omega)
      have hoff : s.opened.offset = s.offset + 64 := opened_offset (by omega)
      refine (unpackItems_ends (s := s.opened) hsmall _ (by rw [hoff]; exact hheader)).mono
        (fun r t ht => ?_) fun _ _ hf => ?_
      · rcases ht with ⟨e, rfl, he⟩ | ⟨rfl, k, hk, hall, rfl, hlast⟩
        · exact fun hsuccess => absurd hsuccess he
        · obtain ⟨hitems, hmd5⟩ := tookAll_fresh hfresh k
          have hraw : (s.opened.tookAll k).raw = s.raw := tookAll_raw k s.opened
          have hlast : k = _ ∨ 0 < k ∧ after s.raw s.opened.offset k = s.raw.length := hlast
          rw [hoff] at hitems hmd5 hall hlast
          dsimp only
          rw [ends_digestCheck, hraw]
          refine ⟨fun _ => ?_, fun hout => by omega⟩
          rw [hmd5]
          split
          · rename_i heq
            refine fun _ => ⟨?_, ?_⟩
            · rw [hitems, length_itemsFrom]
              by_contra hne
              exact h.counted hmagic k (by omega) (by omega) hall (by omega) heq
            · rw [hitems]
              exact itemsFrom_inside hall
          · intro h
            cases h
      · obtain ⟨k, hk, hall, hroom, hwraps⟩ := hf
        rw [hoff] at hall hroom hwraps
        exact h.sizes hmagic k (by omega) hall hroom hwraps
  · have hmagic : (s.raw.drop (s.offset + 16)).take 8 ≠ magicHeader := hmagic
    rw [unpackRaw, ends_bind, ends_get, ends_bind, ends_readBytes_in (by omega)]
    simp only [hmagic, ne_eq, not_false_eq_true, if_true, ends_bind, ends_modify, ends_pure]
    intro h
    cases h

theorem harmless_of_safe (hfresh : s.Fresh) (h : Ends unpackRaw s s.Fine fun _ _ => False) :
    Harmless s.raw s.offset := by
  have hsmall := hfresh.small
  have hstr : s.offset + 24 ≤ s.raw.length := by
    by_contra hout
    rw [unpackRaw, ends_bind, ends_get, ends_bind, ends_readBytes] at h
    exact h.2 (by omega)
  by_cases hmagic : strAt s.raw s.offset = magicHeader
  · rw [ends_unpackRaw hstr hmagic] at h
    have hcount : 0 ≤ itemCountAt s.raw s.offset →
        ((itemCountAt s.raw s.offset).toNat : Int) = itemCountAt s.raw s.offset :=
      Int.toNat_of_nonneg
    obtain ⟨n, hn⟩ : ∃ n, (itemCountAt s.raw s.offset).toNat = n := ⟨_, rfl⟩
    rw [hn] at h hcount
    have hheader : 0 < itemCountAt s.raw s.offset → s.offset + 64 ≤ s.raw.length := by
      intro hpos
      by_contra hout
      obtain ⟨n, rfl⟩ : ∃ m, n = m + 1 := ⟨n - 1, by omega⟩
      have hoff : s.opened.offset = s.offset + 64 := opened_offset (by omega)
      have hfault := unpackItems_behind (s := s.opened) 
        (by rw [hoff]; change s.raw.length < _; omega)
        (by rw [hoff]; change _ ≤ s.raw.length + 40; omega) n
      exact not_ends_false ((h.and hfault).mono (fun _ _ ht => ht.2) fun _ _ hf => hf.1)
    refine ⟨hstr, fun _ hneg => ?_, fun _ => hheader, fun _ k hk hall hroom hwraps => ?_,
      fun _ k hpos hk hall hend heq => ?_⟩
    · rw [show n = 0 by omega, unpackItems, ends_pure, ends_digestCheck] at h
      have hmd5 : Md5.final s.opened.md5 = digest [] := (tookAll_fresh hfresh 0).2
      have hin : s.offset + 40 ≤ s.raw.length := by
        by_contra hout
        exact h.2 (by change s.raw.length < _; omega)
      refine ⟨hin, ?_⟩
      by_contra hboth
      obtain ⟨hzero, heq⟩ := not_or.1 hboth
      have heq : (digest []).toList = digestAt s.opened.raw s.offset := not_not.1 heq
      have hfine := h.1 hin
      rw [hmd5, if_pos heq] at hfine
      have hlen : (s.items.length : Int) = itemCountAt s.raw s.offset := (hfine rfl).1
      rw [hfresh.empty] at hlen
      exact hzero hlen.symm
    · have hoff : s.opened.offset = s.offset + 64 := opened_offset (by omega)
      obtain ⟨m, rfl⟩ : ∃ m, n = k + (m + 1) := ⟨n - k - 1, by omega⟩
      rw [← hoff] at hall hroom hwraps
      rw [unpackItems_walk (s := s.opened) hsmall _ hall, if_neg] at h
      · have hfault := unpackItems_wraps (s := s.opened.tookAll k)
          (by rw [tookAll_raw]; exact hsmall)
          (by rw [tookAll_raw, tookAll_offset]; exact hroom)
          (by rw [tookAll_raw, tookAll_offset]; exact hwraps) m
        exact not_ends_false ((h.and hfault).mono (fun _ _ ht => ht.2) fun _ _ hf => hf.1)
      · rintro ⟨-, hend⟩
        have hend : after s.raw s.opened.offset k = s.raw.length := hend
        unfold sizeofItem at hroom
        omega
    · have hoff : s.opened.offset = s.offset + 64 := opened_offset (by omega)
      obtain ⟨m, rfl⟩ : ∃ m, n = k + m := ⟨n - k, by omega⟩
      obtain ⟨hitems, hmd5⟩ := tookAll_fresh hfresh k
      have hraw : (s.opened.tookAll k).raw = s.raw := tookAll_raw k s.opened
      rw [← hoff] at hall hend heq
      rw [unpackItems_walk (s := s.opened) hsmall _ hall, if_pos ⟨hpos, hend⟩] at h
      dsimp only at h
      rw [ends_digestCheck, hraw, hmd5, if_pos heq] at h
      have hlen := (h.1 (by omega) rfl).1
      rw [hitems, length_itemsFrom] at hlen
      omega
  · exact ⟨hstr, fun hm => absurd hm hmagic, fun hm => absurd hm hmagic,
      fun hm => absurd hm hmagic, fun hm => absurd hm hmagic⟩

/-- **Untrusted buffers.**  The unpacker is safe on the buffers that are `Harmless`, and on no
others. -/
theorem unpack_safe_iff (mb : MemBuffer) (hsize : mb.size < 2 ^ 63) :
    DecodesSafely mb ↔ Harmless (mb.data.take mb.size) mb.offset := by
  have hfresh : (start mb).Fresh :=
    ⟨Nat.lt_of_le_of_lt (length_take_le _ _) hsize, rfl, rfl⟩
  simp only [DecodesSafely, unpack, ends_bind, ends_get, ends_modify, ends_pure]
  exact ⟨fun h => harmless_of_safe hfresh h, fun h => safe_of_harmless hfresh h⟩

theorem unpack_safe_iff_empty :
    DecodesSafely (.new 64) ↔ Harmless ((MemBuffer.new 64).data.take (MemBuffer.new 64).size) 0 :=
  unpack_safe_iff (.new 64) (by decide)

/-- A header that announces one item, and an item with a size field of all ones. -/
def wrappingBuffer : MemBuffer :=
  (MemBuffer.new 64).add (LittleEndian.ofInt 4 0 ++ LittleEndian.ofInt 4 1 ++
    LittleEndian.ofNat 8 0 ++ magicHeader ++ List.replicate 40 0 ++ LittleEndian.ofNat 8 1 ++
    LittleEndian.ofNat 8 0 ++ List.replicate 8 0xFF ++ List.replicate 8 0)

/-- With the separator added the size is zero, and the digest reads all of memory. -/
theorem wrapping_size_reads_outside : ¬ DecodesSafely wrappingBuffer := by
  unfold DecodesSafely
  decide

end Safe

/-! ## Packed items -/

/-- An item as `MetaDataPack` writes it. -/
def itemBytes (item : MetaDataItem) : List UInt8 :=
  LittleEndian.ofNat 8 item.itemId.toNat ++ LittleEndian.ofNat 8 item.itemSubId.toNat ++
    LittleEndian.ofNat 8 item.content.length ++ item.content ++ [unitSeparator]

@[simp] theorem length_itemBytes (item : MetaDataItem) :
    (itemBytes item).length = item.content.length + 25 := by
  simp [itemBytes]
  omega

def reload (raw : List UInt8) (item : MetaDataItem.Found) : MetaDataItem :=
  ⟨item.itemId, item.itemSubId, load raw item⟩

theorem pack_bytes (items : List MetaDataItem) (growRate : Nat) :
    (pack items (.new growRate)).Plain ∧
      (pack items (.new growRate)).bytes =
        (headerLoadData items).bytes ++ items.flatMap itemBytes := by
  suffices h : ∀ (rest : List MetaDataItem) (mb : MemBuffer), mb.Plain →
      (rest.foldl packItem mb).Plain ∧
        (rest.foldl packItem mb).bytes = mb.bytes ++ rest.flatMap itemBytes by
    obtain ⟨hplain, hbytes⟩ := h items _ ((MemBuffer.plain_new growRate).add _)
    refine ⟨hplain, hbytes.trans ?_⟩
    rw [(MemBuffer.plain_new growRate).bytes_add, MemBuffer.bytes_new, nil_append]
  intro rest
  induction rest with
  | nil => exact fun mb hmb => ⟨hmb, (append_nil _).symm⟩
  | cons item rest ih =>
      intro mb hmb
      have hid := hmb.add (ofNat 8 item.itemId.toNat)
      have hsub := hid.add (ofNat 8 item.itemSubId.toNat)
      have hsz := hsub.add (ofNat 8 item.content.length)
      have hdata := hsz.add item.content
      obtain ⟨hplain, hbytes⟩ := ih (packItem mb item) (hdata.add [unitSeparator])
      refine ⟨hplain, hbytes.trans ?_⟩
      rw [packItem, hdata.bytes_add, hsz.bytes_add, hsub.bytes_add, hid.bytes_add, hmb.bytes_add]
      simp [itemBytes, append_assoc]

theorem slice_append {pre mid post : List UInt8} {n k : Nat} (hn : n = pre.length)
    (hk : k = mid.length) : ((pre ++ mid ++ post).drop n).take k = mid := by
  rw [hn, hk, append_assoc, drop_left, take_left]

theorem longAt_append (pre post : List UInt8) {n pos : Nat} (hn : n < 2 ^ 64)
    (hpos : pos = pre.length) : longAt (pre ++ ofNat 8 n ++ post) pos = n := by
  rw [longAt, slice_append hpos (length_ofNat 8 n).symm, toNat_ofNat]
  exact Nat.mod_eq_of_lt hn

theorem item_found (pre post : List UInt8) (item : MetaDataItem)
    (hsize : item.content.length < 2 ^ 64) {raw : List UInt8}
    (hraw : raw = pre ++ itemBytes item ++ post) :
    next raw pre.length = pre.length + (itemBytes item).length ∧
      reload raw (itemAt raw pre.length) = item ∧
      (raw.drop (pre.length + itemRawSz + longAt raw (pre.length + 16))).take 1 =
        [unitSeparator] := by
  obtain ⟨id, hid⟩ : ∃ l, ofNat 8 item.itemId.toNat = l := ⟨_, rfl⟩
  obtain ⟨sub, hsub⟩ : ∃ l, ofNat 8 item.itemSubId.toNat = l := ⟨_, rfl⟩
  obtain ⟨sz, hsz⟩ : ∃ l, ofNat 8 item.content.length = l := ⟨_, rfl⟩
  have hidLen : id.length = 8 := hid ▸ length_ofNat 8 _
  have hsubLen : sub.length = 8 := hsub ▸ length_ofNat 8 _
  have hszLen : sz.length = 8 := hsz ▸ length_ofNat 8 _
  have hbytes : itemBytes item = id ++ sub ++ sz ++ item.content ++ [unitSeparator] := by
    rw [itemBytes, hid, hsub, hsz]
  have hlongId : longAt raw pre.length = item.itemId.toNat := by
    have hsplit : raw = pre ++ ofNat 8 item.itemId.toNat ++
        (sub ++ sz ++ item.content ++ [unitSeparator] ++ post) := by
      simp [hraw, hbytes, hid]
    rw [hsplit]
    exact longAt_append _ _ item.itemId.toNat_lt rfl
  have hlongSub : longAt raw (pre.length + 8) = item.itemSubId.toNat := by
    have hsplit : raw = pre ++ id ++ ofNat 8 item.itemSubId.toNat ++
        (sz ++ item.content ++ [unitSeparator] ++ post) := by
      simp [hraw, hbytes, hsub]
    rw [hsplit]
    exact longAt_append _ _ item.itemSubId.toNat_lt (by simp [hidLen])
  have hlongSz : longAt raw (pre.length + 16) = item.content.length := by
    have hsplit : raw = pre ++ id ++ sub ++ ofNat 8 item.content.length ++
        (item.content ++ [unitSeparator] ++ post) := by
      simp [hraw, hbytes, hsz]
    rw [hsplit]
    exact longAt_append _ _ hsize (by simp [hidLen, hsubLen])
  refine ⟨?_, ?_, ?_⟩
  · rw [next, hlongSz, length_itemBytes, itemRawSz]
    omega
  · have hcontent : (raw.drop (pre.length + itemRawSz)).take item.content.length =
        item.content := by
      have hsplit : raw = pre ++ id ++ sub ++ sz ++ item.content ++ ([unitSeparator] ++ post) := by
        simp [hraw, hbytes]
      rw [hsplit]
      exact slice_append (by simp [hidLen, hsubLen, hszLen, itemRawSz]) rfl
    simp only [reload, itemAt, load, hlongId, hlongSub, hlongSz, hcontent, UInt64.ofNat_toNat]
  · have hsplit : raw = pre ++ id ++ sub ++ sz ++ item.content ++ [unitSeparator] ++ post := by
      simp [hraw, hbytes]
    rw [hlongSz, hsplit]
    exact slice_append (by simp [hidLen, hsubLen, hszLen, itemRawSz]; omega) rfl

theorem packed_items (rest : List MetaDataItem) : ∀ (pre post raw : List UInt8),
    raw = pre ++ rest.flatMap itemBytes ++ post → raw.length < 2 ^ 63 →
      (∀ last ∈ rest.getLast?, 7 ≤ last.content.length + post.length) →
        AllWhole raw pre.length rest.length ∧
          after raw pre.length rest.length = (pre ++ rest.flatMap itemBytes).length ∧
          (itemsFrom raw pre.length rest.length).map (reload raw) = rest := by
  induction rest with
  | nil =>
      intro pre post raw hraw _ _
      exact ⟨trivial, by simp [after], rfl⟩
  | cons item rest ih =>
      intro pre post raw hraw hsmall hlast
      have hraw' : raw = pre ++ itemBytes item ++ (rest.flatMap itemBytes ++ post) := by
        simp [hraw]
      have hlen : raw.length = pre.length + (item.content.length + 25) +
          ((rest.flatMap itemBytes).length + post.length) := by
        rw [hraw', length_append, length_append, length_append, length_itemBytes]
      obtain ⟨hnext, hreload, hcanary⟩ := item_found pre _ item (by omega) hraw'
      have hroom : 7 ≤ item.content.length + ((rest.flatMap itemBytes).length + post.length) := by
        cases rest with
        | nil => simpa using hlast item rfl
        | cons other rest =>
            rw [flatMap_cons, length_append, length_itemBytes]
            omega
      have hpre : (pre ++ itemBytes item).length = next raw pre.length := by
        rw [hnext, length_append]
      obtain ⟨hall, hafter, hitems⟩ := ih (pre ++ itemBytes item) post raw (by simp [hraw]) hsmall
        fun last hl => hlast last (by
          cases rest with
          | nil => cases hl
          | cons other rest => exact hl)
      rw [hpre] at hall hafter hitems
      refine ⟨⟨⟨?_, ?_, hcanary⟩, hall⟩, ?_, ?_⟩
      · unfold sizeofItem
        omega
      · rw [hnext, length_itemBytes]
        omega
      · rw [length_cons, after, hafter]
        simp
      · rw [length_cons, itemsFrom, map_cons, hreload, hitems]

theorem header_found (items : List MetaDataItem) (rest : List UInt8)
    (hcount : items.length < 2 ^ 31) {raw : List UInt8}
    (hraw : raw = (headerLoadData items).bytes ++ rest) :
    strAt raw 0 = magicHeader ∧ itemCountAt raw 0 = items.length ∧
      digestAt raw 0 = (digest (items.map (·.content))).toList := by
  obtain ⟨version, hversion⟩ : ∃ l, ofInt 4 0 = l := ⟨_, rfl⟩
  obtain ⟨count, hcountBytes⟩ : ∃ l, ofInt 4 (items.length : Int) = l := ⟨_, rfl⟩
  obtain ⟨size, hsize⟩ : ∃ l, ofNat 8 (headerLoadData items).size = l := ⟨_, rfl⟩
  have hversionLen : version.length = 4 := hversion ▸ length_ofInt 4 _
  have hcountLen : count.length = 4 := hcountBytes ▸ length_ofInt 4 _
  have hsizeLen : size.length = 8 := hsize ▸ length_ofNat 8 _
  have hmagicLen : magicHeader.length = 8 := rfl
  have hbytes : raw = version ++ count ++ size ++ magicHeader ++
      (digest (items.map (·.content))).toList ++ (List.replicate 24 0 ++ rest) := by
    rw [hraw, Header.bytes, ← hversion, ← hcountBytes, ← hsize]
    simp [headerLoadData]
  refine ⟨?_, ?_, ?_⟩
  · have hsplit : raw = (version ++ count ++ size) ++ magicHeader ++
        ((digest (items.map (·.content))).toList ++ (List.replicate 24 0 ++ rest)) := by
      simp [hbytes]
    rw [strAt, hsplit]
    exact slice_append (by simp [hversionLen, hcountLen, hsizeLen]) hmagicLen.symm
  · have hsplit : raw = version ++ count ++ (size ++ magicHeader ++
        (digest (items.map (·.content))).toList ++ (List.replicate 24 0 ++ rest)) := by
      simp [hbytes]
    rw [itemCountAt, hsplit, slice_append (by simp [hversionLen]) hcountLen.symm, ← hcountBytes]
    exact toInt_ofInt (by omega) (by omega)
  · rw [digestAt, hbytes]
    exact slice_append (by simp [hversionLen, hcountLen, hsizeLen, hmagicLen]) (by simp)

/-- What the unpacker makes of the buffer that `MetaDataPack` wrote. -/
def RoundTrips (items : List MetaDataItem) (growRate : Nat) : Prop :=
  Ends unpack (start (pack items (.new growRate)))
    (fun code t => code = .success ∧
      t.items.map (reload (start (pack items (.new growRate))).raw) = items)
    fun _ _ => False

/-- A list of items as a program can hold it: an `int` counts them, and they fit in a buffer. -/
structure Packable (items : List MetaDataItem) : Prop where
  count : items.length < 2 ^ 31
  size : 64 + (items.map fun item => item.content.length + 25).sum < 2 ^ 63

section Packed

variable {items : List MetaDataItem} {growRate : Nat}

/-- The unpacker on a packed buffer gets as far as its loop. -/
structure Opened (items : List MetaDataItem) (s : Unpacker) : Prop extends s.Fresh where
  offset : s.offset = 0
  raw : s.raw = (headerLoadData items).bytes ++ items.flatMap itemBytes
  str : strAt s.raw 0 = magicHeader
  itemCount : itemCountAt s.raw 0 = items.length
  digestBytes : digestAt s.raw 0 = (digest (items.map (·.content))).toList

theorem length_header (items : List MetaDataItem) : (headerLoadData items).bytes.length = 64 := by
  simp [Header.bytes, headerLoadData, magicHeader]

theorem Packable.opened (h : Packable items) (growRate : Nat) :
    Opened items (start (pack items (.new growRate))) := by
  obtain ⟨hplain, hbytes⟩ := pack_bytes items growRate
  have hraw : (start (pack items (.new growRate))).raw =
      (headerLoadData items).bytes ++ items.flatMap itemBytes := by
    rw [← hbytes, hplain.bytes]
    rfl
  obtain ⟨hstr, hcount, hdigest⟩ := header_found items _ h.count hraw
  refine ⟨⟨?_, rfl, rfl⟩, hplain.offset, hraw, hstr, hcount, hdigest⟩
  have hsize := h.size
  rw [hraw, length_append, length_header, length_flatMap]
  simpa using hsize

theorem Opened.ends {s : Unpacker} (h : Opened items s) {Q : ReturnCode → Unpacker → Prop} :
    Ends unpackRaw s Q (fun _ _ => False) ↔
      Ends (unpackItems items.length) s.opened
        (fun r t => match r with
          | some e => Q e t
          | none => Ends (digestCheck 0) t Q fun _ _ => False) fun _ _ => False := by
  have hlen : 64 ≤ s.raw.length := by
    rw [h.raw, length_append, length_header]
    omega
  have hstr := h.str
  have hcount := h.itemCount
  have hoff := h.offset
  rw [← hoff] at hstr hcount
  rw [ends_unpackRaw (by omega) hstr, hcount, hoff, Int.toNat_natCast]

theorem Packable.finds (h : Packable items)
    (hlast : ∀ last ∈ items.getLast?, 7 ≤ last.content.length) {s : Unpacker}
    (hs : start (pack items (.new growRate)) = s) :
    AllWhole s.raw 64 items.length ∧
      (itemsFrom s.raw 64 items.length).map (reload s.raw) = items ∧
      Ends unpack s
        (fun code t => code = .success ∧ t.raw = s.raw ∧
          t.items = itemsFrom s.raw 64 items.length) fun _ _ => False := by
  have hopened := hs ▸ h.opened growRate
  have hsmall := hopened.small
  have hlen : s.raw.length = 64 + (items.flatMap itemBytes).length := by
    rw [hopened.raw, length_append, length_header]
  have hoff : s.opened.offset = 64 := by
    rw [opened_offset (by have := hopened.offset; omega), hopened.offset]
  obtain ⟨hall, hafter, hitems⟩ := packed_items items (headerLoadData items).bytes [] s.raw
    (by rw [hopened.raw, append_nil]) hsmall fun last hl => by
      have := hlast last hl
      omega
  rw [length_header] at hall hafter hitems
  refine ⟨hall, hitems, ?_⟩
  rw [← hoff] at hall hafter hitems ⊢
  have hend : after s.raw s.opened.offset items.length = s.raw.length := by
    rw [hafter, ← hopened.raw]
  obtain ⟨htook, hmd5⟩ := tookAll_fresh hopened.toFresh items.length
  have hraw : (s.opened.tookAll items.length).raw = s.raw := tookAll_raw _ s.opened
  have hcontents : (itemsFrom s.raw s.opened.offset items.length).map (load s.raw) =
      items.map (·.content) := by
    conv_rhs => rw [← hitems, map_map]
    rfl
  simp only [unpack, ends_bind, ends_get, ends_modify, ends_pure]
  rw [hopened.ends, ← Nat.add_zero items.length, unpackItems_walk (s := s.opened) hsmall 0 hall]
  have hdigest : Ends (digestCheck 0) (s.opened.tookAll items.length)
      (fun code t => code = .success ∧ t.raw = s.raw ∧
        t.items = itemsFrom s.raw s.opened.offset items.length) fun _ _ => False := by
    rw [ends_digestCheck, hraw, hmd5, hcontents, if_pos hopened.digestBytes.symm]
    exact ⟨fun _ => ⟨rfl, rfl, htook⟩, fun hout => by omega⟩
  split
  · exact hdigest
  · rw [unpackItems, ends_pure]
    exact hdigest

theorem Packable.returns (h : Packable items)
    (hlast : ∀ last ∈ items.getLast?, 7 ≤ last.content.length) : RoundTrips items growRate := by
  obtain ⟨-, hitems, hends⟩ := @Packable.finds items growRate h hlast _ rfl
  refine hends.imp fun code t ht => ?_
  obtain ⟨hcode, -, hfound⟩ := ht
  rw [hfound]
  exact ⟨hcode, hitems⟩

theorem short_last_item_ends {init : List MetaDataItem} {last : MetaDataItem}
    (h : Packable (init ++ [last])) (hshort : last.content.length < 7) :
    Ends unpack (start (pack (init ++ [last]) (.new growRate)))
      (fun code _ => code = .failedNeedMoreDataMetaitem) fun _ _ => False := by
  have hopened := h.opened growRate
  obtain ⟨s, hs⟩ : ∃ s, start (pack (init ++ [last]) (.new growRate)) = s := ⟨_, rfl⟩
  rw [hs] at hopened ⊢
  have hsmall := hopened.small
  have hraw : s.raw = (headerLoadData (init ++ [last])).bytes ++ init.flatMap itemBytes ++
      itemBytes last := by
    rw [hopened.raw]
    simp
  have hlen : s.raw.length = 64 + (init.flatMap itemBytes).length + (last.content.length + 25) := by
    rw [hraw, length_append, length_append, length_header, length_itemBytes]
  have hoff : s.opened.offset = 64 := by
    rw [opened_offset (by have := hopened.offset; omega), hopened.offset]
  obtain ⟨hall, hafter, -⟩ := packed_items init (headerLoadData (init ++ [last])).bytes
    (itemBytes last) s.raw hraw hsmall fun _ _ => by
      rw [length_itemBytes]
      omega
  rw [length_header, ← hoff] at hall hafter
  rw [length_append, length_header] at hafter
  simp only [unpack, ends_bind, ends_get, ends_modify, ends_pure]
  rw [hopened.ends, length_append, length_singleton,
    unpackItems_walk (s := s.opened) hsmall 1 hall, if_neg]
  · have hfails := unpackItems_short (s := s.opened.tookAll init.length)
      (by rw [tookAll_raw, tookAll_offset]; change after s.raw _ _ ≤ s.raw.length; omega)
      (by rw [tookAll_raw]; exact hsmall)
      (by
        rw [tookAll_raw, tookAll_offset]
        change s.raw.length < after s.raw _ _ + 32
        omega) 0
    refine hfails.imp fun r t ht => ?_
    rw [ht]
  · rintro ⟨-, hend⟩
    have hend : after s.raw s.opened.offset init.length = s.raw.length := hend
    omega

theorem short_last_item_fails {init : List MetaDataItem} {last : MetaDataItem}
    (h : Packable (init ++ [last])) (hshort : last.content.length < 7) :
    ¬ RoundTrips (init ++ [last]) growRate := by
  intro hends
  have hfails := @short_last_item_ends growRate _ _ h hshort
  refine not_ends_false ((hends.and hfails).mono (fun code t ht => ?_) fun _ _ hf => hf.1)
  rw [ht.2] at ht
  cases ht.1.1

/-- **Round trip.**  What `MetaDataPack` wrote comes back if and only if there is no item or the
last one has at least 7 bytes. -/
theorem round_trip_iff (items : List MetaDataItem) (growRate : Nat) (h : Packable items) :
    RoundTrips items growRate ↔ ∀ last ∈ items.getLast?, 7 ≤ last.content.length := by
  refine ⟨fun hreturns last hlast => ?_, h.returns⟩
  by_contra hshort
  obtain ⟨init, rfl⟩ : ∃ init, items = init ++ [last] := getLast?_eq_some_iff.1 hlast
  exact short_last_item_fails h (by omega) hreturns

theorem round_trip_iff_two_items :
    RoundTrips [⟨51, 0, []⟩, ⟨52, 1, List.replicate 7 0x61⟩] 512 ↔
      ∀ last ∈ [(⟨51, 0, []⟩ : MetaDataItem), ⟨52, 1, List.replicate 7 0x61⟩].getLast?,
        7 ≤ last.content.length :=
  round_trip_iff _ 512 ⟨by decide, by decide⟩

/-- One item without content. -/
theorem empty_item_does_not_return : ¬ RoundTrips [⟨51, 0, []⟩] 512 :=
  @short_last_item_fails 512 [] ⟨51, 0, []⟩ ⟨by decide, by decide⟩ (by decide)

end Packed

end MetaData

end BrbData
