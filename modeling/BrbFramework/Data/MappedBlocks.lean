import BrbFramework.Data.MappedCompleted

/-!
# The blocks of a mapped memory buffer

Whatever its content, a block of a `MemBufferMapped` is in one of three states:
nothing of it is there, its partial page has the bytes from one place to
another, or its bit is set. `Block.write` says what a write of some range makes
of a block, `view` reads the blocks of a buffer, and `write_moves` shows that
`MemBufferMappedWrite` does to all blocks at once what `Block.write` says.

`Shape` is what the functions keep in a buffer for a content of `total` bytes.
-/

namespace BrbData

open Handler Machine List

namespace MemBufferMapped

inductive Block
  | empty
  | part (lo hi : Nat)
  | full
  deriving DecidableEq, Repr

namespace Block

/-- `n` bytes at `rel` that `MemBufferMappedPartialDataProcess` drops. -/
def Drops (lo hi rel n : Nat) : Prop :=
  (rel < lo ∧ rel + n < lo) ∨ lo + hi < rel ∨ (lo < rel ∧ rel + n < lo + hi)

instance (lo hi rel n : Nat) : Decidable (Drops lo hi rel n) :=
  inferInstanceAs (Decidable (_ ∨ _))

/-- A partial page is complete when its bytes are as many as those of a page. -/
def settle (page lo hi : Nat) : Block :=
  if page ≤ hi - lo then full else part lo hi

/-- The block after `n` bytes at `rel`. -/
def take (page rel n : Nat) : Block → Block
  | empty => settle page rel (rel + n)
  | part lo hi =>
      if Drops lo hi rel n then part lo hi else settle page (min lo rel) (max hi (rel + n))
  | full => full

/-- How many of the `n` bytes at `off` lie in the block `b`. -/
def share (page off n b : Nat) : Nat :=
  min (off + n) (b * page + page) - max off (b * page)

/-- The block `b` after a write of `n` bytes at `off`. -/
def write (page off n b : Nat) (v : Block) : Block :=
  if 0 < share page off n b then v.take page (off - b * page) (share page off n b) else v

variable {page off n m b i : Nat} {v : Block}

theorem write_outside (off n : Nat) (h : off + n ≤ b * page ∨ b * page + page ≤ off) :
    write page off n b v = v := by
  have hnone : ¬ 0 < share page off n b := by
    unfold share
    omega
  exact if_neg hnone

theorem write_nothing : write page off 0 b v = v := by
  have hnone : ¬ 0 < share page off 0 b := by
    unfold share
    omega
  exact if_neg hnone

theorem write_inside (hfit : off + n ≤ page) :
    write page (i * page + off) n b v = if b = i ∧ 0 < n then v.take page off n else v := by
  by_cases hb : b = i
  · subst hb
    have hshare : share page (b * page + off) n b = n := by
      unfold share
      omega
    unfold write
    rw [hshare, Nat.add_sub_cancel_left]
    simp
  · rw [if_neg fun h => hb h.1]
    apply write_outside
    rcases Nat.lt_or_gt_of_ne hb with hlt | hgt
    · have hle : (b + 1) * page ≤ i * page := Nat.mul_le_mul_right _ hlt
      rw [Nat.succ_mul] at hle
      omega
    · have hle : (i + 1) * page ≤ b * page := Nat.mul_le_mul_right _ hgt
      rw [Nat.succ_mul] at hle
      omega

theorem write_split (hborder : off + n = i * page) :
    write page off (n + m) b v = write page (off + n) m b (write page off n b v) := by
  rcases Nat.lt_or_ge b i with hlt | hge
  · have hle : (b + 1) * page ≤ i * page := Nat.mul_le_mul_right _ hlt
    rw [Nat.succ_mul] at hle
    have hshare : share page off (n + m) b = share page off n b := by
      unfold share
      omega
    rw [write_outside (off + n) _ (.inr (by omega))]
    unfold write
    rw [hshare]
  · have hle : i * page ≤ b * page := Nat.mul_le_mul_right _ hge
    have hshare : share page off (n + m) b = share page (off + n) m b := by
      unfold share
      omega
    rw [write_outside _ n (.inl (by omega))]
    unfold write
    rw [hshare, Nat.sub_eq_zero_of_le (by omega), Nat.sub_eq_zero_of_le (by omega)]

theorem take_page (hpart : ∀ lo hi, v = part lo hi → lo < hi ∧ hi ≤ page) :
    v.take page 0 page = full := by
  cases v with
  | empty => simp [take, settle]
  | full => rfl
  | part lo hi =>
      obtain ⟨hlow, hhigh⟩ := hpart lo hi rfl
      have hkept : ¬ Drops lo hi 0 page := by
        unfold Drops
        omega
      have hall : page ≤ max hi (0 + page) - min lo 0 := by omega
      simp only [take, if_neg hkept, settle, if_pos hall]

theorem write_pages (hpage : 0 < page)
    (hpart : ∀ lo hi, v = part lo hi → lo < hi ∧ hi ≤ page) :
    write page (i * page) (m * page) b v = if i ≤ b ∧ b < i + m then full else v := by
  by_cases hb : i ≤ b ∧ b < i + m
  · have hlow : i * page ≤ b * page := Nat.mul_le_mul_right _ hb.1
    have hhigh : (b + 1) * page ≤ (i + m) * page := Nat.mul_le_mul_right _ hb.2
    rw [Nat.succ_mul, Nat.add_mul] at hhigh
    have hshare : share page (i * page) (m * page) b = page := by
      unfold share
      omega
    unfold write
    rw [hshare, if_pos hpage, Nat.sub_eq_zero_of_le hlow, if_pos hb]
    exact take_page hpart
  · rw [if_neg hb]
    apply write_outside
    rcases Nat.lt_or_ge b i with hlt | hge
    · have hle : (b + 1) * page ≤ i * page := Nat.mul_le_mul_right _ hlt
      rw [Nat.succ_mul] at hle
      omega
    · have hle : (i + m) * page ≤ b * page := Nat.mul_le_mul_right _ (by omega)
      rw [Nat.add_mul] at hle
      omega

end Block

/-- What the buffer has of the block `b`. -/
def view (s : MemBufferMapped) (b : Nat) : Block :=
  if s.dynBitmap.bitTest b then .full
  else
    match s.partialGetByIdx b with
    | some p => .part p.userLong p.mb.getSize
    | none => .empty

/-! ## The shape of a buffer -/

/-- A partial page has some bytes of its block, not all of them, and the main buffer
reaches to their end. -/
structure PagePart.Fits (s : MemBufferMapped) (p : PagePart) : Prop where
  plain : p.mb.Plain
  low : p.userLong < p.mb.size
  high : p.mb.size ≤ s.pageSz
  short : p.mb.size - p.userLong < s.pageSz
  block : ∃ b : Nat, p.userInt = b ∧ s.dynBitmap.bitTest b = false ∧
    b * s.pageSz + p.mb.size ≤ s.mainMb.size

/-- The shape of a buffer for a content of `total` bytes. -/
structure Shape (total : Nat) (s : MemBufferMapped) : Prop where
  page : 0 < s.pageSz
  small : total / s.pageSz < 2 ^ 31
  plain : s.mainMb.Plain
  bitmap : s.dynBitmap.WF
  size : s.mainMb.size ≤ total
  complete : ∀ b, s.dynBitmap.bitTest b = true →
    b * s.pageSz < total ∧ min total (b * s.pageSz + s.pageSz) ≤ s.mainMb.size
  single : s.partialMbList.Pairwise fun p q => p.userInt ≠ q.userInt
  parts : ∀ p ∈ s.partialMbList, p.Fits s

section Shape

variable {total : Nat} {s t u : MemBufferMapped} {b i n : Nat} {p q : PagePart}

theorem view_bit (h : s.dynBitmap.bitTest b = true) : s.view b = .full := if_pos h

theorem view_clear (h : s.dynBitmap.bitTest b = false) :
    s.view b = match s.partialGetByIdx b with
      | some p => .part p.userLong p.mb.getSize
      | none => .empty :=
  if_neg (by simp [h])

theorem view_eq_full : s.view b = .full ↔ s.dynBitmap.bitTest b = true := by
  constructor
  · intro h
    by_contra hclear
    rw [view_clear (by simpa using hclear)] at h
    cases hpart : s.partialGetByIdx b with
    | none => simp [hpart] at h
    | some p => simp [hpart] at h
  · exact view_bit

theorem Shape.view_page (h : Shape total s) (hpart : s.partialGetByIdx b = some p) :
    s.dynBitmap.bitTest b = false ∧ s.view b = .part p.userLong p.mb.size := by
  obtain ⟨hmem, hindex⟩ := find_index hpart
  have hfits := h.parts p hmem
  obtain ⟨k, hk, hclear, -⟩ := hfits.block
  obtain rfl : b = k := by omega
  refine ⟨hclear, ?_⟩
  rw [view_clear hclear, hpart]
  simp only [hfits.plain.getSize]

theorem Shape.page_of_view (h : Shape total s) {lo hi : Nat} (hview : s.view b = .part lo hi) :
    ∃ p, s.partialGetByIdx b = some p ∧ p.Fits s ∧ p.userLong = lo ∧ p.mb.size = hi := by
  have hclear : s.dynBitmap.bitTest b = false := by
    by_contra hset
    rw [view_bit (by simpa using hset)] at hview
    cases hview
  rw [view_clear hclear] at hview
  cases hpart : s.partialGetByIdx b with
  | none => simp [hpart] at hview
  | some p =>
      have hfits := h.parts p (find_index hpart).1
      rw [hpart] at hview
      simp only [Block.part.injEq, hfits.plain.getSize] at hview
      exact ⟨p, rfl, hfits, hview.1, hview.2⟩

theorem Shape.part (h : Shape total s) {lo hi : Nat} (hview : s.view b = .part lo hi) :
    lo < hi ∧ hi ≤ s.pageSz ∧ hi - lo < s.pageSz ∧ b * s.pageSz + hi ≤ s.mainMb.size := by
  obtain ⟨p, hpart, hfits, rfl, rfl⟩ := h.page_of_view hview
  obtain ⟨k, hk, -, hreach⟩ := hfits.block
  have hindex := (find_index hpart).2
  obtain rfl : b = k := by omega
  exact ⟨hfits.low, hfits.high, hfits.short, hreach⟩

theorem Shape.update (h : Shape total s) (hpage : t.pageSz = s.pageSz) (hplain : t.mainMb.Plain)
    (hgrow : s.mainMb.size ≤ t.mainMb.size) (hsize : t.mainMb.size ≤ total)
    (hbitmap : t.dynBitmap.WF)
    (hcomplete : ∀ b, t.dynBitmap.bitTest b = true → s.dynBitmap.bitTest b = true ∨
      b * s.pageSz < total ∧ min total (b * s.pageSz + s.pageSz) ≤ t.mainMb.size)
    (hsingle : t.partialMbList.Pairwise fun p q => p.userInt ≠ q.userInt)
    (hparts : ∀ p ∈ t.partialMbList, p.Fits t ∨ p ∈ s.partialMbList ∧
      ∀ b : Nat, p.userInt = b → t.dynBitmap.bitTest b = s.dynBitmap.bitTest b) :
    Shape total t where
  page := hpage ▸ h.page
  small := hpage ▸ h.small
  plain := hplain
  bitmap := hbitmap
  size := hsize
  complete b hset := by
    rw [hpage]
    rcases hcomplete b hset with hold | hnew
    · have hreach := h.complete b hold
      exact ⟨hreach.1, hreach.2.trans hgrow⟩
    · exact hnew
  single := hsingle
  parts p hp := by
    rcases hparts p hp with hnew | ⟨hold, hsame⟩
    · exact hnew
    · have hfits := h.parts p hold
      obtain ⟨b, hb, hclear, hreach⟩ := hfits.block
      refine ⟨hfits.plain, hfits.low, hpage ▸ hfits.high, hpage ▸ hfits.short, b, hb, ?_, ?_⟩
      · rw [hsame b hb, hclear]
      · rw [hpage]
        exact hreach.trans hgrow

theorem mem_eraseP_single {l : List PagePart} {a : Int}
    (hsingle : l.Pairwise fun p q => p.userInt ≠ q.userInt)
    (hmem : p ∈ l.eraseP fun p => p.userInt = a) : p ∈ l ∧ p.userInt ≠ a := by
  induction l with
  | nil => cases hmem
  | cons q l ih =>
      rw [pairwise_cons] at hsingle
      by_cases hq : q.userInt = a
      · rw [eraseP_cons_of_pos (by simpa using hq)] at hmem
        exact ⟨mem_cons_of_mem q hmem, hq ▸ (hsingle.1 p hmem).symm⟩
      · rw [eraseP_cons_of_neg (by simpa using hq), mem_cons] at hmem
        rcases hmem with rfl | hmem
        · exact ⟨mem_cons_self, hq⟩
        · exact (ih hsingle.2 hmem).imp_left (mem_cons_of_mem q)

/-- The buffer with the bit of the block `b` set, and without its page. -/
def marked (s : MemBufferMapped) (b : Nat) : MemBufferMapped :=
  ({ s with dynBitmap := s.dynBitmap.bitSet b } : MemBufferMapped).partialDrop b

theorem marked_bitTest (h : s.dynBitmap.WF) (b k : Nat) :
    (s.marked b).dynBitmap.bitTest k = (decide (k = b) || s.dynBitmap.bitTest k) :=
  h.bitTest_bitSet b k

theorem marked_view (h : s.dynBitmap.WF) (b k : Nat) :
    (s.marked b).view k = if k = b then .full else s.view k := by
  have hbit := marked_bitTest h b k
  by_cases hk : k = b
  · rw [if_pos hk]
    refine view_bit ?_
    rw [hbit]
    simp [hk]
  · rw [if_neg hk]
    have hpage : (s.marked b).partialGetByIdx k = s.partialGetByIdx k :=
      find_eraseP_of_ne (by omega)
    unfold view
    rw [hbit, hpage]
    simp [hk]

theorem Shape.marked (h : Shape total s) (hinside : b * s.pageSz < total)
    (hreach : min total (b * s.pageSz + s.pageSz) ≤ s.mainMb.size) : Shape total (s.marked b) := by
  apply h.update (t := s.marked b) rfl h.plain le_rfl h.size (h.bitmap.bitSet b)
  · intro k hk
    have hk : (s.marked b).dynBitmap.bitTest k = true := hk
    rw [marked_bitTest h.bitmap, Bool.or_eq_true, decide_eq_true_eq] at hk
    rcases hk with rfl | hold
    · exact .inr ⟨hinside, hreach⟩
    · exact .inl hold
  · exact h.single.sublist eraseP_sublist
  · intro p hp
    obtain ⟨hmem, hne⟩ := mem_eraseP_single h.single hp
    refine .inr ⟨hmem, fun k hk => ?_⟩
    have hbit := marked_bitTest h.bitmap b k
    have hkb : k ≠ b := by
      intro hkb
      subst hkb
      exact hne hk
    simpa [hkb] using hbit

/-! ## What the functions do to the blocks -/

/-- A step after which every block is what `g` makes of it. -/
structure Moves (total : Nat) (g : Nat → Block → Block) (s t : MemBufferMapped) : Prop
    extends Later s t where
  shape : Shape total t
  view : ∀ b, t.view b = g b (s.view b)

theorem Shape.congr (h : Shape total s) (hpage : t.pageSz = s.pageSz) (hmain : t.mainMb = s.mainMb)
    (hbitmap : t.dynBitmap = s.dynBitmap) (hparts : t.partialMbList = s.partialMbList) :
    Shape total t ∧ ∀ b, t.view b = s.view b := by
  refine ⟨h.update hpage (hmain ▸ h.plain) (by rw [hmain]) (hmain ▸ h.size) (hbitmap ▸ h.bitmap)
    (fun b hset => .inl (hbitmap ▸ hset)) (hparts ▸ h.single)
    (fun p hp => .inr ⟨hparts ▸ hp, fun b _ => by rw [hbitmap]⟩), fun b => ?_⟩
  simp only [MemBufferMapped.view, partialGetByIdx, hbitmap, hparts]

theorem setBlocks_shape (n : Nat) : ∀ {i : Nat} {s : MemBufferMapped}, Shape total s →
    (i + n) * s.pageSz ≤ s.mainMb.size →
      Ends (setBlocks i n) s (fun _ t => t.mainMb = s.mainMb ∧
        Moves total (fun b v => if i ≤ b ∧ b < i + n then .full else v) s t)
        fun _ _ => False := by
  induction n with
  | zero =>
      intro i s h _
      refine ⟨rfl, Later.refl s, h, fun b => ?_⟩
      rw [if_neg (by omega)]
  | succ n ih =>
      intro i s h hreach
      have hfirst : (i + 1) * s.pageSz ≤ (i + (n + 1)) * s.pageSz :=
        Nat.mul_le_mul_right _ (by omega)
      rw [Nat.succ_mul] at hfirst
      have hbelow : i + (n + 1) ≤ total / s.pageSz :=
        (Nat.le_div_iff_mul_le h.page).2 (hreach.trans h.size)
      have hsmall := h.small
      have hpage := h.page
      have hsize := h.size
      simp only [setBlocks, ends_bind, ends_modify, ends_assertThat, decide_eq_true_eq,
        decide_eq_false_iff_not, Int.toNat_natCast]
      refine ⟨fun _ => ⟨fun _ => ?_, fun hbig => hbig (by omega)⟩, fun hneg => hneg (by omega)⟩
      have hmarked := h.marked (b := i) (by omega) (by omega)
      have hrest := ih (i := i + 1) hmarked (by
        change (i + 1 + n) * s.pageSz ≤ s.mainMb.size
        rw [show i + 1 + n = i + (n + 1) by omega]
        exact hreach)
      rw [Nat.cast_add, Nat.cast_one] at hrest
      apply hrest.imp
      intro _ t ht
      obtain ⟨hmain, hmoves⟩ := ht
      refine ⟨hmain, ⟨hmoves.pageSz, hmoves.calls⟩, hmoves.shape, fun b => ?_⟩
      rw [hmoves.view, marked_view h.bitmap]
      by_cases hb : b = i
      · subst hb
        rw [if_neg (by omega), if_pos rfl, if_pos (by omega)]
      · rw [if_neg hb]
        by_cases hin : i + 1 ≤ b ∧ b < i + 1 + n
        · rw [if_pos hin, if_pos (by omega)]
        · rw [if_neg hin, if_neg (by omega)]

theorem Shape.mainWrite (h : Shape total s) {off : Nat} {data : List UInt8}
    (hfit : off + data.length ≤ total) :
    Shape total { s with mainMb := s.mainMb.offsetWrite off data } := by
  have hsize : (s.mainMb.offsetWrite off data).size = max s.mainMb.size (off + data.length) :=
    MemBuffer.offsetWrite_size
  have hold := h.size
  apply h.update (t := { s with mainMb := s.mainMb.offsetWrite off data }) rfl
    ⟨h.plain.toWF.offsetWrite h.plain.offset, MemBuffer.offsetWrite_offset.trans h.plain.offset⟩
  · change _ ≤ (s.mainMb.offsetWrite off data).size
    omega
  · change (s.mainMb.offsetWrite off data).size ≤ _
    omega
  · exact h.bitmap
  · exact fun b hset => .inl hset
  · exact h.single
  · exact fun p hp => .inr ⟨hp, fun _ _ => rfl⟩

theorem alignedWrite_shape (h : Shape total s) {block : Nat} {data : List UInt8}
    (haligned : data.length = n * s.pageSz) (hfit : block * s.pageSz + data.length ≤ total) :
    Ends (alignedWrite data block) s (fun _ t =>
      Moves total (fun b v => if block ≤ b ∧ b < block + n then .full else v) s t)
      fun _ _ => False := by
  simp only [alignedWrite, ends_bind, ends_get, ends_modify, ends_assertThat, decide_eq_true_eq,
    decide_eq_false_iff_not]
  have hcount : data.length / s.pageSz = n := by
    rw [haligned]
    exact Nat.mul_div_cancel _ h.page
  refine ⟨fun _ => ?_, fun hno => hno (by rw [haligned]; exact Nat.mul_mod_left _ _)⟩
  have hsum : (block + n) * s.pageSz = block * s.pageSz + data.length := by
    rw [haligned, Nat.add_mul]
  have hbelow : block + n ≤ total / s.pageSz :=
    (Nat.le_div_iff_mul_le h.page).2 (hsum ▸ hfit)
  have hsmall : block < 2 ^ 31 := Nat.lt_of_le_of_lt (by omega) h.small
  have hindex : int32 block = block := int32_of_lt (by omega) (by omega)
  have hblocks : (((n + block : Nat) : Int) - block).toNat = n := by omega
  rw [hcount, hindex, hblocks]
  apply (setBlocks_shape n (h.mainWrite hfit) ?_).imp
  · intro _ t ht
    obtain ⟨-, hmoves⟩ := ht
    exact ⟨⟨hmoves.pageSz, hmoves.calls⟩, hmoves.shape, hmoves.view⟩
  · change (block + n) * s.pageSz ≤ (s.mainMb.offsetWrite _ data).size
    rw [hsum, MemBuffer.offsetWrite_size]
    exact le_max_right _ _

theorem alignedWrite_one {block : Nat} {data : List UInt8} (hpage : 0 < s.pageSz)
    (hlen : data.length = s.pageSz) (hsmall : block + 1 < 2 ^ 31) :
    Ends (alignedWrite data block) s (fun _ t =>
      t = ({ s with mainMb := s.mainMb.offsetWrite (block * s.pageSz) data } :
        MemBufferMapped).marked block) fun _ _ => False := by
  simp only [alignedWrite, ends_bind, ends_get, ends_modify, ends_assertThat, decide_eq_true_eq,
    decide_eq_false_iff_not]
  have hcount : data.length / s.pageSz = 1 := by
    rw [hlen]
    exact Nat.div_self hpage
  have hindex : int32 block = block := int32_of_lt (by omega) (by omega)
  have hblocks : (((1 + block : Nat) : Int) - block).toNat = 1 := by omega
  refine ⟨fun _ => ?_, fun hno => hno (by rw [hlen]; exact Nat.mod_self _)⟩
  rw [hcount, hindex, hblocks]
  simp only [setBlocks, ends_bind, ends_modify, ends_assertThat, decide_eq_true_eq,
    decide_eq_false_iff_not, Int.toNat_natCast, ends_pure]
  exact ⟨fun _ => ⟨fun _ => rfl, fun hbig => hbig (by omega)⟩, fun hneg => hneg (by omega)⟩

/-- The list of partial pages in which `q` is the page of `block`. -/
structure Filed (s : MemBufferMapped) (block : Nat) (q : PagePart) (l : List PagePart) :
    Prop where
  index : q.userInt = block
  single : l.Pairwise fun p q => p.userInt ≠ q.userInt
  mem : ∀ r ∈ l, r = q ∨ r ∈ s.partialMbList ∧ r.userInt ≠ block
  found : l.find? (fun p => p.userInt = (block : Int)) = some q
  others : ∀ b : Nat, b ≠ block →
    l.find? (fun p => p.userInt = (b : Int)) = s.partialGetByIdx b

theorem Filed.cons (h : Shape total s) {block : Nat} (hq : q.userInt = block)
    (hnone : s.partialGetByIdx block = none) : Filed s block q (q :: s.partialMbList) where
  index := hq
  single := by
    rw [pairwise_cons]
    refine ⟨fun r hr => ?_, h.single⟩
    have hother := find?_eq_none.1 hnone r hr
    rw [hq]
    exact fun heq => hother (by simpa using heq.symm)
  mem r hr := by
    rcases mem_cons.1 hr with rfl | hr
    · exact .inl rfl
    · exact .inr ⟨hr, by simpa using find?_eq_none.1 hnone r hr⟩
  found := by simp [hq]
  others b hb := by
    rw [find?_cons_of_neg (by simp [hq, Ne.symm hb])]
    rfl

theorem map_replaceF {l : List PagePart} {a : Int} (hq : q.userInt = a) :
    (l.replaceF fun p => if p.userInt = a then some q else none).map (·.userInt) =
      l.map (·.userInt) := by
  induction l with
  | nil => rfl
  | cons p l ih =>
      by_cases hp : p.userInt = a
      · simp [List.replaceF, hp, hq]
      · simp [List.replaceF, hp, ih]

theorem mem_replaceF_single {l : List PagePart} {a : Int}
    (hsingle : l.Pairwise fun p q => p.userInt ≠ q.userInt)
    (hmem : p ∈ l.replaceF fun p => if p.userInt = a then some q else none) :
    p = q ∨ p ∈ l ∧ p.userInt ≠ a := by
  induction l with
  | nil => cases hmem
  | cons r l ih =>
      rw [pairwise_cons] at hsingle
      by_cases hr : r.userInt = a
      · simp only [List.replaceF, hr, if_true, mem_cons] at hmem
        rcases hmem with rfl | hmem
        · exact .inl rfl
        · exact .inr ⟨mem_cons_of_mem r hmem, hr ▸ (hsingle.1 p hmem).symm⟩
      · simp only [List.replaceF, hr, if_false, mem_cons] at hmem
        rcases hmem with rfl | hmem
        · exact .inr ⟨mem_cons_self, hr⟩
        · exact (ih hsingle.2 hmem).imp_right fun hold => hold.imp_left (mem_cons_of_mem r)

theorem Filed.replace (h : Shape total s) {block : Nat} (hq : q.userInt = block)
    (hsome : s.partialGetByIdx block = some p) :
    Filed s block q (s.partialMbList.replaceF fun p =>
      if p.userInt = block then some q else none) where
  index := hq
  single := by
    have hmap : (s.partialMbList.map (·.userInt)).Pairwise (· ≠ ·) :=
      pairwise_map.2 h.single
    rw [← map_replaceF hq] at hmap
    exact pairwise_map.1 hmap
  mem r hr := mem_replaceF_single h.single hr
  found := by
    rw [find_replaceF hq, if_pos rfl]
    exact congrArg _ hsome
  others b hb := by
    rw [find_replaceF hq, if_neg (by omega)]
    rfl

theorem Filed.kept {block : Nat} {l : List PagePart} {mb : MemBuffer} (hfiled : Filed s block q l)
    (h : Shape total s) (hclear : s.dynBitmap.bitTest block = false)
    (hplain : mb.Plain) (hgrow : s.mainMb.size ≤ mb.size) (hsize : mb.size ≤ total)
    (hfits : q.Fits { s with mainMb := mb, partialMbList := l }) :
    Moves total (fun b v => if b = block then .part q.userLong q.mb.size else v) s
      { s with mainMb := mb, partialMbList := l } where
  pageSz := rfl
  calls := rfl
  shape := by
    apply h.update (t := { s with mainMb := mb, partialMbList := l }) rfl hplain hgrow hsize
      h.bitmap (fun b hset => .inl hset) hfiled.single
    intro r hr
    rcases hfiled.mem r hr with rfl | hold
    · exact .inl hfits
    · exact .inr ⟨hold.1, fun _ _ => rfl⟩
  view b := by
    by_cases hb : b = block
    · subst hb
      have hpart : partialGetByIdx { s with mainMb := mb, partialMbList := l } b = some q :=
        hfiled.found
      rw [if_pos rfl]
      refine (view_clear (s := { s with mainMb := mb, partialMbList := l }) hclear).trans ?_
      rw [hpart]
      simp only [hfits.plain.getSize]
    · rw [if_neg hb]
      have hpart : partialGetByIdx { s with mainMb := mb, partialMbList := l } b =
          s.partialGetByIdx b := hfiled.others b hb
      unfold MemBufferMapped.view
      rw [hpart]

theorem Filed.completed {block : Nat} {l : List PagePart} (mb : MemBuffer)
    (hfiled : Filed s block q l) (h : Shape total s)
    (hplain : mb.Plain) (hgrow : s.mainMb.size ≤ mb.size) (hsize : mb.size ≤ total)
    (hinside : block * s.pageSz + s.pageSz ≤ mb.size) :
    Moves total (fun b v => if b = block then .full else v) s
      ((({ s with mainMb := mb, partialMbList := l } : MemBufferMapped).marked block).partialDrop
        block) := by
  obtain ⟨t, ht⟩ : ∃ t, (({ s with mainMb := mb, partialMbList := l } :
    MemBufferMapped).marked block).partialDrop block = t := ⟨_, rfl⟩
  have hlist : t.partialMbList = (l.eraseP fun p => p.userInt = (block : Int)).eraseP
      fun p => p.userInt = (block : Int) := by
    rw [← ht]
    rfl
  have hmain : t.mainMb = mb := by
    rw [← ht]
    rfl
  have hbitmap : t.dynBitmap = s.dynBitmap.bitSet block := by
    rw [← ht]
    rfl
  have hbit (k : Nat) : t.dynBitmap.bitTest k = (decide (k = block) || s.dynBitmap.bitTest k) := by
    rw [hbitmap]
    exact h.bitmap.bitTest_bitSet block k
  have hpage := h.page
  have hsingle := hfiled.single.sublist (eraseP_sublist (p := fun p => p.userInt = (block : Int)))
  rw [ht]
  refine ⟨⟨by rw [← ht]; rfl, by rw [← ht]; rfl⟩, ?_, fun k => ?_⟩
  · apply h.update (by rw [← ht]; rfl) (hmain ▸ hplain) (hmain ▸ hgrow) (hmain ▸ hsize)
      (hbitmap ▸ h.bitmap.bitSet block)
    · intro k hk
      rw [hbit, Bool.or_eq_true, decide_eq_true_eq] at hk
      rcases hk with rfl | hold
      · refine .inr ⟨by omega, ?_⟩
        rw [hmain]
        omega
      · exact .inl hold
    · rw [hlist]
      exact hsingle.sublist eraseP_sublist
    · intro r hr
      rw [hlist] at hr
      obtain ⟨hr, hne⟩ := mem_eraseP_single hsingle hr
      rcases hfiled.mem r (mem_of_mem_eraseP hr) with rfl | hold
      · exact absurd hfiled.index hne
      · refine .inr ⟨hold.1, fun k hk => ?_⟩
        have hkb : k ≠ block := by
          rintro rfl
          exact hne hk
        simp [hbit, hkb]
  · by_cases hk : k = block
    · rw [if_pos hk]
      refine view_bit ?_
      rw [hbit]
      simp [hk]
    · rw [if_neg hk]
      have hpart : t.partialGetByIdx k = s.partialGetByIdx k := by
        unfold partialGetByIdx
        rw [hlist, find_eraseP_of_ne (by omega), find_eraseP_of_ne (by omega)]
        exact hfiled.others k hk
      unfold MemBufferMapped.view
      rw [hbit, hpart]
      simp [hk]

theorem partialStored_shape (h : Shape total s) {block rel : Nat} {data : List UInt8}
    {l : List PagePart} (hfiled : Filed s block q l) (hclear : s.dynBitmap.bitTest block = false)
    (hplain : q.mb.Plain) (hlow : q.userLong < q.mb.size) (hhigh : q.mb.size ≤ s.pageSz)
    (hreach : block * s.pageSz + q.mb.size ≤
      max s.mainMb.size (block * s.pageSz + rel + data.length))
    (hfit : block * s.pageSz + rel + data.length ≤ total) :
    Ends (partialStored q data block rel) { s with partialMbList := l }
      (fun _ t => Moves total
        (fun b v => if b = block then .settle s.pageSz q.userLong q.mb.size else v) s t)
      fun _ _ => False := by
  have hold := h.size
  have hsmall := h.small
  obtain ⟨mb, hmb⟩ : ∃ mb, s.mainMb.offsetWrite (block * s.pageSz + rel) data = mb := ⟨_, rfl⟩
  have hmain : mb.Plain := by
    rw [← hmb]
    exact ⟨h.plain.toWF.offsetWrite h.plain.offset,
      MemBuffer.offsetWrite_offset.trans h.plain.offset⟩
  have hsize : mb.size = max s.mainMb.size (block * s.pageSz + rel + data.length) := by
    rw [← hmb]
    exact MemBuffer.offsetWrite_size
  simp only [partialStored, ends_bind, ends_get, ends_modify, ends_ite, ends_pure, hplain.getSize,
    hmb]
  refine ⟨fun hfull => ?_, fun hrest => ?_⟩
  · have hzero : q.userLong = 0 := by omega
    have hpage : q.mb.size = s.pageSz := by omega
    have hlen : (q.mb.offsetRead 0 s.pageSz).length = s.pageSz := by
      have hused := hplain.used
      have halloc := hplain.allocated
      rw [MemBuffer.offsetRead, length_take, length_drop, hplain.offset]
      omega
    have hnext : block + 1 ≤ total / s.pageSz := by
      apply (Nat.le_div_iff_mul_le h.page).2
      rw [Nat.succ_mul]
      omega
    apply (alignedWrite_one (s := { s with mainMb := mb, partialMbList := l }) h.page hlen
      (Nat.lt_of_le_of_lt hnext hsmall)).imp
    intro _ t ht
    subst ht
    have hagain : (mb.offsetWrite (block * s.pageSz) (q.mb.offsetRead 0 s.pageSz)).size =
        max mb.size (block * s.pageSz + s.pageSz) := by
      rw [MemBuffer.offsetWrite_size, hlen]
    have hmoves := hfiled.completed
      (mb.offsetWrite (block * s.pageSz) (q.mb.offsetRead 0 s.pageSz)) h
      ⟨hmain.toWF.offsetWrite hmain.offset, MemBuffer.offsetWrite_offset.trans hmain.offset⟩
      (by omega) (by omega) (by omega)
    refine ⟨hmoves.toLater, hmoves.shape, fun b => ?_⟩
    have hsettle : Block.settle s.pageSz q.userLong q.mb.size = .full := if_pos hfull
    rw [hsettle]
    exact hmoves.view b
  · have hsettle : Block.settle s.pageSz q.userLong q.mb.size = .part q.userLong q.mb.size :=
      if_neg hrest
    rw [hsettle]
    apply hfiled.kept h hclear hmain (by omega) (by omega)
    refine ⟨hplain, hlow, hhigh, Nat.lt_of_not_le hrest, block, hfiled.index, hclear, ?_⟩
    change block * s.pageSz + q.mb.size ≤ mb.size
    omega

theorem PagePart.accepts_eq (hplain : p.mb.Plain) (n rel : Nat) :
    p.accepts n rel =
      if Block.Drops p.userLong p.mb.size rel n then none else some (min p.userLong rel) := by
  simp only [accepts, hplain.getSize]
  by_cases hdrops : Block.Drops p.userLong p.mb.size rel n
  · rw [if_pos hdrops]
    rcases hdrops with hfront | hbehind | hinside
    · rw [if_pos (by omega)]
    · rw [if_neg (by omega), if_pos (by omega)]
    · rw [if_neg (by omega), if_neg (by omega), if_pos (by omega)]
  · rw [if_neg hdrops]
    unfold Block.Drops at hdrops
    rw [if_neg (by omega), if_neg (by omega), if_neg (by omega), Option.some.injEq]
    split <;> omega

theorem partialDataProcess_shape (h : Shape total s) {block rel : Nat} {data : List UInt8}
    (hne : 0 < data.length) (hpage : rel + data.length ≤ s.pageSz)
    (hfit : block * s.pageSz + rel + data.length ≤ total) :
    Ends (partialDataProcess data block rel) s
      (fun _ t => Moves total
        (fun b v => if b = block then v.take s.pageSz rel data.length else v) s t)
      fun _ _ => False := by
  have hsmall : block < 2 ^ 31 := by
    refine Nat.lt_of_le_of_lt ((Nat.le_div_iff_mul_le h.page).2 ?_) h.small
    omega
  have hindex : int32 block = block := int32_of_lt (by omega) (by omega)
  simp only [partialDataProcess, ends_bind, ends_get, ends_ite, ends_pure]
  refine ⟨fun hset => ⟨Later.refl s, h, fun b => ?_⟩, fun hclear => ?_⟩
  · split
    · subst b
      rw [view_bit hset]
      rfl
    · rfl
  have hclear : s.dynBitmap.bitTest block = false := by simpa using hclear
  cases hfind : s.partialGetByIdx block with
  | none =>
      have hview : s.view block = .empty := by rw [view_clear hclear, hfind]
      simp only [ends_bind, ends_modify, ends_pure]
      obtain ⟨q, hq⟩ : ∃ q, PagePart.fill { mb := .new s.pageSz } data block rel rel = q :=
        ⟨_, rfl⟩
      have hsize : q.mb.size = rel + data.length := by
        rw [← hq]
        refine MemBuffer.offsetWrite_size.trans ?_
        change max 0 _ = _
        omega
      have hlow : q.userLong = rel := by
        rw [← hq]
        rfl
      have hplain : q.mb.Plain := by
        have hnew := MemBuffer.plain_new s.pageSz
        rw [← hq]
        exact ⟨hnew.toWF.offsetWrite hnew.offset, MemBuffer.offsetWrite_offset.trans hnew.offset⟩
      have hblock : q.userInt = block := by
        rw [← hq]
        exact hindex
      rw [hq]
      apply (partialStored_shape h (Filed.cons h hblock hfind) hclear hplain (by omega) (by omega)
        (by omega) hfit).imp
      intro _ t ht
      refine ⟨ht.toLater, ht.shape, fun b => ?_⟩
      rw [ht.view, hlow, hsize]
      by_cases hb : b = block
      · subst hb
        rw [if_pos rfl, if_pos rfl, hview]
        rfl
      · rw [if_neg hb, if_neg hb]
  | some p =>
      have hfits := h.parts p (find_index hfind).1
      have hview := (h.view_page hfind).2
      have hreach := (h.part hview).2.2.2
      have hlow := hfits.low
      have hhigh := hfits.high
      simp only
      rw [PagePart.accepts_eq hfits.plain]
      by_cases hdrops : Block.Drops p.userLong p.mb.size rel data.length
      · rw [if_pos hdrops]
        refine ⟨Later.refl s, h, fun b => ?_⟩
        by_cases hb : b = block
        · subst hb
          rw [if_pos rfl, hview]
          simp only [Block.take, if_pos hdrops]
        · rw [if_neg hb]
      · rw [if_neg hdrops]
        simp only [ends_bind, ends_modify, ends_pure]
        obtain ⟨q, hq⟩ : ∃ q, p.fill data block rel (min p.userLong rel) = q := ⟨_, rfl⟩
        have hsize : q.mb.size = max p.mb.size (rel + data.length) := by
          rw [← hq]
          exact MemBuffer.offsetWrite_size
        have hbegin : q.userLong = min p.userLong rel := by
          rw [← hq]
          rfl
        have hplain : q.mb.Plain := by
          rw [← hq]
          exact ⟨hfits.plain.toWF.offsetWrite hfits.plain.offset,
            MemBuffer.offsetWrite_offset.trans hfits.plain.offset⟩
        have hblock : q.userInt = block := by
          rw [← hq]
          exact hindex
        rw [hq]
        apply (partialStored_shape h (Filed.replace h hblock hfind) hclear hplain (by omega)
          (by omega) (by omega) hfit).imp
        intro _ t ht
        refine ⟨ht.toLater, ht.shape, fun b => ?_⟩
        rw [ht.view, hbegin, hsize]
        by_cases hb : b = block
        · subst hb
          rw [if_pos rfl, if_pos rfl, hview]
          simp only [Block.take, if_neg hdrops]
        · rw [if_neg hb, if_neg hb]

theorem Shape.pages (h : Shape total s) (b : Nat) {lo hi : Nat} (hview : s.view b = .part lo hi) :
    lo < hi ∧ hi ≤ s.pageSz :=
  ⟨(h.part hview).1, (h.part hview).2.1⟩

theorem writeAligned_shape (h : Shape total s) {block off : Nat} {data : List UInt8}
    (haligned : data.length = n * s.pageSz)
    (hfit : 0 < data.length → block * s.pageSz + data.length ≤ total) :
    Ends (writeAligned data block off) s
      (fun _ t => Moves total (Block.write s.pageSz (block * s.pageSz) (n * s.pageSz)) s t)
      fun _ _ => False := by
  simp only [writeAligned, ends_ite, ends_bind, ends_modify, ends_pure]
  refine ⟨fun hne => ?_, fun hempty => ⟨Later.refl s, h, fun b => ?_⟩⟩
  · apply (alignedWrite_shape h haligned (hfit hne)).imp
    intro _ t ht
    obtain ⟨hshape, hview⟩ := ht.shape.congr (t := { t with
      curOffset := if t.curOffset < off then off else t.curOffset }) rfl rfl rfl rfl
    refine ⟨⟨ht.pageSz, ht.calls⟩, hshape, fun b => ?_⟩
    rw [hview, ht.view, Block.write_pages h.page fun lo hi => h.pages b]
  · rw [Block.write_pages h.page fun lo hi => h.pages b]
    have hnone : n = 0 := by
      by_contra hn
      have := Nat.mul_pos (Nat.pos_of_ne_zero hn) h.page
      omega
    rw [if_neg (by omega)]

theorem writePartial_shape (h : Shape total s) (block rel : Nat) (data : List UInt8)
    (hpage : rel + data.length ≤ s.pageSz)
    (hfit : 0 < data.length → block * s.pageSz + rel + data.length ≤ total) :
    Ends (writePartial data block rel) s
      (fun _ t => Moves total (Block.write s.pageSz (block * s.pageSz + rel) data.length) s t)
      fun _ _ => False := by
  simp only [writePartial, ends_ite, ends_bind, ends_pure]
  refine ⟨fun hne => ?_, fun hempty => ⟨Later.refl s, h, fun b => ?_⟩⟩
  · apply (partialDataProcess_shape h hne hpage (hfit hne)).imp
    intro _ t ht
    refine ⟨ht.toLater, ht.shape, fun b => ?_⟩
    rw [ht.view, Block.write_inside hpage]
    by_cases hb : b = block
    · rw [if_pos hb, if_pos ⟨hb, hne⟩]
    · rw [if_neg hb, if_neg fun hin => hb hin.1]
  · rw [Block.write_inside hpage, if_neg fun hin => hempty hin.2]

theorem Cut.write {page off n trail count finish start : Nat} {v : Block}
    (hcut : Cut page off n trail count finish start) (b : Nat) :
    Block.write page ((off + n) / page * page + 0) finish b
      (Block.write page (off / page * page + off % page) trail b
        (Block.write page (start * page) (count * page) b v)) = Block.write page off n b v := by
  have hoff := Nat.div_add_mod' off page
  have hsize := hcut.size
  rw [hoff, Nat.add_zero]
  by_cases hlt : trail < n
  · have hborder := hcut.border hlt
    have hsum : start * page + count * page = (start + count) * page := (Nat.add_mul ..).symm
    rw [hcut.higher hlt, hsize, Nat.add_assoc, Block.write_split hborder, hborder,
      Block.write_split hsum, hsum]
    -- the front part and the whole pages lie in different blocks
    congr 1
    rcases Nat.lt_or_ge b start with hbelow | habove
    · have hle : (b + 1) * page ≤ start * page := Nat.mul_le_mul_right _ hbelow
      rw [Nat.succ_mul] at hle
      rw [Block.write_outside (start * page) _ (.inr hle),
        Block.write_outside (start * page) _ (.inr hle)]
    · have hle : start * page ≤ b * page := Nat.mul_le_mul_right _ habove
      rw [Block.write_outside off _ (.inl (by omega)),
        Block.write_outside off _ (.inl (by omega))]
  · have hcount : count * page = 0 := by omega
    have hfinish : finish = 0 := by omega
    obtain rfl : trail = n := by omega
    rw [hcount, hfinish, Block.write_nothing, Block.write_nothing]

/-- **A write, block by block.**  A write below `total` does to every block what
`Block.write` says. -/
theorem write_moves (h : Shape total s) {off : Nat} {data : List UInt8}
    (hfit : off + data.length ≤ total) :
    Ends (write off data) s
      (fun _ t => Moves total (Block.write s.pageSz off data.length) s t)
      fun _ _ => False := by
  have hpage := h.page
  simp only [write, ends_bind, ends_get, ends_assertThat, ends_modify, decide_eq_true_eq,
    decide_eq_false_iff_not]
  refine ⟨fun _ => ?_, fun hzero => hzero (by omega)⟩
  obtain ⟨trail, count, finish, start, hcut, htrail, hfin⟩ := cut_exists hpage off data.length
  have hsize := hcut.size
  have hfinish := hcut.finish_lt
  have hfront := hcut.front
  have hborder := hcut.border
  have hhigher := hcut.higher
  have hoff := Nat.div_add_mod' off s.pageSz
  rw [htrail, hfin, ← hcut.start_eq]
  have hrounded : data.length - (trail + finish) = count * s.pageSz := by omega
  rw [hrounded]
  have hmiddle : ((data.drop trail).take (count * s.pageSz)).length = count * s.pageSz := by
    rw [length_take, length_drop]
    omega
  have htake : (data.take trail).length = trail := by
    rw [length_take]
    omega
  have hrest : ((data.drop trail).drop (count * s.pageSz)).length = finish := by
    rw [length_drop, length_drop]
    omega
  apply (writeAligned_shape (n := count) h hmiddle fun hne => ?_).total
  · intro _ t ht
    have hpaget := ht.pageSz
    apply (writePartial_shape ht.shape (off / s.pageSz) (off % s.pageSz) (data.take trail)
      (by omega) fun hne => ?_).total
    · intro _ u hu
      have hpageu := hu.pageSz.trans hpaget
      apply (writePartial_shape hu.shape ((off + data.length) / s.pageSz) 0
        ((data.drop trail).drop (count * s.pageSz)) (by omega) fun hne => ?_).total
      · intro _ w hw
        obtain ⟨hshape, hview⟩ := hw.shape.congr (t := { w with pctStringUpdate := true })
          rfl rfl rfl rfl
        have hlater := (ht.toLater.trans hu.toLater).trans hw.toLater
        refine ⟨⟨hlater.pageSz, hlater.calls⟩, hshape, fun b => ?_⟩
        rw [hview, hw.view, hu.view, ht.view, hpageu, hpaget, htake, hrest]
        exact hcut.write b
      · have hlt : trail < data.length := by omega
        rw [hpageu, hhigher hlt, hrest, Nat.add_mul]
        have := hborder hlt
        omega
    · rw [hpaget, hoff, htake]
      omega
  · have hlt : trail < data.length := by omega
    have := hborder hlt
    omega

end Shape

end MemBufferMapped

end BrbData
