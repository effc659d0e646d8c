import BrbFramework.Data.MappedBlocks
import BrbFramework.Data.MappedMeta

/-!
# Calls on a mapped memory buffer

The runs of a `MemBufferMapped` are sequences of calls of the functions that
change it, for a content of `total` bytes. `Kept` says that no block claims bytes
that no call wrote, and `Told` that no written byte is missing. A call may spoil the
first when it leaves a gap in a partial page, and the second when it drops bytes,
so `Clean` and `Lossless` say of a call that it does not.
-/

namespace BrbData

open Handler Machine List

namespace MemBufferMapped

/-! ## The functions that change a buffer -/

/-- `MemBufferMappedAdd`. -/
def add (data : List UInt8) : M PUnit := do
  let s ← get
  write s.curOffset data
  modify fun s => { s with curOffset := s.curOffset + data.length }

/-- `MemBufferMappedPartialClean`. -/
def partialClean : M PUnit :=
  modify fun s => { s with partialMbList := [] }

/-- `MemBufferMappedCheckLastBlock`. -/
def checkLastBlock (totalSz : Nat) : M Bool := do
  let s ← get
  assertThat (s.pageSz ≠ 0) .divideByZero
  let lastBlockSz := totalSz % s.pageSz
  let lastPageIdx := totalSz / s.pageSz
  match s.partialGetByIdx lastPageIdx with
  | none => return true
  | some p =>
      if p.userLong > 0 then
        return false
      if p.mb.getSize ≥ lastBlockSz then
        -- "Set Last block as complete"
        set (({ s with
          dynBitmap := s.dynBitmap.bitSet lastPageIdx
          mainMb := s.mainMb.offsetWrite (totalSz - lastBlockSz) (p.mb.offsetRead 0 lastBlockSz) } :
          MemBufferMapped).partialDrop lastPageIdx)
      return true

/-- `MemBufferMappedMetaDataPackToMB`, and `MemBufferMappedMetaDataUnPackFromMB` of what it
packed: the new buffer takes the place of the old one, if there is one. -/
def restore (threadSafe : Bool) (itemSubId : UInt64) : M PUnit :=
  modify fun s =>
    match metaDataUnPackFromMB (s.metaDataPackToMB threadSafe itemSubId) with
    | .ok (some t) => { t with calls := s.calls }
    | _ => s

inductive Op
  | write (offset : Nat) (data : List UInt8)
  | add (data : List UInt8)
  | checkLastBlock (totalSz : Nat)
  | completed
  | partialClean
  | restore (threadSafe : Bool) (itemSubId : UInt64)
  deriving DecidableEq, Repr

def Op.brings (s : MemBufferMapped) : Op → Option Call
  | .write offset data => some ⟨offset, data.length⟩
  | .add data => some ⟨s.curOffset, data.length⟩
  | _ => none

/-- The size of the content that the call goes by. -/
def Op.totalSz : Op → Option Nat
  | .checkLastBlock totalSz => some totalSz
  | _ => none

def Op.packs : Op → Option (Bool × UInt64)
  | .restore threadSafe itemSubId => some (threadSafe, itemSubId)
  | _ => none

def Op.cleans : Op → Bool
  | .partialClean | .restore _ _ => true
  | _ => false

/-- One call, which is recorded if it brings bytes. -/
def perform (op : Op) : M PUnit := do
  modify fun s => { s with calls := s.calls ++ (op.brings s).toList }
  match op with
  | .write offset data => write offset data
  | .add data => add data
  | .checkLastBlock totalSz => do
      let _ ← checkLastBlock totalSz
  | .completed => do
      let _ ← completed
  | .partialClean => partialClean
  | .restore threadSafe itemSubId => restore threadSafe itemSubId

/-- The calls `ops` on a new buffer. -/
def runOps (pageSz : Nat) (ops : List Op) : Runs.Config Fault MemBufferMapped :=
  Runs.run perform (.live (init pageSz)) ops

/-! ## What a block claims -/

namespace Block

/-- Every byte below `total` that the block `b` claims was written. -/
def Holds (page total : Nat) (written : Nat → Prop) (b : Nat) : Block → Prop
  | empty => True
  | part lo hi => ∀ i, lo ≤ i → i < hi → written (b * page + i)
  | full => ∀ i < page, b * page + i < total → written (b * page + i)

/-- The block `b` claims every byte of it that was written. -/
def Tells (page : Nat) (written : Nat → Prop) (b : Nat) : Block → Prop
  | empty => ∀ i < page, ¬written (b * page + i)
  | part lo hi => ∀ i < page, written (b * page + i) → lo ≤ i ∧ i < hi
  | full => True

/-- The page takes `n` bytes at `rel` although it ends in front of them. -/
def Gap (lo hi rel n : Nat) : Prop := hi < rel ∧ ¬Drops lo hi rel n

/-- The page drops `n` bytes at `rel` that it does not have. -/
def Loses (lo hi rel n : Nat) : Prop := Drops lo hi rel n ∧ ¬(lo ≤ rel ∧ rel + n ≤ hi)

instance (lo hi rel n : Nat) : Decidable (Gap lo hi rel n) := inferInstanceAs (Decidable (_ ∧ _))

instance (lo hi rel n : Nat) : Decidable (Loses lo hi rel n) :=
  inferInstanceAs (Decidable (_ ∧ _))

variable {page total off n b rel lo hi : Nat} {v : Block} {written after : Nat → Prop}

theorem Holds.mono (h : v.Holds page total written b) (hmono : ∀ pos, written pos → after pos) :
    v.Holds page total after b := by
  cases v with
  | empty => trivial
  | part lo hi => exact fun i hlow hhigh => hmono _ (h i hlow hhigh)
  | full => exact fun i hi htotal => hmono _ (h i hi htotal)

theorem holds_settle (hfit : hi ≤ page)
    (h : ∀ i, lo ≤ i → i < hi → written (b * page + i)) :
    (settle page lo hi).Holds page total written b := by
  unfold settle
  split
  · exact fun i hi _ => h i (by omega) (by omega)
  · exact h

theorem Holds.take (h : v.Holds page total written b) (hfit : rel + n ≤ page)
    (hpart : ∀ lo hi, v = part lo hi → hi ≤ page ∧ ¬Gap lo hi rel n)
    (hmono : ∀ pos, written pos → after pos)
    (hnew : ∀ i, rel ≤ i → i < rel + n → after (b * page + i)) :
    (v.take page rel n).Holds page total after b := by
  cases v with
  | empty => exact holds_settle hfit hnew
  | full => exact h.mono hmono
  | part lo hi =>
      obtain ⟨hhigh, hclosed⟩ := hpart lo hi rfl
      by_cases hdrops : Drops lo hi rel n
      · simp only [Block.take, if_pos hdrops]
        exact h.mono hmono
      · have hmeet : rel ≤ hi := Nat.le_of_not_lt fun hlt => hclosed ⟨hlt, hdrops⟩
        have htouch : lo ≤ rel + n := by
          unfold Drops at hdrops
          omega
        simp only [Block.take, if_neg hdrops]
        apply holds_settle (by omega)
        intro i hlow hin
        by_cases hold : lo ≤ i ∧ i < hi
        · exact hmono _ (h i hold.1 hold.2)
        · exact hnew i (by omega) (by omega)

theorem tells_settle (h : ∀ i < page, written (b * page + i) → lo ≤ i ∧ i < hi) :
    (settle page lo hi).Tells page written b := by
  unfold settle
  split
  · trivial
  · exact h

theorem Tells.take (h : v.Tells page written b)
    (hpart : ∀ lo hi, v = part lo hi → ¬Loses lo hi rel n)
    (hnew : ∀ i < page, after (b * page + i) →
      written (b * page + i) ∨ rel ≤ i ∧ i < rel + n) :
    (v.take page rel n).Tells page after b := by
  cases v with
  | empty =>
      apply tells_settle
      intro i hi hafter
      exact (hnew i hi hafter).resolve_left (h i hi)
  | full => trivial
  | part lo hi =>
      have hkept := hpart lo hi rfl
      by_cases hdrops : Drops lo hi rel n
      · have hinside : lo ≤ rel ∧ rel + n ≤ hi := by
          by_contra hout
          exact hkept ⟨hdrops, hout⟩
        simp only [Block.take, if_pos hdrops]
        intro i hi hafter
        rcases hnew i hi hafter with hold | hin
        · exact h i hi hold
        · omega
      · simp only [Block.take, if_neg hdrops]
        apply tells_settle
        intro i hi hafter
        rcases hnew i hi hafter with hold | hin
        · have := h i hi hold
          omega
        · omega

theorem share_fits (h : 0 < share page off n b) :
    off - b * page + share page off n b ≤ page ∧
      ∀ i < page, (off ≤ b * page + i ∧ b * page + i < off + n ↔
        off - b * page ≤ i ∧ i < off - b * page + share page off n b) := by
  unfold share at h ⊢
  refine ⟨by omega, fun i hi => ?_⟩
  omega

theorem share_eq_zero (h : ¬0 < share page off n b) {i : Nat} (hi : i < page) :
    ¬(off ≤ b * page + i ∧ b * page + i < off + n) := by
  unfold share at h
  omega

theorem Holds.write (h : v.Holds page total written b)
    (hpart : ∀ lo hi, v = part lo hi → hi ≤ page ∧
      (0 < share page off n b → ¬Gap lo hi (off - b * page) (share page off n b)))
    (hafter : ∀ pos, after pos ↔ written pos ∨ off ≤ pos ∧ pos < off + n) :
    (v.write page off n b).Holds page total after b := by
  have hmono : ∀ pos, written pos → after pos := fun pos hold => (hafter pos).2 (.inl hold)
  unfold Block.write
  by_cases hshare : 0 < share page off n b
  · obtain ⟨hfit, hin⟩ := share_fits hshare
    rw [if_pos hshare]
    apply h.take hfit (fun lo hi hv => ⟨(hpart lo hi hv).1, (hpart lo hi hv).2 hshare⟩) hmono
    intro i hlow hhigh
    exact (hafter _).2 (.inr ((hin i (by omega)).2 ⟨hlow, hhigh⟩))
  · rw [if_neg hshare]
    exact h.mono hmono

theorem Tells.write (h : v.Tells page written b)
    (hpart : ∀ lo hi, v = part lo hi →
      (0 < share page off n b → ¬Loses lo hi (off - b * page) (share page off n b)))
    (hafter : ∀ pos, after pos ↔ written pos ∨ off ≤ pos ∧ pos < off + n) :
    (v.write page off n b).Tells page after b := by
  unfold Block.write
  by_cases hshare : 0 < share page off n b
  · obtain ⟨-, hin⟩ := share_fits hshare
    rw [if_pos hshare]
    apply h.take fun lo hi hv => hpart lo hi hv hshare
    intro i hi hat
    exact ((hafter _).1 hat).imp_right (hin i hi).1
  · rw [if_neg hshare]
    have hback : ∀ i < page, after (b * page + i) → written (b * page + i) := fun i hi hat =>
      ((hafter _).1 hat).resolve_right (share_eq_zero hshare hi)
    cases v with
    | empty => exact fun i hi hat => h i hi (hback i hi hat)
    | part lo hi => exact fun i hi' hat => h i hi' (hback i hi' hat)
    | full => trivial

/-- The last block once `MemBufferMappedCheckLastBlock` looked at it. -/
def finished (rest : Nat) : Block → Block
  | part lo hi => if lo = 0 ∧ rest ≤ hi then full else part lo hi
  | v => v

def cleaned : Block → Block
  | part _ _ => empty
  | v => v

theorem Holds.finished (h : v.Holds page total written (total / page)) :
    (v.finished (total % page)).Holds page total written (total / page) := by
  cases v with
  | empty => trivial
  | full => exact h
  | part lo hi =>
      have htotal := Nat.div_add_mod' total page
      by_cases hall : lo = 0 ∧ total % page ≤ hi
      · simp only [Block.finished, if_pos hall]
        exact fun i _ hin => h i (by omega) (by omega)
      · simp only [Block.finished, if_neg hall]
        exact h

theorem Tells.finished (h : v.Tells page written b) (rest : Nat) :
    (v.finished rest).Tells page written b := by
  cases v with
  | empty => exact h
  | full => trivial
  | part lo hi =>
      by_cases hall : lo = 0 ∧ rest ≤ hi
      · simp only [Block.finished, if_pos hall]
        trivial
      · simp only [Block.finished, if_neg hall]
        exact h

end Block

/-! ## The conditions on a call -/

/-- `P` holds of every partial page and the bytes that the call has for it. -/
def EachPage (s : MemBufferMapped) (c : Call) (P : Nat → Nat → Nat → Nat → Prop) : Prop :=
  ∀ p ∈ s.partialMbList,
    0 < Block.share s.pageSz c.offset c.size p.userInt.toNat →
      P p.userLong p.mb.getSize (c.offset - p.userInt.toNat * s.pageSz)
        (Block.share s.pageSz c.offset c.size p.userInt.toNat)

/-- `MemBufferMappedCompleted` appends a partial page. -/
def appendsPage (s : MemBufferMapped) : Bool :=
  match s.partialMbList with
  | [p] => s.dynBitmap.checkMultiBlocks 0 s.dynBitmap.higherSeen &&
      decide ((s.dynBitmap.higherSeen : Int) + 1 = p.userInt)
  | _ => false

/-- A call that leaves no gap, for a content of `total` bytes. -/
structure Clean (total : Nat) (s : MemBufferMapped) (op : Op) : Prop where
  inside : ∀ c ∈ op.brings s, c.offset + c.size ≤ total
  closed : ∀ c ∈ op.brings s, s.EachPage c fun lo hi rel n => ¬Block.Gap lo hi rel n
  last : ∀ totalSz ∈ op.totalSz, totalSz = total
  appends : op = .completed → s.appendsPage = false
  packs : ∀ q ∈ op.packs, s.pageSz < 2 ^ 31 ∧ Fits s q.1 q.2

structure Lossless (s : MemBufferMapped) (op : Op) : Prop where
  kept : ∀ c ∈ op.brings s, s.EachPage c fun lo hi rel n => ¬Block.Loses lo hi rel n
  pages : op.cleans = true → s.partialMbList = []

instance (s : MemBufferMapped) (c : Call) (P : Nat → Nat → Nat → Nat → Prop)
    [∀ lo hi rel n, Decidable (P lo hi rel n)] : Decidable (s.EachPage c P) :=
  inferInstanceAs (Decidable (∀ p ∈ s.partialMbList, _ → _))

instance (items : List MetaDataItem) : Decidable (MetaData.Packable items) :=
  decidable_of_iff
    (items.length < 2 ^ 31 ∧
      64 + (items.map fun item => item.content.length + 25).sum < 2 ^ 63)
    ⟨fun h => ⟨h.1, h.2⟩, fun h => ⟨h.count, h.size⟩⟩

instance (m : DynBitMap) : Decidable m.Long :=
  decidable_of_iff
    (m.capacity < 2 ^ 63 ∧ m.growRate < 2 ^ 63 ∧ m.higherSeen < 2 ^ 63 ∧
      -2 ^ 63 ≤ m.bitsetCount ∧ m.bitsetCount < 2 ^ 63)
    ⟨fun h => ⟨h.1, h.2.1, h.2.2.1, h.2.2.2⟩,
      fun h => ⟨h.capacity, h.growRate, h.higherSeen, h.bitsetCount⟩⟩

instance (s : MemBufferMapped) (threadSafe : Bool) (itemSubId : UInt64) :
    Decidable (Fits s threadSafe itemSubId) :=
  decidable_of_iff
    (s.curOffset < 2 ^ 63 ∧ s.dynBitmap.Long ∧
      MetaData.Packable (s.metaDataPack threadSafe [] itemSubId))
    ⟨fun h => ⟨h.1, h.2.1, h.2.2⟩, fun h => ⟨h.curOffset, h.dynBitmap, h.packable⟩⟩

instance (total : Nat) (s : MemBufferMapped) (op : Op) : Decidable (Clean total s op) :=
  decidable_of_iff
    ((∀ c ∈ op.brings s, c.offset + c.size ≤ total) ∧
      (∀ c ∈ op.brings s, s.EachPage c fun lo hi rel n => ¬Block.Gap lo hi rel n) ∧
      (∀ totalSz ∈ op.totalSz, totalSz = total) ∧ (op = .completed → s.appendsPage = false) ∧
      (op.packs.all fun q => s.pageSz < 2 ^ 31 ∧ Fits s q.1 q.2) = true)
    ⟨fun h => ⟨h.1, h.2.1, h.2.2.1, h.2.2.2.1, fun q hq =>
        of_decide_eq_true ((Option.all_eq_true _ _).1 h.2.2.2.2 q hq)⟩,
      fun h => ⟨h.inside, h.closed, h.last, h.appends,
        (Option.all_eq_true _ _).2 fun q hq => decide_eq_true (h.packs q hq)⟩⟩

instance (s : MemBufferMapped) (op : Op) : Decidable (s.Lossless op) :=
  decidable_of_iff
    ((∀ c ∈ op.brings s, s.EachPage c fun lo hi rel n => ¬Block.Loses lo hi rel n) ∧
      (op.cleans = true → s.partialMbList = []))
    ⟨fun h => ⟨h.1, h.2⟩, fun h => ⟨h.kept, h.pages⟩⟩

/-! ## What the calls keep -/

/-- A buffer whose blocks claim nothing that no call wrote. -/
structure Kept (total : Nat) (s : MemBufferMapped) : Prop extends Shape total s where
  holds : ∀ b, (s.view b).Holds s.pageSz total s.Covered b

/-- The blocks claim everything that a call wrote. -/
def Told (s : MemBufferMapped) : Prop := ∀ b, (s.view b).Tells s.pageSz s.Covered b

section Steps

variable {total : Nat} {s t : MemBufferMapped} {op : Op} {c : Call}

theorem kept_init {pageSz : Nat} (hpage : 0 < pageSz) (hsmall : total / pageSz < 2 ^ 31) :
    Kept total (init pageSz) ∧ Told (init pageSz) := by
  have hbit (b : Nat) : (init pageSz).dynBitmap.bitTest b = false := DynBitMap.bitTest_new 256 b
  have hview (b : Nat) : (init pageSz).view b = .empty := view_clear (hbit b)
  refine ⟨⟨⟨hpage, hsmall, MemBuffer.plain_new pageSz, DynBitMap.wf_new 256, Nat.zero_le _,
    fun b hset => ?_, List.Pairwise.nil, nofun⟩, fun b => ?_⟩, fun b => ?_⟩
  · rw [hbit] at hset
    cases hset
  · rw [hview]
    trivial
  · rw [hview]
    intro i _ hwritten
    obtain ⟨c, hc, -⟩ := hwritten
    cases hc

theorem covered_append (pos : Nat) :
    Covered { s with calls := s.calls ++ [c] } pos ↔
      s.Covered pos ∨ c.offset ≤ pos ∧ pos < c.offset + c.size := by
  simp only [Covered, mem_append, mem_singleton]
  constructor
  · rintro ⟨d, hd | rfl, hin⟩
    · exact .inl ⟨d, hd, hin⟩
    · exact .inr hin
  · rintro (⟨d, hd, hin⟩ | hin)
    · exact ⟨d, .inl hd, hin⟩
    · exact ⟨c, .inr rfl, hin⟩

theorem EachPage.block {P : Nat → Nat → Nat → Nat → Prop} (h : s.EachPage c P)
    (hshape : Shape total s) {b lo hi : Nat} (hview : s.view b = .part lo hi)
    (hshare : 0 < Block.share s.pageSz c.offset c.size b) :
    P lo hi (c.offset - b * s.pageSz) (Block.share s.pageSz c.offset c.size b) := by
  obtain ⟨p, hpart, hfits, rfl, rfl⟩ := hshape.page_of_view hview
  obtain ⟨hmem, hindex⟩ := find_index hpart
  have hp := h p hmem
  rw [hindex, Int.toNat_natCast, hfits.plain.getSize] at hp
  exact hp hshare

theorem write_kept (h : Kept total s) {data : List UInt8} (hsize : c.size = data.length)
    (hinside : c.offset + c.size ≤ total)
    (hclosed : s.EachPage c fun lo hi rel n => ¬Block.Gap lo hi rel n) :
    Ends (write c.offset data) { s with calls := s.calls ++ [c] }
      (fun _ t => Kept total t ∧ t.pageSz = s.pageSz ∧
        (Told s → (s.EachPage c fun lo hi rel n => ¬Block.Loses lo hi rel n) → Told t))
      fun _ _ => False := by
  obtain ⟨hshape, hsame⟩ := h.toShape.congr (t := { s with calls := s.calls ++ [c] })
    rfl rfl rfl rfl
  rw [hsize] at hinside
  apply (write_moves hshape hinside).imp
  intro _ t ht
  have hpage : t.pageSz = s.pageSz := ht.pageSz
  have hafter (pos : Nat) : t.Covered pos ↔
      s.Covered pos ∨ c.offset ≤ pos ∧ pos < c.offset + data.length := by
    rw [← hsize, ← covered_append]
    exact ht.toLater.covered
  have hview (b : Nat) :
      t.view b = (s.view b).write s.pageSz c.offset data.length b := by
    rw [ht.view, hsame]
  rw [← hsize] at hview hafter
  refine ⟨⟨ht.shape, fun b => ?_⟩, hpage, fun htold hkept b => ?_⟩
  · rw [hpage, hview]
    exact (h.holds b).write (fun lo hi hv => ⟨(h.part hv).2.1, hclosed.block h.toShape hv⟩) hafter
  · rw [hpage, hview]
    exact (htold b).write (fun lo hi hv => hkept.block h.toShape hv) hafter

theorem checkLastBlock_moves (h : Shape total s) :
    Ends (checkLastBlock total) s
      (fun _ t => Moves total
        (fun b v => if b = total / s.pageSz then v.finished (total % s.pageSz) else v) s t)
      fun _ _ => False := by
  have hpage := h.page
  have htotal := Nat.div_add_mod' total s.pageSz
  have hrest := Nat.mod_lt total hpage
  simp only [checkLastBlock, ends_bind, ends_get, ends_assertThat, decide_eq_true_eq,
    decide_eq_false_iff_not]
  refine ⟨fun _ => ?_, fun hzero => hzero (by omega)⟩
  -- what is left as it was
  have hsame (hview : (s.view (total / s.pageSz)).finished (total % s.pageSz) =
      s.view (total / s.pageSz)) :
      Moves total (fun b v => if b = total / s.pageSz then v.finished (total % s.pageSz) else v)
        s s := by
    refine ⟨Later.refl s, h, fun b => ?_⟩
    by_cases hb : b = total / s.pageSz
    · rw [if_pos hb, hb, hview]
    · rw [if_neg hb]
  cases hfind : s.partialGetByIdx (total / s.pageSz : Nat) with
  | none =>
      simp only [ends_pure]
      apply hsame
      cases hview : s.view (total / s.pageSz) with
      | empty => rfl
      | full => rfl
      | part lo hi =>
          obtain ⟨p, hpart, -⟩ := h.page_of_view hview
          rw [hfind] at hpart
          cases hpart
  | some p =>
      obtain ⟨hclear, hview⟩ := h.view_page hfind
      have hfits := h.parts p (find_index hfind).1
      obtain ⟨hlow, hhigh, -, hreach⟩ := h.part hview
      have hsize := h.size
      simp only [ends_ite, ends_pure, ends_bind, hfits.plain.getSize]
      refine ⟨fun hbegin => hsame ?_, fun hbegin => ⟨fun hall => ?_, fun hshort => hsame ?_⟩⟩
      · rw [hview, Block.finished, if_neg (by omega)]
      · rw [ends_set]
        obtain ⟨mb, hmb⟩ : ∃ mb, s.mainMb.offsetWrite (total - total % s.pageSz)
          (p.mb.offsetRead 0 (total % s.pageSz)) = mb := ⟨_, rfl⟩
        have hlen : (p.mb.offsetRead 0 (total % s.pageSz)).length = total % s.pageSz := by
          have hused := hfits.plain.used
          have halloc := hfits.plain.allocated
          rw [MemBuffer.offsetRead, length_take, length_drop, hfits.plain.offset]
          omega
        have hwritten : mb.size = total := by
          rw [← hmb, MemBuffer.offsetWrite_size, hlen]
          omega
        have hshape : Shape total { s with mainMb := mb } := by
          rw [← hmb]
          exact h.mainWrite (by omega)
        have hmarked := hshape.marked (b := total / s.pageSz)
          (by change total / s.pageSz * s.pageSz < total; omega)
          (by change min total (total / s.pageSz * s.pageSz + s.pageSz) ≤ mb.size; omega)
        rw [hmb]
        refine ⟨⟨rfl, rfl⟩, hmarked, fun b => ?_⟩
        refine (marked_view (s := { s with mainMb := mb }) h.bitmap _ b).trans ?_
        by_cases hb : b = total / s.pageSz
        · subst hb
          rw [if_pos rfl, if_pos rfl, hview, Block.finished, if_pos ⟨by omega, hall⟩]
        · rw [if_neg hb, if_neg hb]
          rfl
      · rw [hview, Block.finished, if_neg (by omega)]

theorem completed_moves (h : Shape total s) (happends : s.appendsPage = false) :
    Ends completed s (fun _ t => Moves total (fun _ v => v) s t) fun _ _ => False := by
  have hsame : Moves total (fun _ v => v) s s := ⟨Later.refl s, h, fun _ => rfl⟩
  simp only [completed, ends_bind, ends_get, ends_ite, ends_pure]
  refine ⟨fun _ => hsame, fun hbegin => ⟨fun _ => hsame, fun hlong => ?_⟩⟩
  have hbegin : s.dynBitmap.checkMultiBlocks 0 s.dynBitmap.higherSeen = true := by
    simpa using hbegin
  have hshrink (t : MemBufferMapped) (ht : Moves total (fun _ v => v) s t) :
      Moves total (fun _ v => v) s { t with
        mainMb := t.mainMb.shrink, complete := true, pctStringUpdate := true } := by
    refine ⟨⟨ht.pageSz, ht.calls⟩, ?_, ht.view⟩
    exact ht.shape.update rfl (MemBuffer.plain_shrink ht.shape.plain)
      (by rw [MemBuffer.shrink_size]) (by rw [MemBuffer.shrink_size]; exact ht.shape.size)
      ht.shape.bitmap (fun b hset => .inl hset) ht.shape.single
      fun p hp => .inr ⟨hp, fun _ _ => rfl⟩
  cases hpages : s.partialMbList with
  | nil =>
      simp only [ends_pure, ends_bind, ends_modify]
      exact hshrink s hsame
  | cons p pages =>
      simp only [ends_bind, ends_ite, ends_pure]
      refine ⟨fun _ => hsame, fun hlast => ?_⟩
      -- the page is the only one, and that of the next block
      cases pages with
      | nil =>
          have hnext : (s.dynBitmap.higherSeen : Int) + 1 = p.userInt := by simpa using hlast
          simp [appendsPage, hpages, hbegin, hnext] at happends
      | cons q pages => simp [hpages] at hlong

theorem view_cleaned (hpages : t.partialMbList = [])
    (hbits : ∀ b, t.dynBitmap.bitTest b = s.dynBitmap.bitTest b) (b : Nat) :
    t.view b = (s.view b).cleaned := by
  by_cases hset : s.dynBitmap.bitTest b = true
  · rw [view_bit hset, view_bit ((hbits b).trans hset)]
    rfl
  · have hclear : s.dynBitmap.bitTest b = false := by simpa using hset
    rw [view_clear hclear, view_clear ((hbits b).trans hclear)]
    have hnone : t.partialGetByIdx b = none := by
      unfold partialGetByIdx
      rw [hpages]
      rfl
    rw [hnone]
    cases s.partialGetByIdx b <;> rfl

theorem partialClean_moves (h : Shape total s) :
    Ends partialClean s (fun _ t => Moves total (fun _ v => v.cleaned) s t) fun _ _ => False := by
  simp only [partialClean, ends_modify]
  refine ⟨⟨rfl, rfl⟩, ?_, view_cleaned rfl fun _ => rfl⟩
  exact h.update (t := { s with partialMbList := [] }) rfl h.plain le_rfl h.size h.bitmap
    (fun b hset => .inl hset) List.Pairwise.nil (by simp)

theorem foldlM_unPackItem_pages {raw : List UInt8} {items : List MetaDataItem.Found} :
    ∀ {u : MemBufferMapped}, items.foldlM (unPackItem raw) u = .ok t →
      t.partialMbList = u.partialMbList := by
  induction items with
  | nil =>
      intro u heq
      cases heq
      rfl
  | cons item items ih =>
      intro u heq
      rw [foldlM_cons] at heq
      cases hstep : unPackItem raw u item with
      | error f =>
          rw [hstep] at heq
          cases heq
      | ok w =>
          rw [hstep] at heq
          have hw : w.partialMbList = u.partialMbList := by
            unfold unPackItem at hstep
            split at hstep
            · split at hstep
              · cases hstep
                rfl
              · cases hstep
            · split at hstep
              · split at hstep
                · cases hstep
                  rfl
                · cases hstep
              · cases hstep
                rfl
          exact (ih heq).trans hw

theorem unPacked_pages {packedMb : MemBuffer}
    (h : metaDataUnPackFromMB packedMb = .ok (some t)) : t.partialMbList = [] := by
  unfold metaDataUnPackFromMB metaDataUnPack at h
  cases hbitmap : DynBitMap.metaDataUnPackFromMB packedMb with
  | error f =>
      rw [hbitmap] at h
      cases h
  | ok found =>
      rw [hbitmap] at h
      cases found with
      | none => cases h
      | some m =>
          simp only [bind, Except.bind] at h
          split at h
          · cases h
          · rename_i u _
            cases hfold : u.items.foldlM (unPackItem u.raw) { init 128 with dynBitmap := m } with
            | error f =>
                rw [hfold] at h
                cases h
            | ok v =>
                rw [hfold] at h
                cases h
                exact foldlM_unPackItem_pages hfold
          · cases h

theorem restore_moves (h : Shape total s) {threadSafe : Bool} {itemSubId : UInt64}
    (hpage : s.pageSz < 2 ^ 31) (hfits : Fits s threadSafe itemSubId) :
    Ends (restore threadSafe itemSubId) s
      (fun _ t => t = s ∨ Moves total (fun _ v => v.cleaned) s t) fun _ _ => False := by
  simp only [restore, ends_modify]
  have hformed : Formed s := ⟨hpage, h.plain, h.bitmap⟩
  by_cases hlong : 7 ≤ s.mainMb.size
  · obtain ⟨t, ht, hsame, hback⟩ := hformed.unPacks hfits hlong
    rw [ht]
    have hsize : t.mainMb.size = s.mainMb.size := by
      rw [← hback.length_bytes, hsame.bytes, hformed.length_bytes]
    have hpages : t.partialMbList = [] := unPacked_pages ht
    refine .inr ⟨⟨hsame.pageSz, rfl⟩, ?_, view_cleaned hpages hsame.dynBitmap.members⟩
    apply h.update (t := { t with calls := s.calls }) hsame.pageSz hback.plain
      (Nat.le_of_eq hsize.symm) (hsize ▸ h.size) hback.dynBitmap
    · exact fun b hset => .inl ((hsame.dynBitmap.members b).symm.trans hset)
    · exact hpages ▸ List.Pairwise.nil
    · intro p hp
      have hp : p ∈ t.partialMbList := hp
      rw [hpages] at hp
      cases hp
  · rw [hfits.unPacks_nothing (by rw [hformed.length_bytes]; omega)]
    exact .inl rfl

theorem Moves.kept {g : Nat → Block → Block} (hmoves : Moves total g s t) (h : Kept total s)
    (hholds : ∀ b v, v.Holds s.pageSz total s.Covered b → (g b v).Holds s.pageSz total s.Covered b)
    (htells : Told s → s.Lossless op →
      ∀ b, (g b (s.view b)).Tells s.pageSz s.Covered b) :
    Kept total t ∧ t.pageSz = s.pageSz ∧ (Told s → s.Lossless op → Told t) := by
  have hcovered : t.Covered = s.Covered := by
    funext pos
    exact propext hmoves.toLater.covered
  refine ⟨⟨hmoves.shape, fun b => ?_⟩, hmoves.pageSz, fun htold hlossless b => ?_⟩
  · rw [hcovered, hmoves.pageSz, hmoves.view]
    exact hholds b _ (h.holds b)
  · rw [hcovered, hmoves.pageSz, hmoves.view]
    exact htells htold hlossless b

theorem Moves.kept_cleaned (hmoves : Moves total (fun _ v => v.cleaned) s t) (h : Kept total s)
    (hcleans : op.cleans = true) :
    Kept total t ∧ t.pageSz = s.pageSz ∧ (Told s → s.Lossless op → Told t) := by
  apply hmoves.kept h
  · intro b v hv
    cases v with
    | empty => trivial
    | part lo hi => trivial
    | full => exact hv
  · -- there is no page that is lost
    intro htold hlossless b
    have hpages := hlossless.pages hcleans
    have hold := htold b
    cases hview : s.view b with
    | empty =>
        rw [hview] at hold
        exact hold
    | full => trivial
    | part lo hi =>
        obtain ⟨p, hpart, -⟩ := h.toShape.page_of_view hview
        simp [partialGetByIdx, hpages] at hpart

/-- **One call.**  A clean call leaves no block that claims too much, and if it drops
no bytes none that claims too little. -/
theorem perform_kept (h : Kept total s) (hclean : Clean total s op) :
    Ends (perform op) s
      (fun _ t => Kept total t ∧ t.pageSz = s.pageSz ∧ (Told s → s.Lossless op → Told t))
      fun _ _ => False := by
  simp only [perform, ends_bind, ends_modify]
  cases op with
  | write off data =>
      apply (write_kept (c := ⟨off, data.length⟩) h rfl (hclean.inside _ rfl)
        (hclean.closed _ rfl)).imp
      intro _ t ht
      exact ⟨ht.1, ht.2.1, fun htold hlossless => ht.2.2 htold (hlossless.kept _ rfl)⟩
  | add data =>
      simp only [add, ends_bind, ends_get, ends_modify]
      apply (write_kept (c := ⟨s.curOffset, data.length⟩) h rfl (hclean.inside _ rfl)
        (hclean.closed _ rfl)).total
      intro _ t ht
      obtain ⟨hkept, hpage, htold⟩ := ht
      obtain ⟨hshape, hview⟩ := hkept.toShape.congr (t := { t with
        curOffset := t.curOffset + data.length }) rfl rfl rfl rfl
      refine ⟨⟨hshape, fun b => ?_⟩, hpage, fun hs hlossless b => ?_⟩
      · rw [hview]
        exact hkept.holds b
      · rw [hview]
        exact htold hs (hlossless.kept _ rfl) b
  | checkLastBlock totalSz =>
      obtain rfl : totalSz = total := hclean.last _ rfl
      simp only [Op.brings, Option.toList_none, append_nil, ends_bind, ends_pure]
      apply (checkLastBlock_moves h.toShape).imp
      intro _ t ht
      apply ht.kept h
      · intro b v hv
        by_cases hb : b = totalSz / s.pageSz
        · subst hb
          rw [if_pos rfl]
          exact hv.finished
        · rw [if_neg hb]
          exact hv
      · intro htold _ b
        by_cases hb : b = totalSz / s.pageSz
        · rw [if_pos hb]
          exact (htold b).finished _
        · rw [if_neg hb]
          exact htold b
  | completed =>
      simp only [Op.brings, Option.toList_none, append_nil, ends_bind, ends_pure]
      apply (completed_moves h.toShape (hclean.appends rfl)).imp
      intro _ t ht
      exact ht.kept h (fun _ _ hv => hv) fun htold _ => htold
  | partialClean =>
      simp only [Op.brings, Option.toList_none, append_nil]
      apply (partialClean_moves h.toShape).imp
      intro _ t ht
      exact ht.kept_cleaned h rfl
  | restore threadSafe itemSubId =>
      obtain ⟨hpage, hfits⟩ := hclean.packs _ rfl
      simp only [Op.brings, Option.toList_none, append_nil]
      apply (restore_moves h.toShape hpage hfits).imp
      intro _ t ht
      rcases ht with rfl | hmoves
      · exact ⟨h, rfl, fun htold _ => htold⟩
      · exact hmoves.kept_cleaned h rfl

theorem runOps_kept {pageSz : Nat} (hpage : 0 < pageSz) (hsmall : total / pageSz < 2 ^ 31)
    {ops : List Op} (hclean : Runs.Meets perform (Clean total) (.live (init pageSz)) ops) :
    Kept total (runOps pageSz ops).state ∧ (runOps pageSz ops).state.pageSz = pageSz := by
  have hinit : Kept total (init pageSz) ∧ (init pageSz).pageSz = pageSz :=
    ⟨(kept_init hpage hsmall).1, rfl⟩
  refine (Runs.invariant_run_of (A := fun _ _ => False)
    (I := fun s => Kept total s ∧ s.pageSz = pageSz) (fun op s h hop => ?_)
    (c := .live (init pageSz)) hinit ops hclean).safe.2
  apply (perform_kept h.1 hop).imp
  intro _ t ht
  exact ⟨ht.1, ht.2.1.trans h.2⟩

theorem runOps_told {pageSz : Nat} (hpage : 0 < pageSz) (hsmall : total / pageSz < 2 ^ 31)
    {ops : List Op} (hclean : Runs.Meets perform (Clean total) (.live (init pageSz)) ops)
    (hlossless : Runs.Meets perform Lossless (.live (init pageSz)) ops) :
    Told (runOps pageSz ops).state := by
  have hinit : Kept total (init pageSz) ∧ Told (init pageSz) := kept_init hpage hsmall
  refine (Runs.invariant_run_of (A := fun _ _ => False) (I := fun s => Kept total s ∧ Told s)
    (fun op s h hop => ?_) (c := .live (init pageSz)) hinit ops
    (hclean.and hlossless)).safe.2.2
  apply (perform_kept h.1 hop.1).imp
  intro _ t ht
  exact ⟨ht.1, ht.2.2 h.2 hop.2⟩

end Steps

end MemBufferMapped

end BrbData
