import BrbFramework.Data.MemBufferMapped

/-!
# Mapped memory buffers filled in order

Slices that arrive in order, each where the previous one ended, fill one
partial page at a time. `Reached` says what the buffer looks like when they
got to a position: the blocks between the first offset and there are complete,
and the block in progress has a partial page that ends there. A write stores
its whole pages before its front part, so `Reached` also knows of blocks ahead.

The first page begins where the first slice did. `MemBufferMappedPartialDataProcess`
compares the end of new data with the sum of that beginning and the size of the
page, and the size counts from the start of the block already: data shorter than
the part of the block in front of the first slice is taken for an overwrite.
-/

namespace BrbData

open Handler Machine List

namespace MemBufferMapped

variable {f : Nat → UInt8} {s t : MemBufferMapped} {data : List UInt8}

/-- All of `[o, e)` was written in order, and the `m` blocks from `i` on, ahead of `e`. -/
structure Reached (f : Nat → UInt8) (o e i m : Nat) (s : MemBufferMapped) : Prop where
  le : o ≤ e
  apart : 0 < m → e ≤ i * s.pageSz
  held : ∀ pos, o ≤ pos → pos < e → s.Held f pos
  ahead : ∀ b, i ≤ b → b < i + m → ∀ j < s.pageSz, s.Held f (b * s.pageSz + j)
  bits : ∀ b, s.dynBitmap.bitTest b = true ↔
    (o ≤ b * s.pageSz ∧ (b + 1) * s.pageSz ≤ e) ∨ (i ≤ b ∧ b < i + m)
  /-- The page of the block in progress ends at `e`. -/
  current : ∀ b, b * s.pageSz < e → e < (b + 1) * s.pageSz → o < e →
    ∃ p, s.partialGetByIdx b = some p ∧ p.mb.getSize = e - b * s.pageSz ∧
      p.userLong = o - b * s.pageSz
  fresh : ∀ b, e < (b + 1) * s.pageSz → e ≤ b * s.pageSz ∨ e = o → b < i ∨ i + m ≤ b →
    s.partialGetByIdx b = none

theorem reached_init (f : Nat → UInt8) (o : Nat) {pageSz : Nat} (hpage : 0 < pageSz) :
    Reached f o o 0 0 (init pageSz) where
  le := le_rfl
  apart h := absurd h (Nat.lt_irrefl 0)
  held pos hlow hhigh := absurd hlow (by omega)
  ahead b _ h := absurd h (by omega)
  bits b := by
    have hclear : (init pageSz).dynBitmap.bitTest b = false := DynBitMap.bitTest_new 256 b
    have hstep : (b + 1) * pageSz = b * pageSz + pageSz := Nat.succ_mul b pageSz
    rw [hclear]
    change false = true ↔ (o ≤ b * pageSz ∧ (b + 1) * pageSz ≤ o) ∨ _
    constructor
    · nofun
    · omega
  current b _ _ h := absurd h (Nat.lt_irrefl o)
  fresh _ _ _ _ := rfl

section Steps

variable {o e i m : Nat}

theorem Reached.view (h : Reached f o e i m s) (hpage : t.pageSz = s.pageSz)
    (hheld : ∀ pos, s.Held f pos → t.Held f pos) (hbitmap : t.dynBitmap = s.dynBitmap)
    (hlist : t.partialMbList = s.partialMbList) : Reached f o e i m t := by
  have hget (b : Nat) : t.partialGetByIdx b = s.partialGetByIdx b := by
    simp only [partialGetByIdx, hlist]
  refine ⟨h.le, ?_, fun pos hlow hhigh => hheld pos (h.held pos hlow hhigh), ?_, ?_, ?_, ?_⟩
  all_goals simp only [hpage, hbitmap, hget]
  · exact h.apart
  · exact fun b hlow hhigh j hj => hheld _ (h.ahead b hlow hhigh j hj)
  · exact h.bits
  · exact h.current
  · exact h.fresh

theorem Reached.incomplete (h : Reached f o e i m s) {b : Nat} (hb : e < (b + 1) * s.pageSz)
    (hout : b < i ∨ i + m ≤ b) : s.dynBitmap.bitTest b = false := by
  rw [Bool.eq_false_iff]
  intro hset
  rcases (h.bits b).1 hset with hin | hin <;> omega

theorem Reached.marked (h : Reached f o e 0 0 s) {start count : Nat}
    (hmarked : Marked start count s t) (hholding : Holding f (start * s.pageSz) data s t)
    (hdata : data.length = count * s.pageSz) (hle : 0 < count → e ≤ start * s.pageSz) :
    Reached f o e start count t where
  le := h.le
  apart := hmarked.pageSz ▸ hle
  held pos hlow hhigh := hholding.kept pos (h.held pos hlow hhigh)
  ahead b hlow hhigh j hj := by
    rw [hmarked.pageSz] at hj ⊢
    obtain ⟨k, rfl⟩ : ∃ k, b = start + k := ⟨b - start, by omega⟩
    have hk : k * s.pageSz + s.pageSz ≤ count * s.pageSz := by
      rw [← Nat.succ_mul]
      exact Nat.mul_le_mul_right _ (by omega)
    rw [Nat.add_mul, Nat.add_assoc]
    exact hholding.stored _ (by omega)
  bits b := by
    rw [hmarked.pageSz]
    by_cases hin : start ≤ b ∧ b < start + count
    · simp [hmarked.set b hin.1 hin.2, hin]
    · rw [hmarked.bitTest b (by omega), h.bits b]
      omega
  current b hlow hhigh ho := by
    rw [hmarked.pageSz] at hlow hhigh ⊢
    rw [hmarked.page b]
    · exact h.current b hlow hhigh ho
    · by_cases hzero : 0 < count
      · have hless : b * s.pageSz < start * s.pageSz := Nat.lt_of_lt_of_le hlow (hle hzero)
        exact .inl (Nat.lt_of_mul_lt_mul_right hless)
      · omega
  fresh b hhigh ho hout := by
    rw [hmarked.pageSz] at hhigh ho
    rw [hmarked.page b hout]
    exact h.fresh b hhigh ho (by omega)

theorem Reached.join (h : Reached f o (i * s.pageSz) i m s) (hpage : 0 < s.pageSz) :
    Reached f o ((i + m) * s.pageSz) 0 0 s where
  le := h.le.trans (Nat.mul_le_mul_right _ (Nat.le_add_right i m))
  apart h := absurd h (Nat.lt_irrefl 0)
  held pos hlow hhigh := by
    by_cases hpos : pos < i * s.pageSz
    · exact h.held pos hlow hpos
    · have hdiv : i ≤ pos / s.pageSz := (Nat.le_div_iff_mul_le hpage).2 (by omega)
      have hdiv' : pos / s.pageSz < i + m := Nat.div_lt_of_lt_mul (by rwa [Nat.mul_comm])
      rw [← Nat.div_add_mod' pos s.pageSz]
      exact h.ahead _ hdiv hdiv' _ (Nat.mod_lt _ hpage)
  ahead b _ hb := absurd hb (by omega)
  bits b := by
    have hblock (c : Nat) : (b + 1) * s.pageSz ≤ c * s.pageSz ↔ b < c :=
      Nat.mul_le_mul_right_iff hpage
    have hahead : i ≤ b → o ≤ b * s.pageSz := fun hb => h.le.trans (Nat.mul_le_mul_right _ hb)
    rw [h.bits b, hblock, hblock]
    omega
  current b hlow hhigh := by
    have := Nat.lt_of_mul_lt_mul_right hlow
    have := Nat.lt_of_mul_lt_mul_right hhigh
    omega
  fresh b hhigh _ _ := by
    have hb : i + m ≤ b := Nat.lt_succ_iff.1 (Nat.lt_of_mul_lt_mul_right hhigh)
    refine h.fresh b ?_ (.inl (Nat.mul_le_mul_right _ (by omega))) (.inr hb)
    exact Nat.lt_of_le_of_lt (Nat.mul_le_mul_right _ (Nat.le_add_right i m)) hhigh

/-- The page that takes data at `e`: what a later slice brings to the block of the first one
is not shorter than the part of the block in front of it. -/
theorem Reached.takes (h : Reached f o e i m s) (hinv : Inv f s) {block rel : Nat}
    (hat : e = block * s.pageSz + rel) (hrel : rel < s.pageSz) (hout : block < i ∨ i + m ≤ block)
    (hne : 0 < data.length) (hjoin : o < e → 0 < rel → o - block * s.pageSz ≤ data.length) :
    ∃ p, s.takes data block rel = some p ∧ p.mb.getSize = rel + data.length ∧
      p.userLong = o - block * s.pageSz := by
  have hle := h.le
  have hhigh : e < (block + 1) * s.pageSz := by
    rw [Nat.succ_mul]
    omega
  have hfilled {p : PagePart} (hplain : p.mb.Plain) (n : Nat) :
      (p.fill data block rel n).mb.getSize = max p.mb.getSize (rel + data.length) := by
    have hgrown : (p.mb.offsetWrite rel data).getSize = (p.mb.offsetWrite rel data).size := by
      rw [MemBuffer.getSize, MemBuffer.offsetWrite_offset, hplain.offset, Nat.sub_zero]
    rw [hplain.getSize]
    exact hgrown.trans MemBuffer.offsetWrite_size
  unfold MemBufferMapped.takes
  rw [h.incomplete hhigh hout, if_neg Bool.false_ne_true]
  by_cases hcurrent : 0 < rel ∧ o < e
  · obtain ⟨p, hp, hsize, hbegin⟩ := h.current block (by omega) hhigh hcurrent.2
    have hsize : p.mb.getSize = rel := by omega
    have hlong := hjoin hcurrent.2 hcurrent.1
    have haccepts : p.accepts data.length rel = some p.userLong := by
      unfold PagePart.accepts
      rw [hsize, if_neg (by omega), if_neg (by omega), if_neg (by omega), if_pos (by omega)]
    rw [hp]
    refine ⟨p.fill data block rel p.userLong, by simp [haccepts], ?_, hbegin⟩
    rw [hfilled (hinv.parts p (find_index hp).1).plain, hsize]
    omega
  · rw [h.fresh block hhigh (by omega) hout]
    refine ⟨_, rfl, ?_, ?_⟩
    · rw [hfilled (MemBuffer.plain_new _)]
      change max 0 _ = _
      omega
    · change rel = _
      omega

theorem Reached.part (h : Reached f o e i m s) (hinv : Inv f s) {block rel : Nat}
    (hat : e = block * s.pageSz + rel) (hrel : rel < s.pageSz) (hout : block < i ∨ m = 0)
    (hne : 0 < data.length) (hfit : rel + data.length ≤ s.pageSz)
    (hjoin : o < e → 0 < rel → o - block * s.pageSz ≤ data.length)
    (hpart : Part f block rel data s t) : Reached f o (e + data.length) i m t := by
  obtain ⟨p, htakes, hsize, hbegin⟩ := h.takes hinv hat hrel (by omega) hne hjoin
  obtain ⟨hholding, hothers, hfull, hrest⟩ := hpart.taken p hne htakes
  rw [hsize, hbegin] at hfull hrest
  have hle := h.le
  have hblocks {b c : Nat} (hlt : b < c) : (b + 1) * s.pageSz ≤ c * s.pageSz :=
    Nat.mul_le_mul_right _ hlt
  have hnext (b : Nat) : (b + 1) * s.pageSz = b * s.pageSz + s.pageSz := Nat.succ_mul _ _
  have hblock := hnext block
  refine ⟨by omega, fun hm => ?_, fun pos hlow hhigh => ?_, fun b hlow hhigh j hj => ?_,
    fun b => ?_, fun b hlow hhigh ho => ?_, fun b hhigh ho hb => ?_⟩
  · rw [hpart.pageSz]
    have := hblocks (show block < i by omega)
    omega
  · by_cases hpos : pos < e
    · exact hholding.kept pos (h.held pos hlow hpos)
    · obtain ⟨j, rfl⟩ : ∃ j, pos = block * s.pageSz + rel + j := ⟨pos - e, by omega⟩
      exact hholding.stored j (by omega)
  · rw [hpart.pageSz] at hj ⊢
    exact hholding.kept _ (h.ahead b hlow hhigh j hj)
  · rw [hpart.pageSz]
    by_cases hb : b = block
    · subst hb
      by_cases hcomplete : s.pageSz ≤ rel + data.length - (o - b * s.pageSz)
      · simp only [hfull hcomplete, true_iff]
        omega
      · rw [(hrest hcomplete).1]
        simp only [Bool.false_eq_true, false_iff]
        omega
    · rw [(hothers b hb).1, h.bits b]
      rcases Nat.lt_or_gt_of_ne hb with hlt | hlt
      · have := hblocks hlt
        omega
      · have := hblocks hlt
        have := hnext b
        omega
  · rw [hpart.pageSz] at hlow hhigh ⊢
    obtain rfl : b = block := by
      rcases Nat.lt_trichotomy b block with hlt | heq | hlt
      · have := hblocks hlt
        omega
      · exact heq
      · have := hblocks hlt
        omega
    exact ⟨p, (hrest (by omega)).2, by omega, hbegin⟩
  · rw [hpart.pageSz] at hhigh ho
    rw [(hothers b (by rintro rfl; omega)).2]
    exact h.fresh b (by omega) (by omega) hb

theorem Reached.behind (h : Reached f o e i 0 s) : Reached f o e 0 0 s where
  le := h.le
  apart h := absurd h (Nat.lt_irrefl 0)
  held := h.held
  ahead b _ hb := absurd hb (by omega)
  bits b := by
    rw [h.bits b]
    omega
  current := h.current
  fresh b hhigh ho _ := h.fresh b hhigh ho (by omega)

theorem Reached.write (h : Reached f o e 0 0 s) (hpage : 0 < s.pageSz)
    (hjoin : o < e → 0 < data.length → e / s.pageSz = o / s.pageSz →
      o % s.pageSz ≤ data.length ∧ o % s.pageSz ≤ s.pageSz - e % s.pageSz)
    (hwritten : Written f e data s t) : Reached f o (e + data.length) 0 0 t := by
  obtain ⟨trail, count, finish, start, t, u, v, hcut, ⟨hinvt, hmarked, hholding⟩,
    ⟨hinvu, hfront⟩, hfinish, rfl⟩ := hwritten
  obtain ⟨hsize, hfin, hin, hstart, hborder, hhigher⟩ := hcut
  have hat := Nat.div_add_mod' e s.pageSz
  have hrel := Nat.mod_lt e hpage
  have hpaget : t.pageSz = s.pageSz := hmarked.pageSz
  have hpageu : u.pageSz = s.pageSz := hfront.pageSz.trans hpaget
  have hlen : (data.take trail).length = trail := by
    rw [length_take]
    omega
  have hlen' : ((data.drop trail).drop (count * s.pageSz)).length = finish := by
    rw [length_drop, length_drop]
    omega
  have hcount : 0 < count → 0 < count * s.pageSz := fun h => Nat.mul_pos h hpage
  have hmiddle : Reached f o e start count t := by
    refine h.marked hmarked hholding ?_ fun hpos => ?_
    · rw [length_take, length_drop]
      omega
    · have := hborder (by have := hcount hpos; omega)
      omega
  have hpast : Reached f o (e + trail) start count u := by
    by_cases hne : 0 < trail
    · have hlower : e / s.pageSz < start := by
        rw [hstart, if_pos hne]
        exact Nat.lt_succ_self _
      have hpart := hmiddle.part hinvt (by rw [hpaget]; exact hat.symm) (by rw [hpaget]; exact hrel)
        (.inl hlower) (by omega) (by rw [hpaget]; omega) (fun ho hpos => ?_) hfront
      · rwa [hlen] at hpart
      · rw [hpaget, hlen]
        have htrail : trail = data.length ∨ trail = s.pageSz - e % s.pageSz := by
          by_cases hlt : trail < data.length
          · have := hborder hlt
            rw [hstart, if_pos hne, Nat.succ_mul] at this
            omega
          · omega
        rcases Nat.lt_or_eq_of_le (Nat.div_le_div_right (c := s.pageSz) h.le) with hless | hsame
        · have : o < e / s.pageSz * s.pageSz := (Nat.div_lt_iff_lt_mul hpage).1 hless
          omega
        · have := hjoin ho (by omega) hsame.symm
          have := Nat.div_add_mod' o s.pageSz
          rw [hsame] at this
          omega
    · rw [hfront.empty (by omega), Nat.eq_zero_of_not_pos hne]
      exact hmiddle
  have hrest : Reached f o (e + data.length) 0 0 v := by
    by_cases hlt : trail < data.length
    · have hjoined := hborder hlt
      rw [hjoined, ← hpageu] at hpast
      have hpast := hpast.join (by omega)
      by_cases hne : 0 < finish
      · have hlast : Part f (start + count) 0 ((data.drop trail).drop (count * s.pageSz)) u v :=
          hhigher hlt ▸ hfinish
        have hpart := hpast.part hinvu (Nat.add_zero _).symm (by omega) (.inr rfl) (by omega)
          (by omega) (fun _ h => absurd h (Nat.lt_irrefl 0)) hlast
        rw [hpageu, hlen', Nat.add_mul, ← hjoined] at hpart
        rwa [show e + data.length = e + trail + count * s.pageSz + finish by omega]
      · rw [hpageu, Nat.add_mul, ← hjoined] at hpast
        rw [hfinish.empty (by omega),
          show e + data.length = e + trail + count * s.pageSz by omega]
        exact hpast
    · have hzero : count = 0 := Nat.eq_zero_of_not_pos fun hpos => by
        have := hcount hpos
        omega
      subst hzero
      rw [hfinish.empty (by omega), show e + data.length = e + trail by omega]
      exact hpast.behind
  exact hrest.view rfl (fun _ hpos => hpos) rfl rfl

theorem Reached.orderly (h : Reached f o e 0 0 s) (hpage : 0 < s.pageSz) {n : Nat}
    (hsmall : (e + n) / s.pageSz < 2 ^ 31) : s.Orderly ⟨e, n⟩ where
  small := hsmall
  closed htrail _ p hp hgap := by
    have hat := Nat.div_add_mod' e s.pageSz
    have hhigh : e < (e / s.pageSz + 1) * s.pageSz := by
      have := Nat.mod_lt e hpage
      rw [Nat.succ_mul]
      omega
    have hp : s.partialGetByIdx (e / s.pageSz : Nat) = some p := hp
    by_cases hcurrent : e / s.pageSz * s.pageSz < e ∧ o < e
    · obtain ⟨q, hq, hsize, -⟩ := h.current _ hcurrent.1 hhigh hcurrent.2
      rw [hp, Option.some.injEq] at hq
      subst hq
      have hgap : p.mb.getSize < e % s.pageSz := hgap.1
      omega
    · have hle := h.le
      rw [h.fresh _ hhigh (by omega) (by omega)] at hp
      cases hp

end Steps

/-! ## Runs in order -/

/-- Slices of the sizes `sizes`, each where the one before ended. -/
def inOrder (offset : Nat) : List Nat → List Call
  | [] => []
  | n :: sizes => ⟨offset, n⟩ :: inOrder (offset + n) sizes

/-- Each block that lies in `[o, e)` is complete, and the main buffer holds all of `[o, e)`. -/
structure Complete (f : Nat → UInt8) (o e : Nat) (s : MemBufferMapped) : Prop where
  blocks : ∀ b, o ≤ b * s.pageSz → (b + 1) * s.pageSz ≤ e → s.dynBitmap.bitTest b = true
  content : ∀ pos, o ≤ pos → pos < e →
    pos < s.mainMb.size ∧ s.mainMb.data[pos]? = some (f pos)

/-- A later slice that brings data to the block of the first one, up to the end of that
block, brings as many bytes as the block has in front of the first slice. -/
def Joins (pageSz o : Nat) (c : Call) : Prop :=
  o < c.offset → 0 < c.size → c.offset / pageSz = o / pageSz →
    o % pageSz ≤ c.size ∧ o % pageSz ≤ pageSz - c.offset % pageSz

instance (pageSz o : Nat) (c : Call) : Decidable (Joins pageSz o c) :=
  inferInstanceAs (Decidable (_ → _ → _ → _))

theorem handle_inOrder {o e n : Nat} (h : Reached f o e 0 0 s) (hinv : Inv f s)
    (hpage : 0 < s.pageSz) (hsmall : (e + n) / s.pageSz < 2 ^ 31)
    (hjoins : Joins s.pageSz o ⟨e, n⟩) :
    Ends (handle f ⟨e, n⟩) s
      (fun _ t => Inv f t ∧ Reached f o (e + n) 0 0 t ∧ t.pageSz = s.pageSz)
      fun _ _ => False := by
  have hlen : (slice f ⟨e, n⟩).length = n := by simp [slice]
  refine (handle_ends hinv (h.orderly hpage hsmall)).mono (fun _ t ht => ?_)
    fun _ _ ht => absurd ht.2 (Nat.ne_of_gt hpage)
  obtain ⟨hinv', hwritten⟩ := ht
  have hcalled : Reached f o e 0 0 { s with calls := s.calls ++ [⟨e, n⟩] } := by
    refine h.view rfl (fun pos hpos => ⟨?_, hpos.2⟩) rfl rfl
    obtain ⟨d, hd, hin⟩ := hpos.1
    exact ⟨d, mem_append_left _ hd, hin⟩
  have hreached := hcalled.write hpage (by rw [hlen]; exact hjoins) hwritten
  rw [hlen] at hreached
  exact ⟨hinv', hreached, hwritten.later.pageSz⟩

theorem run_inOrder {o : Nat} (sizes : List Nat) : ∀ {e : Nat} {s : MemBufferMapped},
    Reached f o e 0 0 s → Inv f s → 0 < s.pageSz → (e + sizes.sum) / s.pageSz < 2 ^ 31 →
      (∀ c ∈ inOrder e sizes, Joins s.pageSz o c) →
        ∃ t, Runs.run (handle f) (.live s) (inOrder e sizes) = .live t ∧
          Reached f o (e + sizes.sum) 0 0 t ∧ t.pageSz = s.pageSz := by
  induction sizes with
  | nil =>
      intro e s h _ _ _ _
      exact ⟨s, rfl, h, rfl⟩
  | cons n sizes ih =>
      intro e s h hinv hpage hsmall hjoins
      rw [sum_cons, ← Nat.add_assoc] at hsmall ⊢
      have hfirst : (e + n) / s.pageSz < 2 ^ 31 :=
        Nat.lt_of_le_of_lt (Nat.div_le_div_right (Nat.le_add_right _ _)) hsmall
      have hends := handle_inOrder h hinv hpage hfirst (hjoins _ mem_cons_self)
      rcases exec_of_ends hends with ⟨hlive, -, hinv', hreached, hpage'⟩ | ⟨-, -, hf⟩
      · obtain ⟨t, hrun, ht, htpage⟩ := ih hreached hinv' (hpage' ▸ hpage) (hpage' ▸ hsmall)
          fun c hc => hpage' ▸ hjoins c (mem_cons_of_mem _ hc)
        refine ⟨t, ?_, ht, htpage.trans hpage'⟩
        rw [inOrder, Runs.run_cons]
        have hstep : Runs.step (handle f) (.live s) ⟨e, n⟩ =
            .live (exec (handle f ⟨e, n⟩) s).1 := by
          simp only [Runs.step, Runs.Config.live, hlive]
        rw [hstep]
        exact hrun
      · exact hf.elim

/-- **Completeness of writes in order.**  If no later slice brings too little to the block of
the first one, every block that the slices cover is complete, and no byte is dropped. -/
theorem in_order_writes_complete (f : Nat → UInt8) (pageSz o : Nat) (sizes : List Nat)
    (hpage : 0 < pageSz) (hsmall : (o + sizes.sum) / pageSz < 2 ^ 31)
    (hjoins : ∀ c ∈ inOrder o sizes, Joins pageSz o c) :
    (runFrom f pageSz (inOrder o sizes)).fault = none ∧
      Complete f o (o + sizes.sum) (runFrom f pageSz (inOrder o sizes)).state := by
  obtain ⟨t, hrun, hreached, hpaget⟩ :=
    run_inOrder sizes (reached_init f o hpage) (inv_init f pageSz) hpage hsmall hjoins
  have hrun : runFrom f pageSz (inOrder o sizes) = .live t := hrun
  rw [hrun]
  refine ⟨rfl, fun b hlow hhigh => (hreached.bits b).2 (.inl ⟨hlow, hhigh⟩), fun pos hlow hhigh => ?_⟩
  exact (hreached.held pos hlow hhigh).2

/-- Slices of many sizes from the middle of a block on. -/
theorem in_order_writes_complete_from_three :
    (runFrom Nat.toUInt8 10 (inOrder 3 [2, 5, 0, 35, 1, 6, 20])).fault = none ∧
      Complete Nat.toUInt8 3 72 (runFrom Nat.toUInt8 10 (inOrder 3 [2, 5, 0, 35, 1, 6, 20])).state :=
  in_order_writes_complete Nat.toUInt8 10 3 [2, 5, 0, 35, 1, 6, 20] (by decide) (by decide)
    (by decide)

/-- The second slice goes to a page that begins at 4, and is shorter than that: it is dropped. -/
theorem short_append_is_dropped :
    ¬ Complete Nat.toUInt8 4 8 (runFrom Nat.toUInt8 10 (inOrder 4 [2, 2])).state := by
  intro h
  have hsize : (runFrom Nat.toUInt8 10 (inOrder 4 [2, 2])).state.mainMb.size = 6 := by
    decide +kernel
  have hin := (h.content 6 (by decide) (by decide)).1
  omega

end MemBufferMapped

end BrbData
