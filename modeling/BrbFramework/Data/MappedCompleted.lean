import BrbFramework.Data.MemBufferMapped

/-!
# Completing a mapped memory buffer

`MemBufferMappedCompleted` wants the bits of all blocks up to the largest one
seen. If one partial page is left it has to be that of the next block, and its
bytes are appended to the main buffer. `MemBufferMappedPartialDataProcess`
wrote them there already, so the buffer ends up with the last page twice.

`Safe` says of a written byte what the bookkeeping knows: the main buffer holds
it, or the partial page of its block is there. When no partial page is left
every written byte is held.
-/

namespace BrbData

open Handler Machine List

namespace MemBufferMapped

/-- `MemBufferMappedCompleted`. -/
def completed : M Bool := do
  let s ← get
  let beginComplete := s.dynBitmap.checkMultiBlocks 0 s.dynBitmap.higherSeen
  if !beginComplete then
    return false
  if s.partialMbList.length > 1 then
    return false
  if let p :: pages := s.partialMbList then
    if (s.dynBitmap.higherSeen : Int) + 1 ≠ p.userInt then
      return false
    -- "Add to MAIN_MB and DROP incomplete page"
    set { s with
      dynBitmap := s.dynBitmap.bitSet p.userInt.toNat
      mainMb := s.mainMb.add p.mb.bytes
      partialMbList := pages }
  modify fun s => { s with mainMb := s.mainMb.shrink, complete := true, pctStringUpdate := true }
  return true

variable {f : Nat → UInt8} {s t u : MemBufferMapped} {data : List UInt8}

/-! ## Where the written bytes are -/

/-- The byte is held, or the partial page of its block is in the list. -/
def Safe (f : Nat → UInt8) (s : MemBufferMapped) (pos : Nat) : Prop :=
  s.Held f pos ∨ (s.partialGetByIdx (pos / s.pageSz : Nat)).isSome

theorem Inv.held (h : Inv f s) (hpage : 0 < s.pageSz) {pos : Nat}
    (hset : s.dynBitmap.bitTest (pos / s.pageSz) = true) : s.Held f pos := by
  have hheld := h.sound _ hset (pos % s.pageSz) (Nat.mod_lt _ hpage)
  rwa [Nat.div_add_mod'] at hheld

theorem Safe.marked {off start count pos : Nat} (h : s.Safe f pos) (hinv : Inv f t)
    (hpage : 0 < s.pageSz) (hmarked : Marked start count s t) (hholding : Holding f off data s t) :
    t.Safe f pos := by
  rcases h with hheld | hpart
  · exact .inl (hholding.kept pos hheld)
  · by_cases hin : start ≤ pos / s.pageSz ∧ pos / s.pageSz < start + count
    · refine .inl (hinv.held (hmarked.pageSz ▸ hpage) ?_)
      rw [hmarked.pageSz]
      exact hmarked.set _ hin.1 hin.2
    · refine .inr ?_
      rw [hmarked.pageSz, hmarked.page _ (by omega)]
      exact hpart

theorem Part.safe {block rel : Nat} (h : Part f block rel data s t) (hinv : Inv f s)
    (hinv' : Inv f t) (hpage : 0 < s.pageSz) {pos : Nat}
    (hpos : s.Safe f pos ∨ pos / s.pageSz = block ∧
      ∃ i < data.length, pos = block * s.pageSz + rel + i) : t.Safe f pos := by
  by_cases hne : 0 < data.length
  · cases htakes : s.takes data block rel with
    | none =>
        rw [h.dropped htakes]
        rcases hpos with hsafe | ⟨hblock, -⟩
        · exact hsafe
        · unfold takes at htakes
          split at htakes
          · exact .inl (hinv.held hpage (hblock ▸ ‹_›))
          · refine .inr ?_
            rw [hblock]
            cases hpart : s.partialGetByIdx block with
            | none => simp [hpart] at htakes
            | some p => rfl
    | some p =>
        obtain ⟨hholding, hothers, hfull, hrest⟩ := h.taken p hne htakes
        rcases hpos with (hheld | hpart) | ⟨-, i, hi, rfl⟩
        · exact .inl (hholding.kept pos hheld)
        · by_cases hblock : pos / s.pageSz = block
          · by_cases hcomplete : s.pageSz ≤ p.mb.getSize - p.userLong
            · refine .inl (hinv'.held (h.pageSz ▸ hpage) ?_)
              rw [h.pageSz, hblock]
              exact hfull hcomplete
            · refine .inr ?_
              rw [h.pageSz, hblock, (hrest hcomplete).2]
              rfl
          · refine .inr ?_
            rw [h.pageSz, (hothers _ hblock).2]
            exact hpart
        · exact .inl (hholding.stored i hi)
  · rw [h.empty hne]
    rcases hpos with hsafe | ⟨-, i, hi, -⟩
    · exact hsafe
    · omega

theorem Part.bounded {block rel bound : Nat} (h : Part f block rel data s t)
    (hs : s.Bounded bound) : t.Bounded bound := by
  by_cases hne : 0 < data.length
  · cases htakes : s.takes data block rel with
    | none =>
        rw [h.dropped htakes]
        exact hs
    | some p => exact (h.taken p hne htakes).holding.bounded bound hs
  · rw [h.empty hne]
    exact hs

theorem Written.safe {off : Nat} (h : Written f off data s t) (hinv : Inv f t)
    (hpage : 0 < s.pageSz) {pos : Nat}
    (hpos : s.Safe f pos ∨ off ≤ pos ∧ pos < off + data.length) : t.Safe f pos := by
  obtain ⟨trail, count, finish, start, u, v, w, hcut, ⟨hinvu, hmarked, hholding⟩,
    ⟨hinvv, hfront⟩, hfinish, rfl⟩ := h
  obtain ⟨hsize, hfin, hin, -, hborder, hhigher⟩ := hcut
  have hinvw : Inv f w := ⟨hinv.plain, hinv.bitmap, hinv.sound,
    fun p hp => (hinv.parts p hp).later ⟨rfl, rfl⟩, hinv.small⟩
  have hpageu : u.pageSz = s.pageSz := hmarked.pageSz
  have hpagev : v.pageSz = s.pageSz := hfront.pageSz.trans hpageu
  have hat := Nat.div_add_mod' off s.pageSz
  suffices hw : w.Safe f pos from hw
  refine hfinish.safe hinvv hinvw (hpagev ▸ hpage) ?_
  by_cases hlast : off + trail + count * s.pageSz ≤ pos ∧ pos < off + data.length
  · -- the byte is in the finish
    have hlt : trail < data.length := by omega
    have hstart := hborder hlt
    obtain ⟨i, rfl⟩ : ∃ i, pos = (start + count) * s.pageSz + i :=
      ⟨pos - (start + count) * s.pageSz, by rw [Nat.add_mul]; omega⟩
    rw [Nat.add_mul] at hlast
    refine .inr ⟨?_, i, ?_, ?_⟩
    · rw [hhigher hlt, hpagev, Nat.mul_comm, Nat.mul_add_div hpage, Nat.div_eq_of_lt (by omega),
        Nat.add_zero]
    · rw [length_drop, length_drop]
      omega
    · rw [hhigher hlt, hpagev, Nat.add_zero]
  refine .inl (hfront.safe hinvu hinvv (hpageu ▸ hpage) ?_)
  rcases hpos with hsafe | ⟨hlow, hhigh⟩
  · exact .inl (hsafe.marked hinvu hpage hmarked hholding)
  by_cases htrail : pos < off + trail
  · obtain ⟨i, rfl⟩ : ∃ i, pos = off + i := ⟨pos - off, by omega⟩
    refine .inr ⟨?_, i, ?_, ?_⟩
    · rw [hpageu]
      refine Nat.div_eq_of_lt_le (by omega) ?_
      rw [Nat.succ_mul]
      omega
    · rw [length_take]
      omega
    · rw [hpageu, hat]
  · have hstart := hborder (by omega)
    obtain ⟨i, rfl⟩ : ∃ i, pos = start * s.pageSz + i := ⟨pos - start * s.pageSz, by omega⟩
    refine .inl (.inl (hholding.stored i ?_))
    rw [length_take, length_drop]
    omega

theorem Written.bounded {off bound : Nat} (h : Written f off data s t) (hs : s.Bounded bound) :
    t.Bounded bound := by
  obtain ⟨trail, count, finish, start, u, v, w, -, ⟨-, -, hholding⟩, ⟨-, hfront⟩, hfinish, rfl⟩ := h
  exact hfinish.bounded (hfront.bounded (hholding.bounded bound hs))

/-- What the calls wrote is safe, and nothing is behind it. -/
structure Accounted (f : Nat → UInt8) (s : MemBufferMapped) : Prop extends Inv f s where
  page : 0 < s.pageSz
  safe : ∀ pos, s.Covered pos → s.Safe f pos
  bounded : ∀ bound, (∀ pos, s.Covered pos → pos < bound) → s.mainMb.size ≤ bound

theorem accounted_init (f : Nat → UInt8) {pageSz : Nat} (hpage : 0 < pageSz) :
    Accounted f (init pageSz) where
  toInv := inv_init f pageSz
  page := hpage
  safe pos hpos := by
    obtain ⟨c, hc, -⟩ := hpos
    cases hc
  bounded bound _ := Nat.zero_le bound

theorem handle_accounted (h : Accounted f s) {c : Call} (horderly : s.Orderly c) :
    Ends (handle f c) s (fun _ t => Accounted f t ∧ t.calls = s.calls ++ [c])
      fun _ _ => False := by
  have hlen : (slice f c).length = c.size := by simp [slice]
  refine (handle_ends h.toInv horderly).mono (fun _ t ht => ?_)
    fun _ _ ht => absurd ht.2 (Nat.ne_of_gt h.page)
  obtain ⟨hinv, hwritten⟩ := ht
  have hlater := hwritten.later
  have hcovered {pos : Nat} (hpos : t.Covered pos) :
      s.Covered pos ∨ c.offset ≤ pos ∧ pos < c.offset + c.size := by
    obtain ⟨d, hd, hin⟩ := hlater.covered.1 hpos
    rcases mem_append.1 hd with hd | hd
    · exact .inl ⟨d, hd, hin⟩
    · rw [mem_singleton.1 hd] at hin
      exact .inr hin
  refine ⟨⟨hinv, hlater.pageSz ▸ h.page, fun pos hpos => ?_, fun bound hbound => ?_⟩, hlater.calls⟩
  · refine hwritten.safe hinv h.page ?_
    rw [hlen]
    refine (hcovered hpos).imp_left fun hold => ?_
    exact (h.safe pos hold).imp_left fun hheld => by
      obtain ⟨⟨d, hd, hin⟩, hrest⟩ := hheld
      exact ⟨⟨d, mem_append_left _ hd, hin⟩, hrest⟩
  · refine (hwritten.bounded ⟨h.bounded bound fun pos hpos => ?_, fun pos hpos => ?_⟩).1
    · obtain ⟨d, hd, hin⟩ := hpos
      exact hbound pos (hlater.covered.2 ⟨d, mem_append_left _ hd, hin⟩)
    · exact hbound pos (hlater.covered.2 hpos)

theorem run_accounted (calls : List Call) : ∀ {s : MemBufferMapped}, Accounted f s →
    Runs.Meets (handle f) Orderly (.live s) calls →
      ∃ t, Runs.run (handle f) (.live s) calls = .live t ∧ Accounted f t ∧
        t.calls = s.calls ++ calls := by
  induction calls with
  | nil =>
      intro s h _
      exact ⟨s, rfl, h, (append_nil _).symm⟩
  | cons c calls ih =>
      intro s h hmeets
      obtain ⟨horderly, hrest⟩ := hmeets
      rcases exec_of_ends (handle_accounted h (horderly rfl)) with
        ⟨hlive, -, hacc, hcalls⟩ | ⟨-, -, hf⟩
      · have hstep : Runs.step (handle f) (.live s) c = .live (exec (handle f c) s).1 := by
          simp only [Runs.step, Runs.Config.live, hlive]
        rw [hstep] at hrest
        obtain ⟨t, hrun, ht, htcalls⟩ := ih hacc hrest
        refine ⟨t, ?_, ht, ?_⟩
        · rw [Runs.run_cons, hstep]
          exact hrun
        · rw [htcalls, hcalls, append_assoc]
          rfl
      · exact hf.elim

/-! ## Completion -/

theorem completed_ends (hpages : s.partialMbList = []) :
    Ends completed s (fun r t => r = true → t.mainMb = s.mainMb.shrink) fun _ _ => False := by
  simp only [completed, ends_bind, ends_get, ends_ite, hpages, ends_pure, ends_modify]
  refine ⟨fun _ => (by simp), fun _ => ⟨fun hlong => ?_, fun _ _ => trivial⟩⟩
  simp at hlong

theorem bytes_of_held {total : Nat} (hplain : s.mainMb.Plain) (hsize : s.mainMb.size ≤ total)
    (hheld : ∀ pos < total, s.Held f pos) :
    s.mainMb.size = total ∧ s.mainMb.bytes = slice f ⟨0, total⟩ := by
  have htotal : s.mainMb.size = total := by
    by_contra hne
    have := (hheld s.mainMb.size (by omega)).2.1
    omega
  refine ⟨htotal, ext_getElem? fun i => ?_⟩
  by_cases hi : i < total
  · rw [hplain.bytes, htotal, getElem?_take_of_lt hi, (hheld i hi).2.2]
    simp [slice, getElem?_range hi]
  · rw [getElem?_eq_none (by rw [hplain.length_bytes]; omega),
      getElem?_eq_none (by simp [slice]; omega)]

/-- The run went well, and if `MemBufferMappedCompleted` says so the main buffer is
`f` from 0 to `total`. -/
def CompletesWith (f : Nat → UInt8) (total : Nat) (c : Runs.Config Fault MemBufferMapped) : Prop :=
  c.fault = none ∧
    Ends completed c.state
      (fun r t => r = true → t.mainMb.size = total ∧ t.mainMb.bytes = slice f ⟨0, total⟩)
      fun _ _ => False

/-- **Completion without a partial page.**  After calls that leave no gap and cover
`[0, total)` with slices of `f`, if no partial page is left, `MemBufferMappedCompleted`
succeeds only with `f` from 0 to `total` in the main buffer. -/
theorem completed_holds_content (f : Nat → UInt8) (pageSz total : Nat) (calls : List Call)
    (hinside : ∀ c ∈ calls, c.offset + c.size ≤ total)
    (hcover : ∀ pos < total, ∃ c ∈ calls, c.offset ≤ pos ∧ pos < c.offset + c.size)
    (hpage : 0 < pageSz)
    (horderly : Runs.Meets (handle f) Orderly (.live (init pageSz)) calls)
    (hpages : (runFrom f pageSz calls).state.partialMbList = []) :
    CompletesWith f total (runFrom f pageSz calls) := by
  obtain ⟨t, hrun, hacc, hcalls⟩ := run_accounted calls (accounted_init f hpage) horderly
  have hcalls : t.calls = calls := hcalls
  have hrun : runFrom f pageSz calls = .live t := hrun
  rw [hrun] at hpages ⊢
  refine ⟨rfl, (completed_ends hpages).imp (fun r u hu hr => ?_)⟩
  have hheld : ∀ pos < total, t.Held f pos := fun pos hpos => by
    refine (hacc.safe pos ?_).resolve_right ?_
    · rw [Covered, hcalls]
      exact hcover pos hpos
    · have hpages : t.partialMbList = [] := hpages
      simp [partialGetByIdx, hpages]
  have hsize : t.mainMb.size ≤ total := hacc.bounded total fun pos hpos => by
    obtain ⟨c, hc, hin⟩ := hpos
    have := hinside c (hcalls ▸ hc)
    omega
  have hmain : u.mainMb = t.mainMb.shrink := hu hr
  rw [hmain, MemBuffer.shrink_size, MemBuffer.bytes_shrink hacc.plain]
  exact bytes_of_held hacc.plain hsize hheld

/-- Two pages in four slices. -/
theorem completed_holds_content_two_pages :
    CompletesWith Nat.toUInt8 20 (runFrom Nat.toUInt8 10 [⟨4, 2⟩, ⟨6, 13⟩, ⟨0, 4⟩, ⟨19, 1⟩]) :=
  completed_holds_content Nat.toUInt8 10 20 [⟨4, 2⟩, ⟨6, 13⟩, ⟨0, 4⟩, ⟨19, 1⟩] (by decide)
    (by decide) (by decide) (by decide +kernel) (by decide +kernel)

/-- One slice of a page and a half: the half page is in the main buffer twice. -/
theorem last_page_appended_twice :
    ¬ CompletesWith Nat.toUInt8 15 (runFrom Nat.toUInt8 10 [⟨0, 15⟩]) := by
  unfold CompletesWith
  decide +kernel

end MemBufferMapped

end BrbData
