import BrbFramework.ThreadAio.Base

/-!
# The size of the queue

The size that the queue keeps is the sum of the positive sizes of the linked requests, as
long as nobody writes the size of a linked request. The reader of whole files does.
-/

namespace ThreadAIO

open Handler BrbData List Function

/-! ## What is promised -/

def EvAIOReqQueue.positiveSizes (q : EvAIOReqQueue) (xs : List Nat) : Nat :=
  (xs.map fun r => (q.req r).data.size.toNat).sum

/-- The size of the queue is that of the requests that are linked in it. -/
structure SizeAccounted (q : EvAIOReqQueue) : Prop where
  sum : ∃ xs, Linked.IsList q.nodes q.aioReqList xs ∧ getQueueSize q = q.positiveSizes xs
  empty : q.aioReqList.head = none → getQueueSize q = 0
  nonneg : 0 ≤ getQueueSize q

/-- What else can happen to a queue than the threaded requests. -/
inductive QueueEvent
  | new (fresh : Nat) (fd : Int) (data : Option DataPtr) (dataSz offset : Int)
      (destroyFunc finishCb : Option Nat) (finishCbdata : Nat)
  | enqueue (r : Nat)
  | enqueueHead (r : Nat)
  | dequeue
  | removeItem (r : Nat)
  | destroy (r : Nat)
  | threaded (e : Event)

def handleQueue : QueueEvent → M PUnit
  | .new fresh fd data dataSz offset destroyFunc finishCb finishCbdata => do
      let _ ← queue (reqNew fresh fd data dataSz offset destroyFunc finishCb finishCbdata)
  | .enqueue r => queue (enqueue r)
  | .enqueueHead r => queue (enqueueHead r)
  | .dequeue => do
      let _ ← queue dequeue
  | .removeItem r => queue (removeItem r)
  | .destroy r => queue (reqDestroy r)
  | .threaded e => handle e

/-- There is room for the size in a `long`. -/
def Fits (q : EvAIOReqQueue) (size : Int) : Prop := q.queueSz.toNat + size.toNat < 2 ^ 63

/-- A request is enqueued that was created and is not linked. -/
def Enqueuable (q : EvAIOReqQueue) (r : Nat) : Prop :=
  (q.req r).flags.inUse = true ∧ ¬q.Linked r ∧ Fits q (q.req r).data.size

/-- A request that is removed is linked, or counts for nothing. -/
def Removable (q : EvAIOReqQueue) (r : Nat) : Prop := q.Linked r ∨ (q.req r).data.size ≤ 0

/-- A request that is destroyed is not linked, or locked. -/
def Destroyable (q : EvAIOReqQueue) (r : Nat) : Prop := ¬q.Linked r ∨ 0 < (q.req r).lockCount

instance (q : EvAIOReqQueue) (size : Int) : Decidable (Fits q size) :=
  inferInstanceAs (Decidable (_ < _))

instance (q : EvAIOReqQueue) (r : Nat) : Decidable (Enqueuable q r) :=
  inferInstanceAs (Decidable (_ ∧ _))

instance (q : EvAIOReqQueue) (r : Nat) : Decidable (Removable q r) :=
  inferInstanceAs (Decidable (_ ∨ _))

instance (q : EvAIOReqQueue) (r : Nat) : Decidable (Destroyable q r) :=
  inferInstanceAs (Decidable (_ ∨ _))

def Careful (s : ThreadAIOBase) : QueueEvent → Prop
  | .new .. | .dequeue => True
  | .enqueue r | .enqueueHead r => Enqueuable s.reqQueue r
  | .removeItem r => Removable s.reqQueue r
  | .destroy r => Destroyable s.reqQueue r
  | .threaded (.submit api ..) => Fits s.reqQueue api.submission.data.size
  | .threaded (.submitAndDestroy _ _ _ size ..) => Fits s.reqQueue size
  | .threaded (.work r env) => s.reqQueue.Linked r → SizeKept env (s.req r)
  | .threaded (.finish r) => Removable s.reqQueue r
  | .threaded (.release r) => Destroyable s.reqQueue r
  | .threaded (.cancel _) => True

instance (s : ThreadAIOBase) : ∀ e, Decidable (Careful s e)
  | .new .. | .dequeue | .threaded (.cancel _) => isTrue trivial
  | .enqueue r | .enqueueHead r => inferInstanceAs (Decidable (Enqueuable s.reqQueue r))
  | .removeItem r | .threaded (.finish r) =>
      inferInstanceAs (Decidable (Removable s.reqQueue r))
  | .destroy r | .threaded (.release r) =>
      inferInstanceAs (Decidable (Destroyable s.reqQueue r))
  | .threaded (.submit api ..) =>
      inferInstanceAs (Decidable (Fits s.reqQueue api.submission.data.size))
  | .threaded (.submitAndDestroy _ _ _ size ..) =>
      inferInstanceAs (Decidable (Fits s.reqQueue size))
  | .threaded (.work r env) =>
      inferInstanceAs (Decidable (s.reqQueue.Linked r → SizeKept env (s.req r)))

/-! ## The account -/

/-- The requests `xs` are linked, in use, and accounted for. -/
structure Account (q : EvAIOReqQueue) (xs : List Nat) : Prop where
  isList : Linked.IsList q.nodes q.aioReqList xs
  data : ∀ r ∈ xs, (q.nodes r).data = some r
  orphan : ∀ r, r ∉ xs → (q.nodes r).prev = none ∧ (q.nodes r).next = none
  inUse : ∀ r ∈ xs, (q.req r).flags.inUse = true
  size : q.queueSz.toNat = q.positiveSizes xs
  small : q.positiveSizes xs < 2 ^ 63

variable {q t : EvAIOReqQueue} {xs : List Nat} {r : Nat} {size : Int}

theorem amount_toNat (h : size.toNat < 2 ^ 64) : (amount size).toNat = size.toNat := by
  unfold amount
  split
  · exact UInt64.toNat_ofNat_of_lt h
  · simp
    omega

theorem toNat_add_amount {x : UInt64} (h : x.toNat + size.toNat < 2 ^ 63) :
    (x + amount size).toNat = x.toNat + size.toNat := by
  rw [UInt64.toNat_add, amount_toNat (by omega), Nat.mod_eq_of_lt (by omega)]

theorem toNat_sub_amount {x : UInt64} (h : size.toNat ≤ x.toNat) :
    (x - amount size).toNat = x.toNat - size.toNat := by
  have hx := x.toNat_lt
  have hamount : (amount size).toNat = size.toNat := amount_toNat (by omega)
  rw [UInt64.toNat_sub_of_le _ _ (UInt64.le_iff_toNat_le.mpr (by omega)), hamount]

namespace Account

theorem linked_iff (h : Account q xs) : q.Linked r ↔ r ∈ xs := by
  constructor
  · intro hlinked
    by_contra hr
    obtain ⟨hprev, hnext⟩ := h.orphan r hr
    rcases hlinked with hhead | hne | hne
    · rw [h.isList.head] at hhead
      exact hr (mem_of_mem_head? hhead)
    · exact hne hnext
    · exact hne hprev
  · intro hr
    by_contra hno
    refine h.isList.not_orphan hr ⟨fun hhead => hno (.inl hhead), ?_, ?_⟩
    · exact not_not.mp fun hne => hno (.inr (.inl hne))
    · exact not_not.mp fun hne => hno (.inr (.inr hne))

theorem accounted (h : Account q xs) : SizeAccounted q := by
  have hsize : getQueueSize q = q.positiveSizes xs := by
    have hsmall := h.small
    unfold getQueueSize
    rw [h.size]
    exact Int.bmod_eq_of_le_mul_two (by omega) (by omega)
  refine ⟨⟨xs, h.isList, hsize⟩, fun hhead => ?_, ?_⟩
  · rw [hsize, h.isList.head_none.mp hhead]
    rfl
  · rw [hsize]
    exact Int.natCast_nonneg _

theorem congr (h : Account q xs) (hnodes : t.nodes = q.nodes) (hlist : t.aioReqList = q.aioReqList)
    (hsz : t.queueSz = q.queueSz)
    (hreq : ∀ r ∈ xs, (t.req r).flags.inUse = (q.req r).flags.inUse ∧
      (t.req r).data.size.toNat = (q.req r).data.size.toNat) : Account t xs := by
  have hsum : t.positiveSizes xs = q.positiveSizes xs := by
    unfold EvAIOReqQueue.positiveSizes
    rw [map_congr_left fun r hr => (hreq r hr).2]
  refine ⟨?_, ?_, ?_, fun r hr => ?_, ?_, ?_⟩
  · rw [hnodes, hlist]
    exact h.isList
  · rw [hnodes]
    exact h.data
  · rw [hnodes]
    exact h.orphan
  · rw [(hreq r hr).1]
    exact h.inUse r hr
  · rw [hsz, hsum]
    exact h.size
  · rw [hsum]
    exact h.small

theorem setReq (h : Account q xs) {f : EvAIOReq → EvAIOReq}
    (hf : r ∈ xs → (f (q.req r)).flags.inUse = (q.req r).flags.inUse ∧
      (f (q.req r)).data.size.toNat = (q.req r).data.size.toNat) : Account (q.setReq r f) xs := by
  refine h.congr rfl rfl rfl fun i hi => ?_
  unfold EvAIOReqQueue.req EvAIOReqQueue.setReq
  by_cases hir : i = r
  · subst hir
    rw [MemSlotBase.slotData_modifyData_self]
    exact hf hi
  · rw [MemSlotBase.slotData_modifyData_of_ne _ _ _ hir]
    exact ⟨rfl, rfl⟩

theorem positiveSizes_perm {ys : List Nat} (hperm : ys.Perm xs) :
    q.positiveSizes ys = q.positiveSizes xs := (hperm.map _).sum_nat

theorem positiveSizes_cons :
    q.positiveSizes (r :: xs) = (q.req r).data.size.toNat + q.positiveSizes xs := by
  simp [EvAIOReqQueue.positiveSizes]

theorem link (h : Account q xs) (hr : r ∉ xs) (huse : (q.req r).flags.inUse = true)
    (hfit : Fits q (q.req r).data.size) {ys : List Nat} (hperm : ys.Perm (r :: xs))
    (hmem : t.memslot = q.memslot) (hsz : t.queueSz = q.queueSz + amount (q.req r).data.size)
    (hl : Linked.IsList t.nodes t.aioReqList ys)
    (hdata : ∀ y, (t.nodes y).data = if y = r then some r else (q.nodes y).data)
    (hframe : ∀ y, y ∉ r :: xs → t.nodes y = q.nodes y) : Account t ys := by
  have hreq : ∀ i, t.req i = q.req i := fun i => by
    unfold EvAIOReqQueue.req
    rw [hmem]
  have hsum : t.positiveSizes ys = q.positiveSizes xs + (q.req r).data.size.toNat := by
    rw [positiveSizes_perm hperm, positiveSizes_cons, Nat.add_comm]
    unfold EvAIOReqQueue.positiveSizes
    simp only [hreq]
  have hfit' : q.queueSz.toNat + (q.req r).data.size.toNat < 2 ^ 63 := hfit
  refine ⟨hl, fun y hy => ?_, fun y hy => ?_, fun y hy => ?_, ?_, ?_⟩
  · rw [hdata]
    rcases mem_cons.mp (hperm.mem_iff.mp hy) with rfl | hy
    · rw [if_pos rfl]
    · rw [if_neg (ne_of_mem_of_not_mem hy hr)]
      exact h.data y hy
  · have hout : y ∉ r :: xs := fun hmem => hy (hperm.mem_iff.mpr hmem)
    rw [hframe y hout]
    exact h.orphan y fun hmem => hout (mem_cons_of_mem _ hmem)
  · rw [hreq]
    rcases mem_cons.mp (hperm.mem_iff.mp hy) with rfl | hy
    · exact huse
    · exact h.inUse y hy
  · rw [hsz, toNat_add_amount hfit', hsum, h.size]
  · rw [hsum, ← h.size]
    exact hfit'

theorem unlink (h : Account q xs) (hr : r ∈ xs) :
    Account { q with
      aioReqList := (Linked.unlink q.aioReqList q.nodes r).1
      nodes := (Linked.unlink q.aioReqList q.nodes r).2
      queueSz := q.queueSz - amount (q.req r).data.size } (xs.erase r) := by
  have hsum : q.positiveSizes xs =
      (q.req r).data.size.toNat + q.positiveSizes (xs.erase r) := by
    rw [← positiveSizes_cons]
    exact positiveSizes_perm (perm_cons_erase hr)
  have hle : (q.req r).data.size.toNat ≤ q.queueSz.toNat := by
    rw [h.size, hsum]
    exact Nat.le_add_right _ _
  have hsmall := h.small
  refine ⟨?_, fun y hy => ?_, fun y hy => ?_, fun y hy => ?_, ?_, ?_⟩
  · have hdelete := h.isList.delete hr
    rwa [h.isList.delete_eq hr] at hdelete
  · simp only [Linked.unlink_data]
    exact h.data y (mem_of_mem_erase hy)
  · by_cases hyr : y = r
    · subst hyr
      exact Linked.unlink_self q.aioReqList q.nodes y
    · have hout : y ∉ xs := fun hmem => hy ((mem_erase_of_ne hyr).mpr hmem)
      have hsame := h.isList.unlink_frame hr hout
      exact ⟨(congrArg Linked.Node.prev hsame).trans (h.orphan y hout).1,
        (congrArg Linked.Node.next hsame).trans (h.orphan y hout).2⟩
  · exact h.inUse y (mem_of_mem_erase hy)
  · change (q.queueSz - amount (q.req r).data.size).toNat = q.positiveSizes (xs.erase r)
    rw [toNat_sub_amount hle, h.size, hsum, Nat.add_sub_cancel_left]
  · change q.positiveSizes (xs.erase r) < 2 ^ 63
    omega

/-! ## The operations of the queue -/

theorem enqueue_ends (h : Account q xs) (hok : Enqueuable q r) :
    Ends (enqueue r) q (fun _ t => Account t (xs ++ [r]) ∧ t.memslot = q.memslot)
      fun _ _ => True := by
  obtain ⟨huse, hlinked, hfit⟩ := hok
  have hr : r ∉ xs := fun hmem => hlinked (h.linked_iff.mpr hmem)
  unfold enqueue assertSize
  simp only [ends_bind, ends_get, ends_assertThat, ends_modify, implies_true, and_true]
  intro _
  refine h.link hr huse hfit (perm_append_singleton r xs) rfl rfl ?_ (fun y => ?_)
    fun y hy => ?_
  · exact h.isList.addTail hr (some r)
  · exact Linked.addTail_data
  · exact h.isList.addTail_frame hy

theorem enqueueHead_ends (h : Account q xs) (hok : Enqueuable q r) :
    Ends (enqueueHead r) q (fun _ t => Account t (r :: xs)) fun _ _ => True := by
  obtain ⟨huse, hlinked, hfit⟩ := hok
  have hr : r ∉ xs := fun hmem => hlinked (h.linked_iff.mpr hmem)
  unfold enqueueHead assertSize
  simp only [ends_bind, ends_get, ends_assertThat, ends_modify, implies_true, and_true]
  intro _
  refine h.link hr huse hfit (List.Perm.refl _) rfl rfl ?_ (fun y => ?_) fun y hy => ?_
  · exact h.isList.add hr (some r)
  · exact Linked.add_data
  · exact h.isList.add_frame hy

theorem removeItem_ends (h : Account q xs) (hr : r ∈ xs) :
    Ends (removeItem r) q (fun _ t => Account t (xs.erase r) ∧ t.memslot = q.memslot)
      fun _ _ => False := by
  unfold removeItem
  simp only [ends_modify, and_true]
  rw [h.isList.delete_eq hr]
  exact h.unlink hr

theorem removeItem_orphan_ends (h : Account q xs) (hr : r ∉ xs) (hsize : (q.req r).data.size ≤ 0) :
    Ends (removeItem r) q (fun _ t => Account t xs) fun _ _ => False := by
  obtain ⟨hprev, hnext⟩ := h.orphan r hr
  have hhead : q.aioReqList.head ≠ some r := by
    rw [h.isList.head]
    exact fun heq => hr (mem_of_mem_head? heq)
  have hzero : amount (q.req r).data.size = 0 := if_neg (by omega)
  unfold removeItem
  simp only [ends_modify]
  rw [Linked.delete_orphan hhead hnext hprev, hzero]
  exact h.congr rfl rfl (UInt64.sub_zero _) fun _ _ => ⟨rfl, rfl⟩

theorem removable_ends (h : Account q xs) (hok : Removable q r) :
    Ends (removeItem r) q (fun _ t => ∃ ys, Account t ys) fun _ _ => False := by
  by_cases hr : r ∈ xs
  · exact (h.removeItem_ends hr).mono (fun _ t ht => ⟨_, ht.1⟩) fun _ _ => id
  · have hsize : (q.req r).data.size ≤ 0 := hok.resolve_left fun hl => hr (h.linked_iff.mp hl)
    exact (h.removeItem_orphan_ends hr hsize).mono (fun _ t ht => ⟨_, ht⟩) fun _ _ => id

theorem dequeue_ends (h : Account q xs) :
    Ends dequeue q (fun _ t => ∃ ys, Account t ys) fun _ _ => False := by
  unfold dequeue
  simp only [ends_bind, ends_get]
  cases xs with
  | nil =>
      have hhead : q.aioReqList.head = none := h.isList.head_none.mpr rfl
      simp only [Linked.popHead, hhead]
      exact ⟨_, h⟩
  | cons r xs =>
      rw [h.isList.popHead, h.data r mem_cons_self]
      exact ⟨_, h.unlink mem_cons_self⟩

theorem grab_ends (h : Account q xs) (fresh : Nat) :
    Ends (grab fresh) q
      (fun o t => Account t xs ∧ t.queueSz = q.queueSz ∧
        ∀ r, o = some r → (t.req r).flags.inUse = false → r ∉ xs) fun _ _ => False := by
  unfold grab
  rw [ends_modifyGet]
  split
  · cases hgrab : q.memslot.slotGrab with
    | none => exact ⟨h, rfl, fun _ => nofun⟩
    | some x =>
        obtain ⟨r, memslot⟩ := x
        have hreq : ∀ i, memslot.slotData i = q.memslot.slotData i :=
          MemSlotBase.slotGrab_data hgrab
        have haccount : Account { q with memslot := memslot } xs :=
          h.congr rfl rfl rfl fun i _ => by
            unfold EvAIOReqQueue.req
            rw [hreq]
            exact ⟨rfl, rfl⟩
        refine ⟨haccount, rfl, fun i hi huse hmem => ?_⟩
        have htrue := haccount.inUse i hmem
        rw [huse] at htrue
        cases htrue
  · split
    · exact ⟨h, rfl, fun _ => nofun⟩
    · rename_i hfree
      have hout : fresh ∉ xs := fun hmem => hfree (h.inUse fresh hmem)
      refine ⟨h.setReq fun hmem => absurd hmem hout, rfl, fun i hi _ => ?_⟩
      obtain rfl := Option.some.inj hi
      exact hout

theorem clearNode (h : Account q xs) (hr : r ∉ xs) :
    Account { q with nodes := update q.nodes r .null } xs := by
  have hsame : ∀ y ∈ xs, update q.nodes r .null y = q.nodes y := fun y hy =>
    update_of_ne (ne_of_mem_of_not_mem hy hr) _ _
  refine ⟨h.isList.frame hsame, fun y hy => ?_, fun y hy => ?_, h.inUse, h.size, h.small⟩
  · exact (congrArg Linked.Node.data (hsame y hy)).trans (h.data y hy)
  · by_cases hyr : y = r
    · subst hyr
      simp [Linked.Node.null]
    · simp only [update_of_ne hyr]
      exact h.orphan y hy

theorem reqNew_ends (h : Account q xs) (fresh : Nat) (fd : Int) (data : Option DataPtr)
    (dataSz offset : Int) (destroyFunc finishCb : Option Nat) (finishCbdata : Nat) :
    Ends (reqNew fresh fd data dataSz offset destroyFunc finishCb finishCbdata) q
      (fun o t => Account t xs ∧ ∀ r, o = some r → r ∉ xs ∧ t.queueSz = q.queueSz ∧
        (t.req r).flags.inUse = true ∧ (t.req r).data.size = dataSz)
      fun _ _ => True := by
  unfold reqNew
  rw [ends_bind]
  refine (h.grab_ends fresh).mono (fun o t ht => ?_) fun _ _ => False.elim
  obtain ⟨haccount, hsz, hfree⟩ := ht
  cases o with
  | none => exact ⟨haccount, fun _ => nofun⟩
  | some r =>
      simp only [ends_bind, ends_get, ends_assertThat, ends_modify, ends_pure, implies_true,
        and_true]
      intro huse
      have hout : r ∉ xs := hfree r rfl (by simpa using huse)
      refine ⟨(haccount.clearNode hout).setReq fun hmem => absurd hmem hout, fun i hi => ?_⟩
      obtain rfl := Option.some.inj hi
      refine ⟨hout, hsz, ?_⟩
      unfold EvAIOReqQueue.req EvAIOReqQueue.setReq
      rw [MemSlotBase.slotData_modifyData_self]
      exact ⟨rfl, rfl⟩

end Account

/-- The account does not notice what is done to the request `r`, which is not linked. -/
def Spares (r : Nat) (q t : EvAIOReqQueue) : Prop := ∀ xs, Account q xs → r ∉ xs → Account t xs

instance (r : Nat) : IsPreorder EvAIOReqQueue (Spares r) where
  refl _ _ h _ := h
  trans _ _ _ hqt htu xs h hr := htu xs (hqt xs h hr) hr

theorem along_doDestroy (r : Nat) : Along (Spares r) (doDestroy r) := by
  have hset : ∀ q f, Spares r q (q.setReq r f) := fun _ _ _ h hr =>
    h.setReq fun hmem => absurd hmem hr
  refine (along_freeStrings hset).bind fun _ => Along.bind (along_modify fun q => hset q _)
    fun _ => along_modify fun q xs h hr => ?_
  split
  · exact h.congr rfl rfl rfl fun i _ => ⟨rfl, rfl⟩
  · exact h

namespace Account

theorem reqDestroy_ends (h : Account q xs) (hok : r ∉ xs ∨ 0 < (q.req r).lockCount) :
    Ends (reqDestroy r) q (fun _ t => Account t xs) fun _ _ => True := by
  unfold reqDestroy
  simp only [ends_bind, ends_get, ends_modify, ends_ite, ends_pure]
  have hset : Account (q.setReq r fun req =>
      { req with flags.destroyed := true, lockCount := req.lockCount - 1 }) xs :=
    h.setReq fun _ => ⟨rfl, rfl⟩
  refine ⟨fun hlock => ?_, fun _ => hset⟩
  have hout : r ∉ xs := hok.resolve_right (by omega)
  exact (along_doDestroy r _).mono (fun _ t ht => ht xs hset hout) fun _ _ _ => trivial

theorem destroyable_ends (h : Account q xs) (hok : Destroyable q r) :
    Ends (reqDestroy r) q (fun _ t => Account t xs) fun _ _ => True :=
  h.reqDestroy_ends (hok.imp_left fun hno hmem => hno (h.linked_iff.mpr hmem))

end Account

/-! ## The events -/

def Kept (s : ThreadAIOBase) : Prop := ∃ xs, Account s.reqQueue xs

variable {s : ThreadAIOBase}

theorem startJob_ends {p : Submission} {jobId : Int} (h : Account s.reqQueue xs) (hr : r ∉ xs)
    (huse : (s.req r).flags.inUse = true)
    (hfit : Fits s.reqQueue (s.req r).data.size) :
    Ends (startJob p r jobId) s (fun _ t => Kept t) fun _ _ => True := by
  have hok : Enqueuable s.reqQueue r := ⟨huse, fun hl => hr (h.linked_iff.mp hl), hfit⟩
  unfold startJob
  simp only [ends_bind, ends_get, queue, ends_within]
  refine (h.enqueue_ends hok).mono (fun _ q hq => ?_) fun _ _ _ => trivial
  obtain ⟨haccount, hmem⟩ := hq
  rw [ends_ite]
  refine ⟨fun _ => ?_, fun _ => ⟨_, haccount⟩⟩
  simp only [ends_bind, ends_within]
  have hin : r ∈ xs ++ [r] := by simp
  refine (haccount.removeItem_ends hin).mono (fun _ q' hq' => ?_) fun _ _ => False.elim
  obtain ⟨haccount', hmem'⟩ := hq'
  have hout : r ∉ (xs ++ [r]).erase r := fun hmem =>
    (List.Nodup.not_mem_erase haccount.isList.nodup) hmem
  refine (haccount'.reqDestroy_ends (.inl hout)).mono (fun _ q'' hq'' => ?_) fun _ _ _ => trivial
  exact ⟨_, hq''⟩

theorem submit_ends {p : Submission} {finishCb : Option Nat} {finishCbdata : Nat} {jobId : Int}
    (hs : Kept s) (hfit : Fits s.reqQueue p.data.size) :
    Ends (submit p finishCb finishCbdata jobId) s (fun _ t => Kept t) fun _ _ => True := by
  obtain ⟨xs, h⟩ := hs
  unfold submit
  simp only [ends_bind, ends_get, ends_assertThat, implies_true, and_true]
  intro _
  rw [ends_ite]
  refine ⟨fun _ => ⟨xs, h⟩, fun _ => ?_⟩
  simp only [ends_bind, queue, ends_within]
  refine (h.reqNew_ends ..).mono (fun o q hq => ?_) fun _ _ _ => trivial
  obtain ⟨haccount, hnew⟩ := hq
  cases o with
  | none => exact ⟨xs, haccount⟩
  | some r =>
      obtain ⟨hr, hsz, huse, hsize⟩ := hnew r rfl
      simp only [ends_bind, ends_get, ends_assertThat, ends_modify, implies_true, and_true]
      intro _
      have hreq : (q.setReq r (populate p)).req r = populate p (q.req r) :=
        MemSlotBase.slotData_modifyData_self _ _ _
      refine startJob_ends (haccount.setReq fun _ => ⟨rfl, rfl⟩) hr ?_ ?_
      · exact (congrArg (fun req => req.flags.inUse) hreq).trans huse
      · have hsame : ((q.setReq r (populate p)).req r).data.size = p.data.size :=
          (congrArg (fun req => req.data.size) hreq).trans hsize
        change (q.setReq r (populate p)).queueSz.toNat +
          ((q.setReq r (populate p)).req r).data.size.toNat < 2 ^ 63
        rw [hsame]
        change q.queueSz.toNat + _ < _
        rw [hsz]
        exact hfit

theorem work_ends {env : Env} (hs : Kept s) (hok : s.reqQueue.Linked r → SizeKept env (s.req r)) :
    Ends (work r env) s (fun _ t => Kept t) fun _ _ => True := by
  obtain ⟨xs, h⟩ := hs
  apply work_keeps ⟨xs, h⟩
  intro w hsame hsize
  exact ⟨xs, h.setReq fun hmem => ⟨hsame.inUse, hsize (hok (h.linked_iff.mpr hmem))⟩⟩

theorem jobFinish_ends (hs : Kept s) (hok : Removable s.reqQueue r) :
    Ends (jobFinish r) s (fun _ t => Kept t) fun _ _ => True := by
  obtain ⟨xs, h⟩ := hs
  unfold jobFinish invokeCallBacks
  simp only [ends_bind, ends_get, ends_assertThat, ends_modify, queue, ends_within, implies_true,
    and_true]
  intro _
  refine (h.removable_ends hok).mono (fun _ q hq => ?_) fun _ _ => False.elim
  obtain ⟨ys, haccount⟩ := hq
  refine ⟨ys, ?_⟩
  split
  · split
    · exact haccount
    · exact haccount
  · exact haccount

theorem handle_keeps (e : Event) (hs : Kept s) (hok : Careful s (.threaded e)) :
    Ends (handle e) s (fun _ t => Kept t) fun _ _ => True := by
  cases e with
  | submit api finishCb finishCbdata jobId =>
      simp only [handle, ends_bind, ends_pure]
      exact submit_ends hs hok
  | submitAndDestroy dataMb fd pathStr size offset finishCb finishCbdata jobId =>
      simp only [handle, ends_bind, ends_pure]
      apply writeFromMemBufferAndDestroy_keeps (submit_ends hs hok)
      intro t r f hf ht
      obtain ⟨xs, h⟩ := ht
      exact ⟨xs, h.setReq fun _ => ⟨(hf _).2.1, congrArg Int.toNat (hf _).2.2⟩⟩
  | work r env =>
      simp only [handle, ends_bind, ends_get, ends_ite, ends_pure]
      exact ⟨fun _ => work_ends hs hok, fun _ => hs⟩
  | finish r =>
      simp only [handle, ends_bind, ends_get, ends_ite, ends_pure, ends_modify]
      exact ⟨fun _ => jobFinish_ends hs hok, fun _ => hs⟩
  | release r =>
      obtain ⟨xs, h⟩ := hs
      simp only [handle, ends_bind, ends_get, ends_ite, ends_pure, ends_modify, queue, ends_within]
      refine ⟨fun _ => ?_, fun _ => ⟨xs, h⟩⟩
      exact (h.destroyable_ends hok).mono (fun _ q hq => ⟨xs, hq⟩) fun _ _ _ => trivial
  | cancel reqId =>
      simp only [handle, cancelByReqID, ends_bind, ends_ite, ends_pure, ends_get, ends_assertThat,
        ends_modify, implies_true, and_true]
      obtain ⟨xs, h⟩ := hs
      exact ⟨fun _ => ⟨xs, h⟩, fun _ _ => ⟨xs, h.setReq fun _ => ⟨rfl, rfl⟩⟩⟩

theorem handleQueue_keeps (e : QueueEvent) (s : ThreadAIOBase) (hs : Kept s) (hok : Careful s e) :
    Ends (handleQueue e) s (fun _ t => Kept t) fun _ _ => True := by
  cases e with
  | threaded e => exact handle_keeps e hs hok
  | new fresh fd data dataSz offset destroyFunc finishCb finishCbdata =>
      obtain ⟨xs, h⟩ := hs
      simp only [handleQueue, ends_bind, ends_pure, queue, ends_within]
      exact (h.reqNew_ends ..).mono (fun _ q hq => ⟨xs, hq.1⟩) fun _ _ _ => trivial
  | enqueue r =>
      obtain ⟨xs, h⟩ := hs
      simp only [handleQueue, queue, ends_within]
      exact (h.enqueue_ends hok).mono (fun _ q hq => ⟨_, hq.1⟩) fun _ _ _ => trivial
  | enqueueHead r =>
      obtain ⟨xs, h⟩ := hs
      simp only [handleQueue, queue, ends_within]
      exact (h.enqueueHead_ends hok).mono (fun _ q hq => ⟨_, hq⟩) fun _ _ _ => trivial
  | dequeue =>
      obtain ⟨xs, h⟩ := hs
      simp only [handleQueue, ends_bind, ends_pure, queue, ends_within]
      exact h.dequeue_ends.mono (fun _ q hq => hq) fun _ _ => False.elim
  | removeItem r =>
      obtain ⟨xs, h⟩ := hs
      simp only [handleQueue, queue, ends_within]
      exact (h.removable_ends hok).mono (fun _ q hq => hq) fun _ _ => False.elim
  | destroy r =>
      obtain ⟨xs, h⟩ := hs
      simp only [handleQueue, queue, ends_within]
      exact (h.destroyable_ends hok).mono (fun _ q hq => ⟨xs, hq⟩) fun _ _ _ => trivial

theorem account_init (maxSlots : Nat) (slotted assertSoft : Bool) :
    Account (.init maxSlots slotted assertSoft) [] where
  isList := Linked.isList_empty _
  data := nofun
  orphan _ _ := ⟨rfl, rfl⟩
  inUse := nofun
  size := rfl
  small := Nat.two_pow_pos 63

/-- **The size of the queue.**  After every run of careful events the size of the queue is the
sum of the positive sizes of the linked requests: zero if there is none, never negative. -/
theorem run_size_accounted (maxSlots : Nat) (slotted assertSoft : Bool) (evs : List QueueEvent)
    (hcareful : Runs.Meets handleQueue Careful
      (.live { reqQueue := .init maxSlots slotted assertSoft }) evs) :
    Runs.Holds (fun s => SizeAccounted s.reqQueue) (fun _ _ => True)
      (Runs.run handleQueue (.live { reqQueue := .init maxSlots slotted assertSoft }) evs) := by
  have hstart : Runs.Holds Kept (fun (_ : Fault) _ => True)
      (.live { reqQueue := .init maxSlots slotted assertSoft }) :=
    ⟨[], account_init maxSlots slotted assertSoft⟩
  have hrun := Runs.invariant_run_of handleQueue_keeps hstart evs hcareful
  refine hrun.mono (fun s hs => ?_) fun _ _ => id
  obtain ⟨xs, h⟩ := hs
  exact h.accounted

/-- Two reads, of which one is handed back and the other taken off and put back at the head. -/
theorem run_size_accounted_reads :
    Runs.Holds (fun s => SizeAccounted s.reqQueue) (fun _ _ => True)
      (Runs.run handleQueue (.live { reqQueue := .init 2 true false })
        [.threaded (.submit (.fileRead 3 (some 0) 100 0) none 0 0),
          .threaded (.submit (.fileRead 3 (some 0) 50 0) none 0 1),
          .threaded (.work 0 {}), .threaded (.finish 0), .threaded (.release 0),
          .dequeue, .enqueueHead 1]) :=
  run_size_accounted 2 true false _ (by decide)

/-- The whole file is read: its 100 bytes were not counted when the request was linked, and
are taken off when it leaves. -/
theorem unknown_size_goes_negative :
    ¬Runs.Holds (fun s => SizeAccounted s.reqQueue) (fun _ _ => True)
      (Runs.run handleQueue (.live { reqQueue := .init 1 true false })
        [.threaded (.submit (.fileReadToMemBuffer (-1) (some "f") (-1) 0) none 0 0),
          .threaded (.work 0 { answer := fun _ _ => { stSize := 100 } }),
          .threaded (.finish 0)]) := by
  intro h
  have hnonneg := (h.of_live (by decide)).nonneg
  revert hnonneg
  decide

end ThreadAIO
