import BrbFramework.Data.MemStream
import Mathlib.Data.List.Nodup
import Mathlib.Data.List.Perm.Subperm

/-!
# The content of memory streams

`run_faithful` says along which runs the node list of a stream holds exactly
what was supplied since the last clean.

A read that fails adds -1 to the sizes. Where the last node is filled up first,
the second of the two reads is taken for complete. A clean follows the head
before it looks whether there is one, and leaves the first node with a pointer
to the node behind it, which it has freed.
-/

namespace BrbData

open Handler Machine Runs List Function

namespace MemStream

abbrev Cell := Nat × MemStreamNode

/-- The cells are chained from the pointer `p` to the pointer `q`. -/
def Strung (heap : Nat → Option MemStreamNode) : Option Nat → List Cell → Option Nat → Prop
  | p, [], q => p = q
  | p, (i, n) :: cells, q => p = some i ∧ heap i = some n ∧ Strung heap n.nextNode cells q

section Strung

variable {heap heap' : Nat → Option MemStreamNode} {p q : Option Nat} {cells front : List Cell}
  {i : Nat} {n : MemStreamNode}

theorem strung_concat :
    Strung heap p (front ++ [(i, n)]) q ↔
      Strung heap p front (some i) ∧ heap i = some n ∧ n.nextNode = q := by
  induction front generalizing p with
  | nil => rfl
  | cons cell front ih => simp only [cons_append, Strung, ih, and_assoc]

theorem Strung.congr (h : Strung heap p cells q)
    (hsame : ∀ cell ∈ cells, heap' cell.1 = heap cell.1) : Strung heap' p cells q := by
  induction cells generalizing p with
  | nil => exact h
  | cons cell cells ih =>
      obtain ⟨hp, hcell, hrest⟩ := h
      obtain ⟨hfirst, hothers⟩ := forall_mem_cons.mp hsame
      exact ⟨hp, hfirst.trans hcell, ih hrest hothers⟩

theorem Strung.walk (h : Strung heap p cells none) {fuel : Nat} (hfuel : cells.length ≤ fuel) :
    walk heap fuel p = some (cells.map Prod.snd) := by
  induction cells generalizing p fuel with
  | nil =>
      cases h
      cases fuel <;> rfl
  | cons cell cells ih =>
      obtain ⟨rfl, hcell, hrest⟩ := h
      obtain ⟨fuel, rfl⟩ : ∃ k, fuel = k + 1 := by
        rw [length_cons] at hfuel
        exact ⟨fuel - 1, by omega⟩
      have hle : cells.length ≤ fuel := by
        rw [length_cons] at hfuel
        omega
      rw [MemStream.walk, hcell, Option.bind_some, ih hrest hle]
      rfl

end Strung

/-- The nodes of the stream are the cells, and they hold `bytes`. -/
structure Chained (s : MemStream) (cells : List Cell) (bytes : List UInt8) : Prop where
  strung : Strung s.heap s.headPtr cells none
  tail : s.tailPtr = cells.getLast?.map Prod.fst
  nodup : (cells.map Prod.fst).Nodup
  fresh : ∀ cell ∈ cells, cell.1 < s.made
  count : s.nodeCount = cells.length
  room : ∀ cell ∈ cells, cell.2.nodeSz ≤ cell.2.nodeCap ∧ cell.2.nodeCap < 2 ^ 64 ∧
    cell.2.nodeData.length = cell.2.nodeCap
  content : content (cells.map Prod.snd) = bytes
  dataSize : s.dataSize = bytes.length
  unlocked : s.streamType = .mtUnsafe

def Sound (s : MemStream) : Prop := ∃ cells, Chained s cells s.supplied

theorem sound_new (minNodeSz : Int64) : Sound (new minNodeSz .mtUnsafe) := by
  refine ⟨[], rfl, rfl, nodup_nil, ?_, rfl, ?_, rfl, rfl, rfl⟩
  · nofun
  · nofun

section Chained

variable {s : MemStream} {cells front : List Cell} {bytes : List UInt8} {i : Nat}
  {n : MemStreamNode}

theorem Chained.length_le (h : Chained s cells bytes) : cells.length ≤ s.made := by
  have hsub : ∀ a ∈ cells.map Prod.fst, a ∈ List.range s.made := by
    intro a ha
    obtain ⟨cell, hcell, rfl⟩ := mem_map.mp ha
    exact mem_range.mpr (h.fresh cell hcell)
  have hle := (subperm_of_subset h.nodup hsub).length_le
  simpa using hle

theorem Chained.faithful (h : Chained s cells s.supplied) :
    Faithful s (cells.map Prod.snd) where
  walk := h.strung.walk h.length_le
  content := h.content
  dataSize := h.dataSize
  room m hm := by
    obtain ⟨cell, hcell, rfl⟩ := mem_map.mp hm
    exact (h.room cell hcell).1

theorem Chained.last (h : Chained s (front ++ [(i, n)]) bytes) :
    s.tailPtr = some i ∧ s.heap i = some n ∧ n.nextNode = none ∧ ∀ cell ∈ front, cell.1 ≠ i := by
  obtain ⟨-, hcell, hnext⟩ := strung_concat.mp h.strung
  refine ⟨by simpa using h.tail, hcell, hnext, fun cell hcell heq => ?_⟩
  have hnodup := h.nodup
  rw [map_append, nodup_append] at hnodup
  exact hnodup.2.2 cell.1 (mem_map_of_mem hcell) i (by simp) heq

/-! ### Filling the last node -/

def filled (n : MemStreamNode) (bytes : List UInt8) : MemStreamNode :=
  { n with
    nodeData := splice n.nodeData n.nodeSz bytes
    nodeSz := n.nodeSz + bytes.length }

def filledAt (s : MemStream) (i : Nat) (n : MemStreamNode) (bytes : List UInt8) : MemStream :=
  { s with
    heap := Function.update s.heap i (some (filled n bytes))
    dataSize := s.dataSize + bytes.length }

theorem content_filled {bs : List UInt8} (hlen : n.nodeSz + bs.length ≤ n.nodeData.length) :
    (filled n bs).nodeData.take (filled n bs).nodeSz = n.nodeData.take n.nodeSz ++ bs := by
  have htake : (n.nodeData.take n.nodeSz).length = n.nodeSz := length_take_of_le (by omega)
  simp only [filled, splice]
  rw [take_append_of_le_length (by rw [length_append, htake]), take_of_length_le]
  rw [length_append, htake]

theorem Chained.filled (h : Chained s (front ++ [(i, n)]) bytes) {bs : List UInt8}
    (hroom : n.nodeSz + bs.length ≤ n.nodeCap) :
    Chained (s.filledAt i n bs) (front ++ [(i, filled n bs)]) (bytes ++ bs) := by
  obtain ⟨htail, hcell, hnext, hfront⟩ := h.last
  obtain ⟨hsz, hcap, hdata⟩ := h.room (i, n) (by simp)
  obtain ⟨hchain, -, -⟩ := strung_concat.mp h.strung
  refine
    { strung := ?_, tail := by simpa [filledAt] using htail
      nodup := by simpa using h.nodup, fresh := ?_
      count := by simpa [filledAt] using h.count, room := ?_, content := ?_, dataSize := ?_
      unlocked := h.unlocked }
  · refine strung_concat.mpr ⟨hchain.congr fun cell hc => ?_, update_self _ _ _, hnext⟩
    exact update_of_ne (hfront cell hc) _ _
  · intro cell hc
    rcases mem_append.mp hc with hc | hc
    · exact h.fresh cell (mem_append_left _ hc)
    · obtain rfl := mem_singleton.mp hc
      exact h.fresh (i, n) (by simp)
  · intro cell hc
    rcases mem_append.mp hc with hc | hc
    · exact h.room cell (mem_append_left _ hc)
    · obtain rfl := mem_singleton.mp hc
      refine ⟨hroom, hcap, ?_⟩
      simp only [MemStream.filled]
      rw [length_splice (by rw [hdata]; exact hroom), hdata]
  · have hcontent := h.content
    simp only [MemStream.content, map_append, flatMap_append, map_cons, map_nil,
      flatMap_cons, flatMap_nil, append_nil] at hcontent ⊢
    rw [content_filled (by rw [hdata]; exact hroom), ← append_assoc, hcontent]
  · simp only [filledAt, length_append, h.dataSize]

/-! ### The steps of an operation -/

section Ends

variable {α : Type} {Q : PUnit → MemStream → Prop} {E : Fault → MemStream → Prop}

theorem ends_node {R : MemStreamNode → MemStream → Prop} (h : s.heap i = some n) :
    Ends (node (some i)) s R E ↔ R n s := by
  simp [node, h]

theorem ends_modifyNode (h : s.heap i = some n) (f : MemStreamNode → MemStreamNode) :
    Ends (modifyNode (some i) f) s Q E ↔
      Q ⟨⟩ { s with heap := update s.heap i (some (f n)) } := by
  rw [modifyNode, ends_bind, ends_node h, ends_modify]
  rfl

/-- The stream with bytes copied to the end of one node, which nothing counts yet. -/
def copiedAt (s : MemStream) (i : Nat) (n : MemStreamNode) (bs : List UInt8) : MemStream :=
  { s with
    heap := Function.update s.heap i
      (some { n with nodeData := splice n.nodeData n.nodeSz bs }) }

theorem ends_copyInto (h : s.heap i = some n) {bs : List UInt8}
    (hroom : n.nodeSz + bs.length ≤ n.nodeData.length) :
    Ends (copyInto (some i) bs) s Q E ↔ Q ⟨⟩ (s.copiedAt i n bs) := by
  rw [copyInto, ends_bind, ends_node h, ends_bind, ends_assertThat]
  simp only [hroom, decide_true, forall_true_left, ends_modifyNode h, copiedAt]
  simp

theorem ends_counterUpdate (h : s.heap i = some n) {k : Nat} (hdata : s.dataSize + k < 2 ^ 64)
    (hnode : n.nodeSz + k < 2 ^ 64) :
    Ends (counterUpdate (some i) k) s Q E ↔
      Q ⟨⟩ { s with
        dataSize := s.dataSize + k
        heap := update s.heap i (some { n with nodeSz := n.nodeSz + k }) } := by
  rw [counterUpdate, ends_bind, ends_modify, uint64_of_lt hdata]
  rw [@ends_modifyNode { s with dataSize := s.dataSize + k } i n Q E h, uint64_of_lt hnode]

theorem ends_count {bs : List UInt8} (supplied : List UInt8)
    (hdata : s.dataSize + bs.length < 2 ^ 64) (hnode : n.nodeSz + bs.length < 2 ^ 64) :
    Ends (counterUpdate (some i) bs.length) { s.copiedAt i n bs with supplied := supplied } Q E ↔
      Q ⟨⟩ { s.filledAt i n bs with supplied := supplied } := by
  have hcell : (s.copiedAt i n bs).heap i =
      some { n with nodeData := splice n.nodeData n.nodeSz bs } := update_self _ _ _
  rw [@ends_counterUpdate { s.copiedAt i n bs with supplied := supplied } i
    { n with nodeData := splice n.nodeData n.nodeSz bs } Q E hcell _ hdata hnode]
  simp only [copiedAt, update_idem, filledAt, filled]

end Ends

theorem Chained.setSupplied (h : Chained s cells bytes) (supplied : List UInt8) :
    Chained { s with supplied := supplied } cells bytes :=
  ⟨h.strung, h.tail, h.nodup, h.fresh, h.count, h.room, h.content, h.dataSize, h.unlocked⟩

theorem Chained.unlock (h : Chained s cells bytes) :
    Chained { s with locked := false } cells bytes :=
  ⟨h.strung, h.tail, h.nodup, h.fresh, h.count, h.room, h.content, h.dataSize, h.unlocked⟩

def Holding (s t : MemStream) (bytes bs supplied : List UInt8) : Prop :=
  t.supplied = s.supplied ++ supplied ∧ t.dataSize = s.dataSize + bs.length ∧
    ∃ cells, Chained t cells (bytes ++ bs)

theorem copy_ends {ptr : Option Nat} (hptr : ptr = some i)
    (h : Chained s (front ++ [(i, n)]) bytes) {bs : List UInt8}
    (hroom : n.nodeSz + bs.length ≤ n.nodeCap) (htotal : s.dataSize + bs.length < 2 ^ 64) :
    Ends (copyInto ptr bs) s
      (fun _ t => Ends (counterUpdate ptr bs.length) t (fun _ t => Holding s t bytes bs [])
        fun _ _ => False)
      fun _ _ => False := by
  subst hptr
  obtain ⟨-, hcell, -, -⟩ := h.last
  obtain ⟨-, hcap, hdata⟩ := h.room (i, n) (by simp)
  simp only at hcap hdata
  rw [ends_copyInto hcell (by omega)]
  refine (ends_count s.supplied htotal (by omega)).mpr ?_
  exact ⟨(append_nil _).symm, rfl, _, h.filled hroom⟩

/-- What a read from a descriptor delivers at most. -/
def delivered (sz : Nat) (answer : Option (List UInt8)) : List UInt8 :=
  (answer.getD []).take sz

theorem length_delivered_le (sz : Nat) (answer : Option (List UInt8)) :
    (delivered sz answer).length ≤ sz :=
  length_take_le _ _

theorem read_ends {ptr : Option Nat} (hptr : ptr = some i)
    (h : Chained s (front ++ [(i, n)]) bytes) {sz : Nat} {answer : Option (List UInt8)}
    (hanswer : answer.isSome = true) (hroom : n.nodeSz + sz ≤ n.nodeCap)
    (htotal : s.dataSize + sz < 2 ^ 64) :
    Ends (readInto ptr sz answer) s
      (fun r t => r = (delivered sz answer).length ∧
        Ends (counterUpdate ptr r) t
          (fun _ t => Holding s t bytes (delivered sz answer) (delivered sz answer))
          fun _ _ => False)
      fun _ _ => False := by
  subst hptr
  obtain ⟨bs, rfl⟩ := Option.isSome_iff_exists.mp hanswer
  obtain ⟨-, hcell, -, -⟩ := h.last
  obtain ⟨-, hcap, hdata⟩ := h.room (i, n) (by simp)
  simp only at hcap hdata
  have hle := length_delivered_le sz (some bs)
  simp only [delivered, Option.getD_some] at hle ⊢
  simp only [readInto, ends_bind]
  rw [ends_copyInto hcell (by omega)]
  simp only [ends_modify, ends_pure, true_and]
  refine (ends_count (s.supplied ++ bs.take sz) (by omega) (by omega)).mpr ?_
  exact ⟨rfl, rfl, _, (h.filled (by omega)).setSupplied _⟩

/-! ### A new last node -/

theorem le_locNodeSz (minNodeSz : Int64) (k : Nat) : k ≤ locNodeSz minNodeSz k := by
  unfold locNodeSz
  split <;> omega

theorem locNodeSz_lt (minNodeSz : Int64) {k : Nat} (h : k < 2 ^ 64) :
    locNodeSz minNodeSz k < 2 ^ 64 := by
  have hmin := minNodeSz.toNatClampNeg_lt
  unfold locNodeSz
  split <;> omega

/-- A node as `MemStreamNodeNew` makes it. -/
def freshNode (minNodeSz : Int64) (k : Nat) : MemStreamNode where
  nodeCap := locNodeSz minNodeSz k
  nodeData := List.replicate (locNodeSz minNodeSz k) 0

theorem ends_mutexLock {Q : PUnit → MemStream → Prop} {E : Fault → MemStream → Prop}
    (h : s.streamType = .mtUnsafe) : Ends mutexLock s Q E ↔ Q ⟨⟩ s := by
  simp [mutexLock, h]

theorem freshNode_room (minNodeSz : Int64) {k : Nat} (hk : k < 2 ^ 64) :
    (freshNode minNodeSz k).nodeSz ≤ (freshNode minNodeSz k).nodeCap ∧
      (freshNode minNodeSz k).nodeCap < 2 ^ 64 ∧
      (freshNode minNodeSz k).nodeData.length = (freshNode minNodeSz k).nodeCap :=
  ⟨Nat.zero_le _, locNodeSz_lt minNodeSz hk, length_replicate⟩

/-- The stream after `MemStreamCreateNewNodeTail` of an empty stream. -/
def firstAdded (s : MemStream) (k : Nat) : MemStream :=
  { s with
    heap := Function.update s.heap s.made (some (freshNode s.minNodeSz k))
    made := s.made + 1
    nodeCount := s.nodeCount + 1
    headPtr := some s.made, curPtr := some s.made, tailPtr := some s.made
    locked := false }

/-- The stream after `MemStreamCreateNewNodeTail` behind the last node. -/
def lastAdded (s : MemStream) (i : Nat) (n : MemStreamNode) (k : Nat) : MemStream :=
  { s with
    heap := Function.update (Function.update s.heap i (some { n with nextNode := some s.made }))
      s.made (some { freshNode s.minNodeSz k with prevNode := some i })
    made := s.made + 1
    nodeCount := s.nodeCount + 1
    tailPtr := some s.made
    locked := false }

theorem Chained.firstAdded (h : Chained s [] bytes) {k : Nat} (hk : k < 2 ^ 64) :
    Chained (s.firstAdded k) [(s.made, freshNode s.minNodeSz k)] bytes where
  strung := ⟨rfl, update_self _ _ _, rfl⟩
  tail := rfl
  nodup := nodup_singleton _
  fresh cell hcell := by
    obtain rfl := mem_singleton.mp hcell
    exact Nat.lt_succ_self _
  count := congrArg (· + 1) h.count
  room cell hcell := by
    obtain rfl := mem_singleton.mp hcell
    exact freshNode_room s.minNodeSz hk
  content := h.content
  dataSize := h.dataSize
  unlocked := h.unlocked

theorem Chained.lastAdded (h : Chained s (front ++ [(i, n)]) bytes) {k : Nat} (hk : k < 2 ^ 64) :
    Chained (s.lastAdded i n k)
      (front ++ [(i, { n with nextNode := some s.made })] ++
        [(s.made, { freshNode s.minNodeSz k with prevNode := some i })]) bytes := by
  obtain ⟨-, hcell, hnext, hfront⟩ := h.last
  obtain ⟨hchain, -, -⟩ := strung_concat.mp h.strung
  have hfresh : ∀ cell ∈ front, cell.1 < s.made := fun cell hc =>
    h.fresh cell (mem_append_left _ hc)
  have hi : i < s.made := h.fresh (i, n) (by simp)
  refine
    { strung := ?_, tail := by simp [MemStream.lastAdded], nodup := ?_, fresh := ?_, count := ?_
      room := ?_, content := ?_, dataSize := h.dataSize, unlocked := h.unlocked }
  · refine strung_concat.mpr ⟨strung_concat.mpr ⟨hchain.congr fun cell hc => ?_, ?_, rfl⟩,
      update_self _ _ _, rfl⟩
    · have hlt := hfresh cell hc
      simp only [MemStream.lastAdded]
      rw [update_of_ne (by omega), update_of_ne (hfront cell hc)]
    · simp only [MemStream.lastAdded]
      rw [update_of_ne (by omega), update_self]
  · have hnodup := h.nodup
    simp only [map_append, map_cons, map_nil] at hnodup ⊢
    refine nodup_append.mpr ⟨hnodup, nodup_singleton _, fun a ha b hb => ?_⟩
    obtain rfl := mem_singleton.mp hb
    have hlt : a < s.made := by
      rcases mem_append.mp ha with ha | ha
      · obtain ⟨cell, hc, rfl⟩ := mem_map.mp ha
        exact hfresh cell hc
      · obtain rfl := mem_singleton.mp ha
        exact hi
    omega
  · intro cell hc
    simp only [MemStream.lastAdded]
    rcases mem_append.mp hc with hc | hc
    · rcases mem_append.mp hc with hc | hc
      · have hlt := hfresh cell hc
        omega
      · obtain rfl := mem_singleton.mp hc
        simp only
        omega
    · obtain rfl := mem_singleton.mp hc
      simp
  · have hcount := h.count
    simp only [MemStream.lastAdded, length_append, length_singleton] at hcount ⊢
    omega
  · intro cell hc
    rcases mem_append.mp hc with hc | hc
    · rcases mem_append.mp hc with hc | hc
      · exact h.room cell (mem_append_left _ hc)
      · obtain rfl := mem_singleton.mp hc
        exact h.room (i, n) (by simp)
    · obtain rfl := mem_singleton.mp hc
      exact freshNode_room s.minNodeSz hk
  · have hcontent := h.content
    simpa [MemStream.content, freshNode] using hcontent

theorem newTailNode_ends (h : Chained s cells bytes) {k : Nat} (hk : k < 2 ^ 64) :
    Ends (newTailNode k) s
      (fun ptr t => ∃ front i n, ptr = some i ∧ Chained t (front ++ [(i, n)]) bytes ∧
        n.nodeSz = 0 ∧ k ≤ n.nodeCap ∧ t.supplied = s.supplied)
      fun _ _ => False := by
  have hcap := le_locNodeSz s.minNodeSz k
  rw [newTailNode, ends_bind, createNewNodeTail, ends_bind, ends_mutexLock h.unlocked, ends_bind,
    ends_get]
  rcases eq_nil_or_concat cells with rfl | ⟨front, ⟨i, n⟩, rfl⟩
  · have hcount : s.nodeCount = 0 := h.count
    rw [if_pos hcount]
    simp only [nodeNew, ends_bind, ends_get, ends_set, ends_pure, ends_modify, mutexUnlock]
    exact ⟨[], s.made, freshNode s.minNodeSz k, rfl, h.firstAdded hk, rfl, hcap, trivial⟩
  · rw [concat_eq_append] at h
    obtain ⟨htail, hcell, -, -⟩ := h.last
    have hi : i < s.made := h.fresh (i, n) (by simp)
    have hcount : ¬ s.nodeCount = 0 := by
      rw [h.count]
      simp
    rw [if_neg hcount]
    simp only [nodeNew, ends_bind, ends_get, ends_set, ends_pure, htail]
    -- the new node is in the heap, behind nobody
    let s₁ : MemStream := { s with
      tailPtr := some i
      heap := update s.heap s.made (some (freshNode s.minNodeSz k))
      made := s.made + 1
      nodeCount := s.nodeCount + 1 }
    have hcell₁ : s₁.heap i = some n := by
      rw [← hcell]
      exact update_of_ne (by omega) _ _
    refine (@ends_modifyNode s₁ i n _ _ hcell₁ _).mpr ?_
    -- the old last node points to it
    let s₂ : MemStream := { s₁ with
      heap := update s₁.heap i (some { n with nextNode := some s.made }) }
    have hcell₂ : s₂.heap s.made = some (freshNode s.minNodeSz k) := by
      refine (update_of_ne (by omega) _ _).trans ?_
      exact update_self _ _ _
    refine (@ends_modifyNode s₂ s.made (freshNode s.minNodeSz k) _ _ hcell₂ _).mpr ?_
    simp only [ends_modify, mutexUnlock]
    refine ⟨front ++ [(i, { n with nextNode := some s.made })], s.made,
      { freshNode s.minNodeSz k with prevNode := some i }, rfl, ?_, rfl, hcap, rfl⟩
    have hheap : update s₂.heap s.made
        (some { freshNode s.minNodeSz k with prevNode := some i }) =
          (s.lastAdded i n k).heap := by
      simp only [s₂, s₁, MemStream.lastAdded]
      rw [update_comm (by omega), update_idem, update_comm (by omega)]
    rw [hheap]
    exact h.lastAdded hk

end Chained

/-! ## Operations -/

def tailAvail (s : MemStream) : Nat :=
  ((s.tailPtr.bind s.heap).map MemStreamNode.availCap).getD 0

/-- An operation that the stream is good for: it is not thread-safe, the sizes do not wrap, no
read fails, the second of two reads gives all it is asked for, and a clean finds one node. -/
def Op.Fits (s : MemStream) : Op → Prop
  | .write data => s.streamType = .mtUnsafe ∧ s.dataSize + data.length < 2 ^ 64
  | .grabDataFromFD dataSz first second =>
      s.streamType = .mtUnsafe ∧ s.dataSize + dataSz < 2 ^ 64 ∧ first.isSome ∧
        (s.nodeCount ≠ 0 → s.tailAvail ≤ dataSz → second.isSome ∧
          dataSz - (delivered s.tailAvail first).length ≤ (second.getD []).length)
  | .clean => s.nodeCount = 1

section Operations

variable {s : MemStream} {cells front : List Cell} {bytes : List UInt8} {i : Nat}
  {n : MemStreamNode}

theorem availCap_eq (hsz : n.nodeSz ≤ n.nodeCap) (hcap : n.nodeCap < 2 ^ 64) :
    n.availCap = n.nodeCap - n.nodeSz := by
  rw [MemStreamNode.availCap, uint64Sub_of_le hsz hcap]

theorem Chained.tailAvail (h : Chained s (front ++ [(i, n)]) bytes) : s.tailAvail = n.availCap := by
  obtain ⟨htail, hcell, -, -⟩ := h.last
  rw [MemStream.tailAvail, htail, Option.bind_some, hcell, Option.map_some, Option.getD_some]

theorem append_ends (h : Chained s cells bytes) (bs : List UInt8)
    (htotal : s.dataSize + bs.length < 2 ^ 64) :
    Ends (newTailNode bs.length) s
      (fun ptr t => Ends (copyInto ptr bs) t
        (fun _ t => Ends (counterUpdate ptr bs.length) t (fun _ t => Holding s t bytes bs [])
          fun _ _ => False)
        fun _ _ => False)
      fun _ _ => False := by
  refine (newTailNode_ends h (by omega)).imp fun ptr t ht => ?_
  obtain ⟨front, i, n, hptr, hchained, hempty, hcap, hsame⟩ := ht
  have hsize : t.dataSize = s.dataSize := hchained.dataSize.trans h.dataSize.symm
  have hcopy := @copy_ends t _ bytes i n ptr hptr hchained bs (by omega) (by omega)
  refine hcopy.imp (fun _ t' ht' => ht'.imp (fun _ t'' hholding => ?_))
  obtain ⟨hsupplied, htotal', hcells⟩ := hholding
  exact ⟨by rw [hsupplied, hsame], by rw [htotal', hsize], hcells⟩

theorem appendRead_ends (h : Chained s cells bytes) {sz : Nat} {answer : Option (List UInt8)}
    (hanswer : answer.isSome = true) (htotal : s.dataSize + sz < 2 ^ 64) :
    Ends (newTailNode sz) s
      (fun ptr t => Ends (readInto ptr sz answer) t
        (fun r t => r = (delivered sz answer).length ∧
          Ends (counterUpdate ptr r) t
            (fun _ t => Holding s t bytes (delivered sz answer) (delivered sz answer))
            fun _ _ => False)
        fun _ _ => False)
      fun _ _ => False := by
  refine (newTailNode_ends h (by omega)).imp fun ptr t ht => ?_
  obtain ⟨front, i, n, hptr, hchained, hempty, hcap, hsame⟩ := ht
  have hsize : t.dataSize = s.dataSize := hchained.dataSize.trans h.dataSize.symm
  have hread := @read_ends t _ bytes i n ptr hptr hchained sz answer hanswer (by omega) (by omega)
  refine hread.imp (fun r t' ht' => ⟨ht'.1, ht'.2.imp (fun _ t'' hholding => ?_)⟩)
  obtain ⟨hsupplied, htotal', hcells⟩ := hholding
  exact ⟨by rw [hsupplied, hsame], by rw [htotal', hsize], hcells⟩

theorem Holding.sound {t : MemStream} {bs : List UInt8}
    (h : Holding s t bytes bs []) (hsame : s.supplied = bytes ++ bs) :
    Sound { t with locked := false } := by
  obtain ⟨hsupplied, -, cells, hchained⟩ := h
  refine ⟨cells, ?_⟩
  have hall : t.supplied = bytes ++ bs := by rw [hsupplied, hsame, append_nil]
  exact (congrArg (Chained { t with locked := false } cells) hall).mpr hchained.unlock

theorem write_ends (h : Sound s) {data : List UInt8} (hfits : (Op.write data).Fits s) :
    Ends (write data) s (fun _ => Sound) fun _ _ => False := by
  obtain ⟨cells, h⟩ := h
  obtain ⟨hunlocked, htotal⟩ := hfits
  obtain ⟨s₁, hs₁⟩ : ∃ s₁, s₁ = { s with supplied := s.supplied ++ data } := ⟨_, rfl⟩
  have h₁ : Chained s₁ cells s.supplied := hs₁ ▸ h.setSupplied _
  have hsame : s₁.supplied = s.supplied ++ data := by rw [hs₁]
  have htotal₁ : s₁.dataSize + data.length < 2 ^ 64 := by rw [hs₁]; exact htotal
  rw [write, ends_bind, ends_modify, ← hs₁]
  simp only [ends_bind, ends_mutexLock h₁.unlocked, ends_get]
  rcases eq_nil_or_concat cells with rfl | ⟨front, ⟨i, n⟩, rfl⟩
  · have hcount : s₁.nodeCount = 0 := h₁.count
    rw [if_pos hcount]
    simp only [ends_bind]
    refine (append_ends h₁ data htotal₁).imp fun ptr t ht => ?_
    refine ht.imp (fun _ t ht => ht.imp (fun _ t ht => ?_))
    exact ht.sound hsame
  · rw [concat_eq_append] at h₁
    obtain ⟨htail, hcell, -, -⟩ := h₁.last
    obtain ⟨hsz, hcap, -⟩ := h₁.room (i, n) (by simp)
    simp only at hsz hcap
    have havail := availCap_eq hsz hcap
    have hcount : ¬ s₁.nodeCount = 0 := by
      rw [h₁.count]
      simp
    rw [if_neg hcount]
    simp only [ends_bind, ends_get]
    rw [htail]
    simp only [ends_node hcell]
    by_cases hfits : data.length < n.availCap
    · rw [if_pos hfits]
      simp only [ends_bind]
      refine (copy_ends rfl h₁ (by omega) htotal₁).imp fun _ t ht => ?_
      refine ht.imp fun _ t ht => ?_
      exact ht.sound hsame
    · -- the last node is filled up and a new one takes the rest
      obtain ⟨k, hk⟩ : ∃ k, n.availCap = k := ⟨_, rfl⟩
      rw [hk] at hfits havail ⊢
      obtain ⟨rest, hrest⟩ : ∃ rest, data.drop k = rest := ⟨_, rfl⟩
      have hdata : data.take k ++ rest = data := by rw [← hrest, take_append_drop]
      have htake : (data.take k).length = k := length_take_of_le (by omega)
      have hlen : rest.length = data.length - k := by rw [← hrest, length_drop]
      have hleft : uint64Sub data.length k = rest.length := by
        rw [uint64Sub_of_le (by omega) (by omega), hlen]
      have hfirst := copy_ends rfl h₁ (by omega) (by omega : s₁.dataSize + (data.take k).length < _)
      rw [htake] at hfirst
      rw [if_neg hfits, hleft, hrest, take_length]
      simp only [ends_bind]
      refine hfirst.imp fun _ t ht => ?_
      refine ht.imp fun _ t ht => ?_
      obtain ⟨hsupplied, hsize, cells, hchained⟩ := ht
      have hsecond := append_ends hchained rest (by rw [hsize, htake]; omega)
      refine hsecond.imp fun ptr t' ht => ?_
      refine ht.imp (fun _ t' ht => ht.imp (fun _ t' ht => ?_))
      apply ht.sound
      rw [hsupplied, append_nil, hsame, append_assoc, hdata]

theorem Holding.sound_read {t : MemStream} {bs : List UInt8} (h : Holding s t bytes bs bs)
    (hsame : s.supplied = bytes) : Sound { t with locked := false } := by
  obtain ⟨hsupplied, -, cells, hchained⟩ := h
  refine ⟨cells, ?_⟩
  have hall : t.supplied = bytes ++ bs := by rw [hsupplied, hsame]
  exact (congrArg (Chained { t with locked := false } cells) hall).mpr hchained.unlock

theorem grabDataFromFD_ends (h : Sound s) {dataSz : Nat} {first second : Option (List UInt8)}
    (hfits : (Op.grabDataFromFD dataSz first second).Fits s) :
    Ends (grabDataFromFD dataSz first second) s (fun _ => Sound) fun _ _ => False := by
  obtain ⟨cells, h⟩ := h
  obtain ⟨hunlocked, htotal, hfirst, hsecond⟩ := hfits
  have hsmall : ∀ sz answer, sz ≤ dataSz →
      uint64 (delivered sz answer).length = (delivered sz answer).length := by
    intro sz answer hsz
    have hle := length_delivered_le sz answer
    exact uint64_of_lt (by omega)
  simp only [grabDataFromFD, ends_bind, ends_mutexLock h.unlocked, ends_get]
  rcases eq_nil_or_concat cells with rfl | ⟨front, ⟨i, n⟩, rfl⟩
  · have hcount : s.nodeCount = 0 := h.count
    rw [if_pos hcount]
    simp only [ends_bind]
    refine (appendRead_ends h hfirst htotal).imp fun ptr t ht => ?_
    refine ht.imp fun r t ht => ?_
    obtain ⟨rfl, ht⟩ := ht
    rw [hsmall _ _ le_rfl]
    refine ht.imp fun _ t ht => ?_
    exact ht.sound_read rfl
  · rw [concat_eq_append] at h
    obtain ⟨htail, hcell, -, -⟩ := h.last
    obtain ⟨hsz, hcap, -⟩ := h.room (i, n) (by simp)
    simp only at hsz hcap
    have havail := availCap_eq hsz hcap
    have hcount : ¬ s.nodeCount = 0 := by
      rw [h.count]
      simp
    have hsecond := hsecond hcount
    rw [h.tailAvail] at hsecond
    rw [if_neg hcount]
    simp only [ends_bind, ends_get]
    rw [htail]
    simp only [ends_node hcell]
    by_cases hroom : dataSz < n.availCap
    · rw [if_pos hroom]
      simp only [ends_bind]
      refine (read_ends rfl h hfirst (by omega) htotal).imp fun r t ht => ?_
      obtain ⟨rfl, ht⟩ := ht
      rw [hsmall _ _ le_rfl]
      refine ht.imp fun _ t ht => ?_
      exact ht.sound_read rfl
    · -- what is left goes to a new node, and counts as read
      obtain ⟨k, hk⟩ : ∃ k, n.availCap = k := ⟨_, rfl⟩
      rw [hk] at hroom havail hsecond ⊢
      obtain ⟨hanswer, hfull⟩ := hsecond (by omega)
      have hle := length_delivered_le k first
      rw [if_neg hroom]
      simp only [ends_bind]
      refine (read_ends rfl h hfirst (by omega) (by omega)).imp fun r t ht => ?_
      obtain ⟨rfl, ht⟩ := ht
      rw [hsmall _ _ (by omega)]
      refine ht.imp fun _ t ht => ?_
      obtain ⟨hsupplied, hsize, cells, hchained⟩ := ht
      have hleft : uint64Sub dataSz (delivered k first).length =
          dataSz - (delivered k first).length := uint64Sub_of_le (by omega) (by omega)
      have hall : (delivered (dataSz - (delivered k first).length) second).length =
          dataSz - (delivered k first).length := by
        rw [delivered, length_take]
        omega
      rw [hleft]
      have hlast := appendRead_ends hchained hanswer
        (by rw [hsize]; omega : t.dataSize + (dataSz - (delivered k first).length) < _)
      refine hlast.imp fun ptr t' ht => ?_
      refine ht.imp fun r t' ht => ?_
      obtain ⟨rfl, ht⟩ := ht
      rw [hall] at ht
      refine ht.imp fun _ t' ht => ?_
      exact ht.sound_read hsupplied

def wiped (n : MemStreamNode) : MemStreamNode :=
  { n with nodeData := splice n.nodeData 0 (List.replicate n.nodeSz 0), nodeSz := 0 }

theorem clean_ends (h : Sound s) (hfits : Op.clean.Fits s) :
    Ends clean s (fun _ => Sound) fun _ _ => False := by
  obtain ⟨cells, h⟩ := h
  have hcount : s.nodeCount = 1 := hfits
  obtain ⟨⟨i, n⟩, rfl⟩ : ∃ cell, cells = [cell] := length_eq_one_iff.mp (h.count ▸ hcount)
  obtain ⟨hhead, hcell, hnext⟩ := h.strung
  obtain ⟨hsz, hcap, hdata⟩ := h.room (i, n) (by simp)
  simp only at hsz hcap hdata
  let s₁ : MemStream := { s with nodeCount := 1, dataSize := 0 }
  have hcell₁ : s₁.heap i = some n := hcell
  simp only [clean, ends_bind, ends_mutexLock h.unlocked, ends_get, hhead]
  rw [ends_node hcell, if_neg (by omega), if_neg (by omega)]
  simp only [ends_bind, ends_modify]
  refine (ends_node hcell₁).mpr ?_
  simp only [ends_assertThat]
  refine ⟨fun _ => ?_, fun hf => absurd hf (by simp; omega)⟩
  refine (@ends_modifyNode s₁ i n _ _ hcell₁ _).mpr ?_
  simp only [ends_modify, mutexUnlock]
  refine ⟨[(i, wiped n)], ?_⟩
  refine
    { strung := ⟨rfl, update_self _ _ _, hnext⟩, tail := rfl
      nodup := nodup_singleton _, fresh := ?_, count := rfl, room := ?_
      content := rfl, dataSize := rfl, unlocked := h.unlocked }
  · intro cell hc
    obtain rfl := mem_singleton.mp hc
    exact h.fresh (i, n) (by simp)
  · intro cell hc
    obtain rfl := mem_singleton.mp hc
    refine ⟨Nat.zero_le _, hcap, ?_⟩
    simp only [wiped]
    rw [length_splice (by rw [length_replicate]; omega), hdata]

end Operations

/-! ## Runs -/

/-- **One operation.** -/
theorem handle_ends (op : Op) (s : MemStream) (h : Sound s) (hfits : op.Fits s) :
    Ends (handle op) s (fun _ => Sound) fun _ _ => False := by
  cases op with
  | write data => exact write_ends h hfits
  | grabDataFromFD dataSz first second =>
      rw [handle, ends_bind]
      exact grabDataFromFD_ends h hfits
  | clean => exact clean_ends h hfits

theorem not_fits_mtSafe (minNodeSz : Int64) (op : Op) : ¬ op.Fits (new minNodeSz .mtSafe) := by
  intro hfits
  cases op with
  | write data => exact absurd hfits.1 (by simp [new])
  | grabDataFromFD dataSz first second => exact absurd hfits.1 (by simp [new])
  | clean => exact absurd hfits (by simp [Op.Fits, new])

/-- **The content of a stream.**  Along a run of operations that the stream is good for, its
node list holds what was supplied since the last clean, `data_size` is its length, and no node
holds more than its capacity. -/
theorem run_faithful (minNodeSz : Int64) (streamType : MemStreamType) (ops : List Op)
    (hfits : Meets handle (fun s op => op.Fits s) (.live (new minNodeSz streamType)) ops) :
    Holds (fun s => ∃ nodes, Faithful s nodes) (fun _ _ => False)
      (run handle (.live (new minNodeSz streamType)) ops) := by
  cases streamType with
  | mtUnsafe =>
      have hrun := invariant_run_of (A := fun _ _ => False) (I := Sound) handle_ends
        (c := .live (new minNodeSz .mtUnsafe)) (sound_new minNodeSz) ops hfits
      apply hrun.mono
      · intro s h
        obtain ⟨cells, h⟩ := h
        exact ⟨_, h.faithful⟩
      · intro f s hf
        exact hf
  | mtSafe =>
      cases ops with
      | nil =>
          have hempty : walk (new minNodeSz .mtSafe).heap 0 none = some [] := rfl
          exact ⟨[], hempty, rfl, rfl, by nofun⟩
      | cons op ops => exact absurd (hfits.1 rfl) (not_fits_mtSafe minNodeSz op)

instance instDecidableFits (s : MemStream) (op : Op) : Decidable (op.Fits s) := by
  cases op <;> unfold Op.Fits <;> infer_instance

/-- Two bytes are written and wiped. Then a read fills up the node that the next write
began, and takes a new one for the rest. -/
theorem run_faithful_of_reads :
    Holds (fun s => ∃ nodes, Faithful s nodes) (fun _ _ => False)
      (run handle (.live (new 3 .mtUnsafe))
        [.write [1, 2], .clean, .write [3], .grabDataFromFD 4 (some [4, 5]) (some [6, 7])]) :=
  run_faithful 3 .mtUnsafe _ (by decide)

/-- The last node is full, so that the first read asks for nothing. The second gives one byte
of the four, and the sizes count four. -/
theorem short_second_read_counts_whole :
    ¬ Holds (fun s => ∃ nodes, Faithful s nodes) (fun _ _ => False)
      (run handle (.live (new 0 .mtUnsafe))
        [.write [1], .grabDataFromFD 4 (some []) (some [7])]) := by
  intro h
  obtain ⟨nodes, hfaithful⟩ := h
  exact absurd hfaithful.dataSize (by decide)

end MemStream

end BrbData
