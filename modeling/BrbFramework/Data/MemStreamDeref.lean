import BrbFramework.Data.MemStreamContent

/-!
# Random access to memory streams

`MemStreamOffsetDeref` looks for the node of an offset. The walk stops at the
first node that ends at the offset or behind it, where the byte may already be
the first one of the next node, and what it hands out is where the bytes of the
node begin. Behind the last node it follows the null pointer.
-/

namespace BrbData

open Handler Machine Runs List

namespace MemStream

/-- A byte of a stream: the address of its node, and its index in the bytes of the node. -/
abbrev Address := Nat × Nat

structure MemStreamRef where
  nodeIdx : Nat := 0
  nodeSz : Nat := 0
  nodeBase : Option Address := none
  data : Option Address := none
  deriving DecidableEq, Repr

/-- The loop of `MemStreamOffsetDeref`, for at most `fuel` nodes. -/
def offsetDerefFrom (offset : Nat) (memStreamRef : MemStreamRef) :
    Nat → Option Nat → Nat → Nat → M MemStreamRef
  | fuel + 1, some ptr, i, curOff => do
    let memNode ← node (some ptr)
    if curOff ≥ offset then
      return { nodeIdx := i, data := some (ptr, 0), nodeBase := some (ptr, 0),
               nodeSz := memNode.nodeSz }
    else
      -- The step of the loop reads a node before the loop looks whether there is one.
      let nextNode ← node memNode.nextNode
      offsetDerefFrom offset memStreamRef fuel memNode.nextNode (i + 1)
        (uint64 (curOff + nextNode.nodeSz))
  | _, _, _, _ => return memStreamRef

/-- `MemStreamOffsetDeref`, with what it leaves in the reference that it is given. -/
def offsetDeref (memStreamRef : MemStreamRef) (offset : Nat) : M MemStreamRef := do
  mutexLock
  let s ← get
  let memNode ← node s.headPtr
  let ref ← offsetDerefFrom offset memStreamRef s.made s.headPtr 0 memNode.nodeSz
  mutexUnlock
  return ref

/-! ## Where a byte is -/

/-- Where the byte at an offset of the concatenated nodes is, and null behind their end. -/
def byteAddress : List Cell → Nat → Option Address
  | [], _ => none
  | (i, n) :: cells, offset =>
    if offset < n.nodeSz then some (i, offset) else byteAddress cells (offset - n.nodeSz)

def byteAt (heap : Nat → Option MemStreamNode) (a : Address) : Option UInt8 :=
  (heap a.1).bind fun n => n.nodeData[a.2]?

/-- The nodes of the stream are the cells, each with its bytes in use inside its allocation.
The last one is followed by none, or by one that a clean has freed. -/
structure Laid (s : MemStream) (cells : List Cell) : Prop where
  strung : ∃ q, Strung s.heap s.headPtr cells q ∧ q.bind s.heap = none
  nodup : (cells.map Prod.fst).Nodup
  made : cells.length ≤ s.made
  room : ∀ cell ∈ cells, cell.2.nodeSz ≤ cell.2.nodeData.length
  dataSize : s.dataSize = (content (cells.map Prod.snd)).length
  small : s.dataSize < 2 ^ 64
  unheld : s.streamType = .mtSafe → s.locked = false

section Address

variable {heap : Nat → Option MemStreamNode} {p q : Option Nat} {cells : List Cell}

theorem length_content_cons {n : MemStreamNode} (nodes : List MemStreamNode)
    (h : n.nodeSz ≤ n.nodeData.length) :
    (content (n :: nodes)).length = n.nodeSz + (content nodes).length := by
  rw [content, flatMap_cons, length_append, length_take, Nat.min_eq_left h]
  rfl

theorem byteAt_byteAddress (h : Strung heap p cells q)
    (hroom : ∀ cell ∈ cells, cell.2.nodeSz ≤ cell.2.nodeData.length) (offset : Nat) :
    (byteAddress cells offset).bind (byteAt heap) =
      (content (cells.map Prod.snd))[offset]? := by
  induction cells generalizing p offset with
  | nil => rfl
  | cons cell cells ih =>
      obtain ⟨-, hcell, hrest⟩ := h
      obtain ⟨hfirst, hothers⟩ := forall_mem_cons.mp hroom
      have hlen : (cell.2.nodeData.take cell.2.nodeSz).length = cell.2.nodeSz := by
        rw [length_take, Nat.min_eq_left hfirst]
      rw [byteAddress, map_cons, content, flatMap_cons]
      by_cases hin : offset < cell.2.nodeSz
      · rw [if_pos hin, getElem?_append_left (by omega), getElem?_take_of_lt hin]
        simp [byteAt, hcell]
      · rw [if_neg hin, getElem?_append_right (by omega), hlen]
        exact ih hrest hothers _

theorem byteAddress_fst_mem {offset : Nat} {a : Address} (h : byteAddress cells offset = some a) :
    a.1 ∈ cells.map Prod.fst := by
  induction cells generalizing offset with
  | nil => cases h
  | cons cell cells ih =>
      rw [byteAddress] at h
      by_cases hin : offset < cell.2.nodeSz
      · rw [if_pos hin] at h
        cases h
        exact mem_cons_self
      · rw [if_neg hin] at h
        exact mem_cons_of_mem _ (ih h)

end Address

/-! ## Where the walk stops -/

/-- The first cell that ends at the offset or behind it. -/
def landing : List Cell → Nat → Option Cell
  | [], _ => none
  | cell :: cells, offset =>
    if offset ≤ cell.2.nodeSz then some cell else landing cells (offset - cell.2.nodeSz)

/-- The start of the node where the walk stops is the byte asked for only if that is the first
byte of the stream, in the first node. -/
theorem landing_start_iff {cells : List Cell} (hnodup : (cells.map Prod.fst).Nodup)
    (offset : Nat) :
    (∃ cell, landing cells offset = some cell ∧ some (cell.1, 0) = byteAddress cells offset) ↔
      offset = 0 ∧ ∃ cell ∈ cells.head?, 0 < cell.2.nodeSz := by
  induction cells generalizing offset with
  | nil => simp [landing]
  | cons cell cells ih =>
      obtain ⟨hhead, hrest⟩ := nodup_cons.mp hnodup
      simp only [landing, byteAddress, head?_cons, Option.mem_some_iff, exists_eq_left']
      by_cases hlt : offset < cell.2.nodeSz
      · rw [if_pos (Nat.le_of_lt hlt), if_pos hlt]
        constructor
        · intro h
          obtain ⟨found, hfound, hstart⟩ := h
          cases hfound
          have hzero : 0 = offset := congrArg Prod.snd (Option.some.inj hstart)
          exact ⟨hzero.symm, by omega⟩
        · intro h
          obtain ⟨rfl, -⟩ := h
          exact ⟨cell, rfl, rfl⟩
      · rw [if_neg hlt]
        by_cases hend : offset ≤ cell.2.nodeSz
        · -- The byte is the first one of a later node.
          rw [if_pos hend]
          constructor
          · intro h
            obtain ⟨found, hfound, hstart⟩ := h
            cases hfound
            exact absurd (byteAddress_fst_mem hstart.symm) hhead
          · intro h
            omega
        · rw [if_neg hend, ih hrest]
          omega

section Deref

variable {s : MemStream} {ref : MemStreamRef} {offset : Nat}

theorem node_gone {α : MemStreamNode → MemStream → Prop} {E : Fault → MemStream → Prop}
    {p : Option Nat} (hp : p.bind s.heap = none) (hE : ∀ f, E f s) : Ends (node p) s α E := by
  cases p with
  | none => exact hE .null
  | some i =>
      have hfreed : s.heap i = none := hp
      simp [node, hfreed, hE]

theorem offsetDerefFrom_ends {q : Option Nat} (hq : q.bind s.heap = none) (fuel : Nat)
    (cell : Cell) (cells : List Cell) (i base : Nat)
    (h : Strung s.heap (some cell.1) (cell :: cells) q)
    (hroom : ∀ m ∈ cell :: cells, m.2.nodeSz ≤ m.2.nodeData.length)
    (hfuel : cells.length < fuel) (hbase : base ≤ offset)
    (hsmall : base + (content ((cell :: cells).map Prod.snd)).length < 2 ^ 64) :
    Ends (offsetDerefFrom offset ref fuel (some cell.1) i (base + cell.2.nodeSz)) s
      (fun r t => t = s ∧ ∃ found, landing (cell :: cells) (offset - base) = some found ∧
        r.data = some (found.1, 0))
      fun _ _ => landing (cell :: cells) (offset - base) = none := by
  induction fuel generalizing cell cells i base with
  | zero => omega
  | succ fuel ih =>
      obtain ⟨-, hcell, hrest⟩ := h
      obtain ⟨hfirst, hothers⟩ := forall_mem_cons.mp hroom
      rw [map_cons, length_content_cons _ hfirst] at hsmall
      rw [offsetDerefFrom, ends_bind, ends_node hcell]
      by_cases hend : offset ≤ base + cell.2.nodeSz
      · have hhere : landing (cell :: cells) (offset - base) = some cell := by
          rw [landing, if_pos (by omega)]
        rw [if_pos hend, ends_pure]
        exact ⟨rfl, cell, hhere, rfl⟩
      · have hlater : landing (cell :: cells) (offset - base) =
            landing cells (offset - (base + cell.2.nodeSz)) := by
          rw [landing, if_neg (by omega), Nat.sub_sub]
        rw [if_neg hend, ends_bind, hlater]
        cases cells with
        | nil =>
            have hgone : cell.2.nextNode.bind s.heap = none := by
              rw [hrest]
              exact hq
            apply node_gone hgone
            intro f
            rfl
        | cons next cells =>
            obtain ⟨hnext, hnode, hbehind⟩ := hrest
            have hnextRoom := (forall_mem_cons.mp hothers).1
            have hsum := length_content_cons (cells.map Prod.snd) hnextRoom
            rw [map_cons, hsum] at hsmall
            rw [hnext, ends_node hnode, uint64_of_lt (by omega)]
            apply ih next cells (i + 1) (base + cell.2.nodeSz) ⟨rfl, hnode, hbehind⟩ hothers
            · rw [length_cons] at hfuel
              omega
            · omega
            · rw [map_cons, hsum]
              omega

variable {cells : List Cell}

theorem mutexLock_ends (h : s.streamType = .mtSafe → s.locked = false) :
    Ends mutexLock s (fun _ t => t.heap = s.heap ∧ t.headPtr = s.headPtr ∧ t.made = s.made)
      fun _ _ => False := by
  cases htype : s.streamType with
  | mtUnsafe => simp [ends_mutexLock htype]
  | mtSafe => simp [mutexLock, htype, h htype]

theorem offsetDeref_ends (h : Laid s cells) :
    Ends (offsetDeref ref offset) s
      (fun r _ => ∃ found, landing cells offset = some found ∧ r.data = some (found.1, 0))
      fun _ _ => landing cells offset = none := by
  obtain ⟨q, hstrung, hq⟩ := h.strung
  rw [offsetDeref, ends_bind]
  apply (mutexLock_ends h.unheld).total
  intro _ t ht
  obtain ⟨hheap, hhead, hmade⟩ := ht
  rw [← hheap, ← hhead] at hstrung
  rw [← hheap] at hq
  rw [ends_bind, ends_get, ends_bind]
  cases cells with
  | nil =>
      have hgone : t.headPtr.bind t.heap = none := by
        rw [hstrung]
        exact hq
      apply node_gone hgone
      intro f
      rfl
  | cons cell cells =>
      have hcell := hstrung.2.1
      have hfuel : cells.length < t.made := by
        rw [hmade]
        exact h.made
      have hsmall : 0 + (content ((cell :: cells).map Prod.snd)).length < 2 ^ 64 := by
        rw [Nat.zero_add, ← h.dataSize]
        exact h.small
      have hwalk := @offsetDerefFrom_ends t ref offset _ hq t.made cell cells 0 0
        (hstrung.1 ▸ hstrung) h.room hfuel (Nat.zero_le offset) hsmall
      rw [Nat.zero_add, Nat.sub_zero] at hwalk
      rw [hstrung.1, ends_node hcell, ends_bind]
      apply hwalk.imp
      intro r u hr
      exact hr.2

/-- **Random access.**  The reference gets the address of the byte at the offset, and null
behind the end of the stream, exactly if the offset is zero and there is a byte in the first
node. -/
theorem offsetDeref_iff (h : Laid s cells) (ref : MemStreamRef) (offset : Nat) :
    Ends (offsetDeref ref offset) s (fun r _ => r.data = byteAddress cells offset)
        (fun _ _ => False) ↔
      offset = 0 ∧ ∃ cell ∈ cells.head?, 0 < cell.2.nodeSz := by
  rw [← landing_start_iff h.nodup]
  apply ends_total_iff
  apply (offsetDeref_ends h).mono
  · intro r t hr
    obtain ⟨found, hfound, hdata⟩ := hr
    simp [hfound, hdata]
  · intro f t hnone
    simp [hnone]

end Deref

/-- A stream that two writes have left with three bytes in two nodes. -/
def twoNodes : MemStream :=
  (run handle (.live (new 2 .mtUnsafe)) [.write [7], .write [8, 9]]).state

def twoNodesCells : List Cell :=
  [(0, { nextNode := some 1, nodeSz := 2, nodeCap := 2, nodeData := [7, 8] }),
    (1, { prevNode := some 0, nodeSz := 1, nodeCap := 2, nodeData := [9, 0] })]

theorem laid_twoNodes : Laid twoNodes twoNodesCells where
  strung := ⟨none, ⟨rfl, rfl, rfl, rfl, rfl⟩, rfl⟩
  nodup := by decide
  made := by decide
  room := by decide
  dataSize := rfl
  small := by decide
  unheld := by
    intro hsafe
    cases hsafe

/-- The first byte is found. -/
theorem offsetDeref_iff_first_byte :
    Ends (offsetDeref {} 0) twoNodes (fun r _ => r.data = byteAddress twoNodesCells 0)
      fun _ _ => False :=
  (offsetDeref_iff laid_twoNodes {} 0).mpr ⟨rfl, _, rfl, by decide⟩

/-- The second byte of the first node is not, nor is the first one of the second node. -/
theorem inner_bytes_are_missed :
    ¬ Ends (offsetDeref {} 1) twoNodes (fun r _ => r.data = byteAddress twoNodesCells 1)
        (fun _ _ => False) ∧
      ¬ Ends (offsetDeref {} 2) twoNodes (fun r _ => r.data = byteAddress twoNodesCells 2)
        fun _ _ => False := by
  decide

end MemStream

end BrbData
