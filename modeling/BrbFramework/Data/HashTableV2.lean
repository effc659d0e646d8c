import BrbFramework.Data.MemArena
import BrbFramework.Lib.LittleEndian
import BrbFramework.Lib.Linked
import BrbFramework.Lib.Runs

/-!
# `HashTableV2`

Items that a caller owns, linked into the lists of numbered buckets. A bucket is grabbed
from an arena when an item is added to it and released with its last item; its memory
is cleared only when the block of the arena that it lies in is allocated.

`table_isMap` is what the table is for: after any operations a look-up finds the item
of its key that was added last, and the arena holds the buckets that have items.
-/

namespace BrbData

open Handler Linked Runs List Function

structure HashTableBucket where
  list : DList
  id : Nat
  active : Bool
  deriving DecidableEq

def HashTableBucket.zero : HashTableBucket := ⟨.empty, 0, false⟩

structure HashTableV2Item where
  /-- A pointer to a bucket, which is the bucket's number. -/
  bucket : Option Nat
  dataPtr : Option Nat
  /-- The bytes that `key.ptr` leads to. -/
  keyPtr : List UInt8
  keySz : Nat
  deriving DecidableEq

def HashTableV2Item.zero : HashTableV2Item := ⟨none, none, [], 0⟩

structure HashTableConfig where
  hashfuncCode : Int
  maxBuckets : Int
  /-- `func.hash`, with the key, its size, the seed and the number of the buckets. -/
  hash : Option (List UInt8 → Nat → Int → Int → UInt32)
  keyCmp : Option (HashTableV2Item → List UInt8 → Nat → Bool)
  keyMatchSz : Bool
  itemCheckDup : Bool

/-- The functions, the configuration and the flags of a table, which nothing changes. -/
structure HashTableV2.Setup where
  hash : List UInt8 → Nat → Int → Int → UInt32
  keyCmp : HashTableV2Item → List UInt8 → Nat → Bool
  maxBuckets : Int
  itemCheckDup : Bool
  keyMatchSz : Bool

structure HashTableV2 where
  setup : HashTableV2.Setup
  arena : MemArena
  /-- The memory of the slots of the arena. -/
  buckets : Nat → HashTableBucket
  /-- The items of the callers, and the list nodes inside them. -/
  items : Nat → HashTableV2Item
  links : Heap
  /-- The items that were added, which bounds the walks. -/
  added : Nat

namespace HashTableV2

inductive Fault
  /-- An assertion of the arena. -/
  | arena (f : MemArena.Fault)
  /-- The memory of a block that was freed is used. -/
  | freed
  /-- A null pointer is followed. -/
  | null
  /-- A walk goes on after a step for each item. -/
  | hung
  deriving DecidableEq, Repr

abbrev M := EStateM Fault HashTableV2

/-! ## The hash functions -/

/-- `HashTableV2HashFuncROTL32`. -/
def rotl32 (x r : UInt32) : UInt32 := (x <<< r) ||| (x >>> (32 - r))

/-- `HashTableV2HashFuncFMIX32`. -/
def fmix32 (h : UInt32) : UInt32 :=
  let h := (h ^^^ (h >>> 16)) * 0x85ebca6b
  let h := (h ^^^ (h >>> 13)) * 0xc2b2ae35
  h ^^^ (h >>> 16)

/-- An `int` as an `unsigned int`. -/
def toUnsigned (x : Int) : UInt32 := UInt32.ofInt x

/-- `HashTableV2HashFuncDefault`. -/
def hashFuncDefault (keyPtr : List UInt8) (keySz : Nat) (keySeed maxHashSz : Int) : UInt32 :=
  let result := (keyPtr.take keySz).foldl (fun result ch =>
    -- a `char` is signed, and `i % 1` is zero
    let x := ch.toInt8.toInt32.toUInt32
    (result ^^^ fmix32 x) + rotl32 x 15) (toUnsigned keySeed)
  result % toUnsigned maxHashSz

/-- `HashTableV2HashFuncMurMur`. -/
def hashFuncMurMur (keyPtr : List UInt8) (keySz : Nat) (keySeed maxHashSz : Int) : UInt32 :=
  let key := keyPtr.take keySz
  let nblocks := keySz / 4
  let c1 : UInt32 := 0xcc9e2d51
  let c2 : UInt32 := 0x1b873593
  let h1 := (List.range nblocks).foldl (fun h1 i =>
    let k1 := UInt32.ofNat (LittleEndian.toNat ((key.drop (4 * i)).take 4))
    rotl32 (h1 ^^^ (rotl32 (k1 * c1) 15 * c2)) 13 * 5 + 0xe6546b64) (toUnsigned keySeed)
  let k1 := UInt32.ofNat (LittleEndian.toNat (key.drop (4 * nblocks)))
  let h1 := if keySz % 4 = 0 then h1 else h1 ^^^ (rotl32 (k1 * c1) 15 * c2)
  fmix32 (h1 ^^^ UInt32.ofNat keySz) % toUnsigned maxHashSz

/-- `HashTableV2KeyCmpFuncDefault`. -/
def keyCmpFuncDefault (hashItem : HashTableV2Item) (keyPtr : List UInt8) (keySz : Nat) : Bool :=
  hashItem.keyPtr.take keySz == keyPtr.take keySz

/-- `HashTableV2HashDecide`, where an unknown code aborts. -/
def hashDecide (config : Option HashTableConfig) :
    Option (List UInt8 → Nat → Int → Int → UInt32) :=
  match config with
  | none => some hashFuncDefault
  | some config =>
      if config.hashfuncCode > 0 then
        if config.hashfuncCode = 1 then some hashFuncDefault
        else if config.hashfuncCode = 2 then some hashFuncMurMur
        else none
      else
        match config.hash with
        | some hash => some hash
        | none => some hashFuncDefault

/-- `HashTableV2New`. -/
def new (config : Option HashTableConfig) : Option HashTableV2 :=
  (hashDecide config).map fun hash =>
    { setup :=
        { hash := hash
          keyCmp := (config.bind HashTableConfig.keyCmp).getD keyCmpFuncDefault
          maxBuckets := match config with
            | none => 7951
            | some config => if config.maxBuckets > 0 then config.maxBuckets else 7951
          itemCheckDup := (config.map HashTableConfig.itemCheckDup).getD false
          keyMatchSz := (config.map HashTableConfig.keyMatchSz).getD false }
      arena := .new 128 16
      buckets := fun _ => .zero
      items := fun _ => .zero
      links := fun _ => .null
      added := 0 }

def Setup.bucketId (p : Setup) (keyPtr : List UInt8) (keySz : Nat) : Nat :=
  (p.hash keyPtr keySz 12345 p.maxBuckets % toUnsigned p.maxBuckets).toNat

/-! ## The arena -/

/-- `MemArenaGrabByID`. The memory of a new block is cleared. -/
def arenaGrabByID (id : Nat) : M PUnit := do
  let s ← get
  match s.arena.grabByID id with
  | .error f => throw (.arena f)
  | .ok arena =>
    let fresh := (s.arena.data (id / s.arena.slotCount)).isNone
    set { s with
      arena := arena
      buckets := fun j =>
        if fresh && j / s.arena.slotCount == id / s.arena.slotCount then .zero else s.buckets j }

/-- `MemArenaReleaseByID`. -/
def arenaReleaseByID (id : Nat) : M PUnit := do
  let s ← get
  match s.arena.releaseByID id with
  | .error f => throw (.arena f)
  | .ok arena => set { s with arena := arena }

/-- `MemArenaFindByID`, as to whether there is a slot. -/
def arenaFindByID (a : MemArena) (id : Nat) : Bool :=
  decide (id / a.slotCount < a.capacity) && a.inUse id

def allocated (a : MemArena) (id : Nat) : Bool := (a.data (id / a.slotCount)).isSome

def bucket (id : Nat) : M HashTableBucket := do
  let s ← get
  if allocated s.arena id then return s.buckets id else throw .freed

def setBucket (id : Nat) (b : HashTableBucket) : M PUnit := do
  let s ← get
  if allocated s.arena id then set { s with buckets := Function.update s.buckets id b }
  else throw .freed

/-! ## The table -/

/-- The loop of `HashTableV2BucketWalk`. -/
def bucketWalkLoop (keyPtr : List UInt8) (keySz : Nat) : Nat → Option Nat → M (Option Nat)
  | _, none => return none
  | 0, some _ => throw .hung
  | n + 1, some node => do
    let s ← get
    match (s.links node).data with
    | none => throw .null
    | some hashItem =>
      -- an item with a key of another size is passed over before it is compared
      if s.setup.keyMatchSz && (s.items hashItem).keySz != keySz then
        bucketWalkLoop keyPtr keySz n (s.links node).next
      else if s.setup.keyCmp (s.items hashItem) keyPtr keySz then return some hashItem
      else bucketWalkLoop keyPtr keySz n (s.links node).next

/-- `HashTableV2BucketWalk`. -/
def bucketWalk (id : Nat) (keyPtr : List UInt8) (keySz : Nat) : M (Option Nat) := do
  let b ← bucket id
  bucketWalkLoop keyPtr keySz (← get).added b.list.head

/-- The end of `HashTableV2ItemAdd`, which links the item. -/
def itemLink (id hashItem : Nat) (dataPtr : Option Nat) (keyPtr : List UInt8) (keySz : Nat) :
    M Bool := do
  let b ← bucket id
  let s ← get
  setBucket id { b with list := (add b.list s.links hashItem (some hashItem)).1 }
  modify fun s => { s with
    links := (add b.list s.links hashItem (some hashItem)).2
    items := Function.update s.items hashItem
      { bucket := some id, dataPtr := dataPtr, keyPtr := keyPtr, keySz := keySz }
    added := s.added + 1 }
  return true

/-- `HashTableV2ItemAdd`. -/
def itemAdd (hashItem : Nat) (dataPtr : Option Nat) (keyPtr : List UInt8) (keySz : Nat) :
    M Bool := do
  let s ← get
  let id := s.setup.bucketId keyPtr keySz
  arenaGrabByID id
  let b ← bucket id
  if !b.active then
    setBucket id { list := .empty, id := id, active := true }
    itemLink id hashItem dataPtr keyPtr keySz
  else if s.setup.itemCheckDup then
    match ← bucketWalk id keyPtr keySz with
    | some _ => return false
    | none => itemLink id hashItem dataPtr keyPtr keySz
  else itemLink id hashItem dataPtr keyPtr keySz

/-- `HashTableV2ItemDel`. -/
def itemDel (hashItem : Nat) : M Bool := do
  let s ← get
  match (s.items hashItem).bucket with
  | none => return false
  | some id =>
    let b ← bucket id
    setBucket id { b with list := (delete b.list s.links hashItem).1 }
    modify fun s => { s with
      links := (delete b.list s.links hashItem).2
      items := Function.update s.items hashItem
        { s.items hashItem with bucket := none, keyPtr := [], keySz := 0 } }
    let b ← bucket id
    if b.list.head.isNone then
      arenaReleaseByID b.id
    return true

/-- `HashTableV2ItemFind`. -/
def itemFind (keyPtr : List UInt8) (keySz : Nat) : M (Option Nat) := do
  let s ← get
  let id := s.setup.bucketId keyPtr keySz
  if !arenaFindByID s.arena id then return none
  let b ← bucket id
  if b.list.head.isNone then return none
  bucketWalk id keyPtr keySz

/-- An operation. A key is given with the number of its bytes. -/
inductive Op
  | add (hashItem : Nat) (dataPtr : Option Nat) (key : List UInt8)
  | del (hashItem : Nat)
  | find (key : List UInt8)
  deriving DecidableEq

def handle : Op → M PUnit
  | .add hashItem dataPtr key => do
    let _ ← itemAdd hashItem dataPtr key key.length
  | .del hashItem => do
    let _ ← itemDel hashItem
  | .find key => do
    let _ ← itemFind key key.length

/-! ## The arena's blocks -/

section Blocks

variable {a a' : MemArena} {id j : Nat}

theorem allocated_of_inUse (h : a.inUse id = true) : allocated a id = true := by
  unfold allocated
  cases hblock : a.data (id / a.slotCount) with
  | none => simp [MemArena.inUse, hblock] at h
  | some header => rfl

theorem allocated_grab (h : a.grabByID id = .ok a') (hcount : a'.slotCount = a.slotCount) :
    allocated a' j = (allocated a j || decide (j / a.slotCount = id / a.slotCount)) := by
  unfold MemArena.grabByID at h
  simp only at h
  split at h
  · cases h
  · cases h
    simp only [allocated, update_apply]
    split
    · rename_i heq
      simp [heq]
    · rename_i hne
      simp [hne]

theorem allocated_release (h : a.releaseByID id = .ok a') (hcount : a'.slotCount = a.slotCount)
    (hj : allocated a' j = true) : allocated a j = true := by
  unfold MemArena.releaseByID at h
  simp only at h
  split at h
  · cases h
  · rename_i header hblock
    split at h
    · cases h
    · split at h
      · cases h
      · cases h
        simp only [allocated, update_apply] at hj ⊢
        split at hj
        · rename_i heq
          rw [heq, hblock]
          rfl
        · exact hj

theorem find_eq_inUse (hroom : a.Roomy) : arenaFindByID a id = a.inUse id := by
  cases hin : a.inUse id with
  | false => rw [arenaFindByID, hin, Bool.and_false]
  | true =>
      obtain ⟨header, hblock⟩ := Option.isSome_iff_exists.1 (allocated_of_inUse hin)
      rw [arenaFindByID, hin, Bool.and_true, decide_eq_true (hroom _ _ hblock).1]

end Blocks

/-! ## The map -/

def Setup.home (p : Setup) (key : List UInt8) : Nat := p.bucketId key key.length

/-- The live items of a bucket, the last added first. -/
def Setup.chain (p : Setup) (live : List (Nat × List UInt8)) (id : Nat) : List Nat :=
  (live.filter fun e => p.home e.2 = id).map Prod.fst

def found (s : HashTableV2) (key : List UInt8) (x : Nat) : Bool :=
  !(s.setup.keyMatchSz && (s.items x).keySz != key.length) &&
    s.setup.keyCmp (s.items x) key key.length

/-- The items `live` are linked into the lists of their buckets, the last added first. -/
structure Shape (p : Setup) (live : List (Nat × List UInt8)) (s : HashTableV2) : Prop where
  setup : s.setup = p
  wf : s.arena.WF
  roomy : s.arena.Roomy
  slotCount : s.arena.slotCount = 16
  initial : s.arena.initial = 128
  bucket : ∀ id, allocated s.arena id = true → (s.buckets id).active = true →
    (s.buckets id).id = id ∧ IsList s.links (s.buckets id).list (p.chain live id)
  items : ∀ e ∈ live, (s.items e.1).bucket = some (p.home e.2) ∧ (s.items e.1).keyPtr = e.2 ∧
    (s.items e.1).keySz = e.2.length ∧ (s.links e.1).data = some e.1
  free : ∀ i, i ∉ live.map Prod.fst → (s.items i).bucket = none
  nodup : (live.map Prod.fst).Nodup
  added : live.length ≤ s.added

/-- The buckets that are in use are those of the live items. -/
structure Models (p : Setup) (live : List (Nat × List UInt8)) (s : HashTableV2) : Prop where
  shape : Shape p live s
  inUse : ∀ id, s.arena.inUse id = true ↔ ∃ e ∈ live, p.home e.2 = id
  active : ∀ id, s.arena.inUse id = true → (s.buckets id).active = true

section Steps

variable {p : Setup} {live : List (Nat × List UInt8)} {s : HashTableV2} {id i : Nat}
  {key : List UInt8} {d : Option Nat}

theorem mem_chain : i ∈ p.chain live id ↔ ∃ k, (i, k) ∈ live ∧ p.home k = id := by
  simp only [Setup.chain, mem_map, mem_filter, decide_eq_true_eq]
  constructor
  · rintro ⟨⟨_, k⟩, ⟨hmem, hhome⟩, rfl⟩
    exact ⟨k, hmem, hhome⟩
  · rintro ⟨k, hmem, hhome⟩
    exact ⟨(i, k), ⟨hmem, hhome⟩, rfl⟩

theorem chain_eq_nil : p.chain live id = [] ↔ ¬∃ e ∈ live, p.home e.2 = id := by
  simp [Setup.chain, filter_eq_nil_iff]

theorem chain_cons (e : Nat × List UInt8) : p.chain (e :: live) id =
    if p.home e.2 = id then e.1 :: p.chain live id else p.chain live id := by
  unfold Setup.chain
  by_cases h : p.home e.2 = id
  · rw [filter_cons_of_pos (by simpa using h), if_pos h, map_cons]
  · rw [filter_cons_of_neg (by simpa using h), if_neg h]

theorem length_chain_le : (p.chain live id).length ≤ live.length := by
  rw [Setup.chain, length_map]
  exact length_filter_le ..

theorem Shape.key_eq (h : Shape p live s) {k k' : List UInt8} (hk : (i, k) ∈ live)
    (hk' : (i, k') ∈ live) : k = k' :=
  (h.items _ hk).2.1.symm.trans (h.items _ hk').2.1

theorem ends_bucket (ha : allocated s.arena id = true) {Q : HashTableBucket → HashTableV2 → Prop}
    {E : Fault → HashTableV2 → Prop} : Ends (bucket id) s Q E ↔ Q (s.buckets id) s := by
  simp only [HashTableV2.bucket, ends_bind, ends_get, ha, if_true, ends_pure]

theorem ends_setBucket (ha : allocated s.arena id = true) {b : HashTableBucket}
    {Q : PUnit → HashTableV2 → Prop} {E : Fault → HashTableV2 → Prop} :
    Ends (setBucket id b) s Q E ↔
      Q PUnit.unit { s with buckets := update s.buckets id b } := by
  simp only [setBucket, ends_bind, ends_get, ha, if_true, ends_set]

/-! ### The walk -/

theorem bucketWalkLoop_ends {q : Option Nat} {xs : List Nat} {n : Nat}
    (hc : Chain s.links q xs none) (hdata : ∀ x ∈ xs, (s.links x).data = some x)
    (hn : xs.length ≤ n) :
    Ends (bucketWalkLoop key key.length n xs.head?) s
      (fun r t => t = s ∧ r = xs.find? (found s key)) fun _ _ => False := by
  induction xs generalizing q n with
  | nil => cases n <;> exact ⟨rfl, rfl⟩
  | cons x xs ih =>
      obtain ⟨-, hnext, hrest⟩ := hc
      obtain ⟨n, rfl⟩ := Nat.exists_eq_succ_of_ne_zero (Nat.ne_of_gt (Nat.lt_of_lt_of_le
        (Nat.zero_lt_succ xs.length) hn))
      have hnext' : (s.links x).next = xs.head? := by
        rw [hnext]
        cases xs <;> rfl
      have hih := ih hrest (fun y hy => hdata y (mem_cons_of_mem _ hy))
        (Nat.le_of_succ_le_succ hn)
      simp only [head?_cons, bucketWalkLoop, ends_bind, ends_get, hdata x mem_cons_self,
        hnext']
      rw [find?_cons]
      cases hsz : s.setup.keyMatchSz && (s.items x).keySz != key.length with
      | true =>
          have hfound : found s key x = false := by
            simp only [found, hsz, Bool.not_true, Bool.false_and]
          rw [hfound]
          simpa using hih
      | false =>
          cases hcmp : s.setup.keyCmp (s.items x) key key.length with
          | true =>
              have hfound : found s key x = true := by
                simp only [found, hsz, hcmp, Bool.not_false, Bool.and_self]
              rw [hfound]
              simp
          | false =>
              have hfound : found s key x = false := by
                simp only [found, hcmp, Bool.and_false]
              rw [hfound]
              simpa using hih

theorem find?_map_filter {κ : Type} {l : List (Nat × κ)} {P : Nat × κ → Bool} {q : Nat → Bool}
    {r : κ → Bool} (hq : ∀ e ∈ l, q e.1 = r e.2) (hP : ∀ e ∈ l, r e.2 = true → P e = true) :
    ((l.filter P).map Prod.fst).find? q = (l.find? fun e => r e.2).map Prod.fst := by
  induction l with
  | nil => rfl
  | cons e l ih =>
      obtain ⟨hqe, hql⟩ := forall_mem_cons.1 hq
      obtain ⟨hPe, hPl⟩ := forall_mem_cons.1 hP
      have hih := ih hql hPl
      rw [find?_cons]
      cases hr : r e.2 with
      | true =>
          rw [filter_cons_of_pos (hPe hr), map_cons, find?_cons, hqe, hr]
          rfl
      | false =>
          by_cases hPe' : P e = true
          · rw [filter_cons_of_pos hPe', map_cons, find?_cons, hqe, hr]
            exact hih
          · rw [filter_cons_of_neg hPe']
            exact hih

theorem found_eq (hcmp : s.setup.keyCmp = keyCmpFuncDefault) (hsz : s.setup.keyMatchSz = true)
    {k : List UInt8} (hptr : (s.items i).keyPtr = k) (hlen : (s.items i).keySz = k.length) :
    found s key i = (k == key) := by
  unfold found
  rw [hcmp, hsz, hlen, keyCmpFuncDefault, hptr, take_length, Bool.true_and]
  by_cases heq : k.length = key.length
  · rw [← heq, take_length, bne_self_eq_false, Bool.not_false, Bool.true_and]
  · have hne : k ≠ key := fun h => heq (congrArg _ h)
    have hlength : (k.length != key.length) = true := bne_iff_ne.2 heq
    rw [hlength, Bool.not_true, Bool.false_and, beq_false_of_ne hne]

theorem bucketWalk_ends (h : Shape p live s) (hcmp : p.keyCmp = keyCmpFuncDefault)
    (hsz : p.keyMatchSz = true) (ha : allocated s.arena (p.home key) = true)
    (hactive : (s.buckets (p.home key)).active = true) :
    Ends (bucketWalk (p.home key) key key.length) s
      (fun r t => t = s ∧ r = (live.find? fun e => e.2 == key).map Prod.fst) fun _ _ => False := by
  have hlist := (h.bucket _ ha hactive).2
  rw [bucketWalk, ends_bind, ends_bucket ha, ends_bind, ends_get, hlist.head]
  refine (bucketWalkLoop_ends hlist.chain (fun x hx => ?_)
    (Nat.le_trans length_chain_le h.added)).imp ?_
  · obtain ⟨k, hk, -⟩ := mem_chain.1 hx
    exact (h.items _ hk).2.2.2
  · rintro r t ⟨rfl, rfl⟩
    refine ⟨rfl, find?_map_filter (r := fun k => k == key) (fun e he => ?_) fun e _ hkey => ?_⟩
    · obtain ⟨-, hptr, hlen, -⟩ := h.items e he
      exact found_eq (h.setup ▸ hcmp) (h.setup ▸ hsz) hptr hlen
    · rw [eq_of_beq hkey]
      simp

/-! ### The operations -/

/-- A bucket is grabbed, and the others are as they were. -/
structure Grabbed (p : Setup) (live : List (Nat × List UInt8)) (id : Nat) (s t : HashTableV2) :
    Prop where
  shape : Shape p live t
  allocated : allocated t.arena id = true
  inUse : ∀ j, t.arena.inUse j = (decide (j = id) || s.arena.inUse j)
  buckets : ∀ j, s.arena.inUse j = true → t.buckets j = s.buckets j

theorem arenaGrabByID_ends (h : Shape p live s) (id : Nat) :
    Ends (arenaGrabByID id) s (fun _ t => Grabbed p live id s t) fun _ _ => False := by
  obtain ⟨a, hgrab, hwf, hcount, hinUse⟩ := h.wf.grabByID id
  have hinitial : 0 < s.arena.initial := by
    rw [h.initial]
    decide
  have hslots : s.arena.slotCount ≤ 500 := by
    rw [h.slotCount]
    decide
  obtain ⟨hroomy, hsame⟩ := h.roomy.grabByID hinitial hslots hgrab
  have halloc : ∀ j, HashTableV2.allocated a j =
      (HashTableV2.allocated s.arena j ||
        decide (j / s.arena.slotCount = id / s.arena.slotCount)) :=
    fun j => allocated_grab hgrab hcount
  simp only [arenaGrabByID, ends_bind, ends_get, hgrab, ends_set]
  refine ⟨⟨h.setup, hwf, hroomy, hcount.trans h.slotCount, hsame.trans h.initial,
    fun j hj hactive => ?_, h.items, h.free, h.nodup, h.added⟩, ?_, hinUse, fun j hj => ?_⟩
  · dsimp only at hj hactive ⊢
    split at hactive
    · cases hactive
    · rename_i hold
      rw [if_neg hold]
      refine h.bucket j ?_ hactive
      rw [halloc] at hj
      cases hblock : HashTableV2.allocated s.arena j with
      | true => rfl
      | false =>
          rw [hblock, Bool.false_or, decide_eq_true_eq] at hj
          refine (hold ?_).elim
          rw [HashTableV2.allocated, hj, Option.isSome_eq_false_iff] at hblock
          rw [hblock, hj, beq_self_eq_true, Bool.and_self]
  · change HashTableV2.allocated a id = true
    rw [halloc, decide_eq_true rfl, Bool.or_true]
  · dsimp only
    rw [if_neg]
    rw [Bool.and_eq_true, not_and]
    intro hfresh heq
    have hblock := allocated_of_inUse hj
    rw [HashTableV2.allocated, eq_of_beq heq, ← Option.not_isNone, hfresh] at hblock
    cases hblock

theorem Shape.ready (h : Shape p live s) (hnil : p.chain live id = []) :
    Shape p live { s with buckets := update s.buckets id ⟨.empty, id, true⟩ } where
  setup := h.setup
  wf := h.wf
  roomy := h.roomy
  slotCount := h.slotCount
  initial := h.initial
  bucket j hj hactive := by
    dsimp only at hactive ⊢
    by_cases hne : j = id
    · subst hne
      rw [update_self, hnil]
      exact ⟨rfl, isList_empty _⟩
    · rw [update_of_ne hne] at hactive ⊢
      exact h.bucket j hj hactive
  items := h.items
  free := h.free
  nodup := h.nodup
  added := h.added

theorem itemLink_ends (h : Shape p live s) (ha : allocated s.arena (p.home key) = true)
    (hactive : (s.buckets (p.home key)).active = true) (hi : i ∉ live.map Prod.fst) :
    Ends (itemLink (p.home key) i d key key.length) s
      (fun r t => r = true ∧ Shape p ((i, key) :: live) t ∧ t.arena = s.arena ∧
        ∀ j, (t.buckets j).active = (s.buckets j).active) fun _ _ => False := by
  obtain ⟨hid, hlist⟩ := h.bucket _ ha hactive
  have hout : ∀ j, i ∉ p.chain live j := by
    intro j hin
    obtain ⟨k, hk, -⟩ := mem_chain.1 hin
    exact hi (mem_map.2 ⟨_, hk, rfl⟩)
  have hlive : ∀ e ∈ live, e.1 ≠ i := by
    rintro e he rfl
    exact hi (mem_map_of_mem he)
  rw [itemLink, ends_bind, ends_bucket ha, ends_bind, ends_get, ends_bind, ends_setBucket ha]
  refine ⟨rfl, ⟨h.setup, h.wf, h.roomy, h.slotCount, h.initial, fun j hj hactive' => ?_,
    fun e he => ?_, fun x hx => ?_, ?_, Nat.succ_le_succ h.added⟩, rfl, fun j => ?_⟩
  · dsimp only at hactive' ⊢
    rw [chain_cons]
    by_cases hne : j = p.home key
    · subst hne
      rw [update_self, if_pos rfl]
      exact ⟨hid, hlist.add (hout _) _⟩
    · rw [update_of_ne hne] at hactive' ⊢
      rw [if_neg fun heq => hne heq.symm]
      obtain ⟨hidj, hlistj⟩ := h.bucket j hj hactive'
      refine ⟨hidj, hlistj.frame fun x hx => hlist.add_frame ?_⟩
      obtain ⟨k, hk, hhome⟩ := mem_chain.1 hx
      refine not_mem_cons_of_ne_of_not_mem (hlive _ hk) fun hin => hne ?_
      obtain ⟨k', hk', hhome'⟩ := mem_chain.1 hin
      rw [← hhome, ← hhome', h.key_eq hk hk']
  · dsimp only
    rcases mem_cons.1 he with rfl | he
    · rw [update_self]
      exact ⟨rfl, rfl, rfl, add_data.trans (if_pos rfl)⟩
    · obtain ⟨hbucket, hptr, hlen, hdata⟩ := h.items e he
      rw [update_of_ne (hlive e he)]
      exact ⟨hbucket, hptr, hlen, add_data.trans ((if_neg (hlive e he)).trans hdata)⟩
  · dsimp only
    rw [map_cons, mem_cons, not_or] at hx
    rw [update_of_ne hx.1]
    exact h.free x hx.2
  · rw [map_cons]
    exact nodup_cons.2 ⟨hi, h.nodup⟩
  · dsimp only
    by_cases hne : j = p.home key
    · subst hne
      rw [update_self]
    · rw [update_of_ne hne]

theorem Models.home (h : Models p live s) {e : Nat × List UInt8} (he : e ∈ live) :
    s.arena.inUse (p.home e.2) = true := (h.inUse _).2 ⟨e, he, rfl⟩

theorem Grabbed.active {t : HashTableV2} (h : Models p live s)
    (hgrab : Grabbed p live (p.home key) s t) {j : Nat} (hj : s.arena.inUse j = true) :
    (t.buckets j).active = true := by
  rw [hgrab.buckets j hj]
  exact h.active j hj

theorem link_models {t u : HashTableV2} (h : Models p live s)
    (hgrab : Grabbed p live (p.home key) s t) (hu : Shape p live u) (harena : u.arena = t.arena)
    (hbuckets : ∀ j, j ≠ p.home key → u.buckets j = t.buckets j)
    (hactive : (u.buckets (p.home key)).active = true) (hi : i ∉ live.map Prod.fst) :
    Ends (itemLink (p.home key) i d key key.length) u
      (fun r w => r = true ∧ Models p ((i, key) :: live) w) fun _ _ => False := by
  have halloc : allocated u.arena (p.home key) = true := harena ▸ hgrab.allocated
  refine (itemLink_ends hu halloc hactive hi).imp ?_
  rintro r w ⟨hr, hw, hwarena, hwactive⟩
  refine ⟨hr, hw, fun j => ?_, fun j hj => ?_⟩
  · rw [hwarena, harena, hgrab.inUse, Bool.or_eq_true, decide_eq_true_eq, h.inUse]
    simp only [mem_cons, exists_eq_or_imp, eq_comm]
  · rw [hwarena, harena, hgrab.inUse, Bool.or_eq_true, decide_eq_true_eq] at hj
    rw [hwactive]
    by_cases hne : j = p.home key
    · exact hne ▸ hactive
    · rw [hbuckets j hne]
      exact hgrab.active h (hj.resolve_left hne)

def Has (live : List (Nat × List UInt8)) (key : List UInt8) : Prop := key ∈ live.map Prod.snd

instance (live : List (Nat × List UInt8)) (key : List UInt8) : Decidable (Has live key) :=
  inferInstanceAs (Decidable (_ ∈ _))

theorem find_isSome_iff : (live.find? fun e => e.2 == key).isSome = true ↔ Has live key := by
  rw [find?_isSome, Has, mem_map]
  simp only [beq_iff_eq]

theorem itemAdd_rejects (h : Models p live s) (hcmp : p.keyCmp = keyCmpFuncDefault)
    (hsz : p.keyMatchSz = true) (hdup : p.itemCheckDup = true) (hkey : Has live key) :
    Ends (itemAdd i d key key.length) s (fun r t => r = false ∧ t = s) fun _ _ => False := by
  obtain ⟨e, he, rfl⟩ := mem_map.1 hkey
  have hin := h.home he
  have halloc := allocated_of_inUse hin
  have hactive := h.active _ hin
  have hsome := find_isSome_iff.2 hkey
  have hgrab := h.shape.wf.grabByID_eq_self h.shape.roomy hin
  have hfresh : (s.arena.data (p.home e.2 / s.arena.slotCount)).isNone = false := by
    rw [Option.isNone_eq_false_iff]
    exact halloc
  have hself : Ends (arenaGrabByID (p.home e.2)) s (fun _ t => t = s) fun _ _ => False := by
    simp only [arenaGrabByID, ends_bind, ends_get, hgrab, hfresh, Bool.false_and,
      Bool.false_eq_true, if_false, ends_set]
  rw [itemAdd, ends_bind, ends_get, ends_bind, h.shape.setup, ← Setup.home]
  refine hself.imp ?_
  rintro _ t rfl
  rw [ends_bind, ends_bucket halloc, hactive]
  simp only [Bool.not_true, Bool.false_eq_true, if_false, hdup, if_true, ends_bind]
  refine (bucketWalk_ends h.shape hcmp hsz halloc hactive).imp ?_
  rintro r t ⟨rfl, rfl⟩
  obtain ⟨e', he'⟩ := Option.isSome_iff_exists.1 hsome
  rw [he']
  exact ⟨rfl, rfl⟩

theorem itemAdd_ends (h : Models p live s) (hcmp : p.keyCmp = keyCmpFuncDefault)
    (hsz : p.keyMatchSz = true) (hi : i ∉ live.map Prod.fst)
    (hkey : p.itemCheckDup = true → ¬Has live key) :
    Ends (itemAdd i d key key.length) s
      (fun r t => r = true ∧ Models p ((i, key) :: live) t) fun _ _ => False := by
  rw [itemAdd, ends_bind, ends_get, ends_bind, h.shape.setup, ← Setup.home]
  refine (arenaGrabByID_ends h.shape (p.home key)).imp ?_
  intro _ t ht
  rw [ends_bind, ends_bucket ht.allocated]
  cases hactive : (t.buckets (p.home key)).active with
  | false =>
      have hfree : ¬s.arena.inUse (p.home key) = true := fun hin => by
        rw [ht.active h hin] at hactive
        cases hactive
      have hnil : p.chain live (p.home key) = [] :=
        chain_eq_nil.2 fun hex => hfree ((h.inUse _).2 hex)
      simp only [Bool.not_false, if_true]
      rw [ends_bind, ends_setBucket ht.allocated]
      exact link_models h ht (ht.shape.ready hnil) rfl (fun j hj => update_of_ne hj ..)
        (by simp only [update_self]) hi
  | true =>
      have hlink : Ends (itemLink (p.home key) i d key key.length) t
          (fun r w => r = true ∧ Models p ((i, key) :: live) w) fun _ _ => False :=
        link_models h ht ht.shape rfl (fun _ _ => rfl) hactive hi
      simp only [Bool.not_true, Bool.false_eq_true, if_false]
      cases hdup : p.itemCheckDup with
      | false =>
          simp only [Bool.false_eq_true, if_false]
          exact hlink
      | true =>
          have hnone : (live.find? fun e => e.2 == key) = none := by
            rw [← Option.not_isSome_iff_eq_none, find_isSome_iff]
            exact hkey hdup
          simp only [if_true, ends_bind]
          refine (bucketWalk_ends ht.shape hcmp hsz ht.allocated hactive).imp ?_
          rintro r u ⟨rfl, rfl⟩
          rw [hnone]
          exact hlink

theorem itemFind_ends (h : Models p live s) (hcmp : p.keyCmp = keyCmpFuncDefault)
    (hsz : p.keyMatchSz = true) :
    Ends (itemFind key key.length) s
      (fun r t => t = s ∧ r = (live.find? fun e => e.2 == key).map Prod.fst) fun _ _ => False := by
  rw [itemFind, ends_bind, ends_get, h.shape.setup, ← Setup.home]
  dsimp only
  rw [find_eq_inUse h.shape.roomy]
  cases hin : s.arena.inUse (p.home key) with
  | false =>
      have hnone : (live.find? fun e => e.2 == key) = none := by
        rw [find?_eq_none]
        rintro e he heq
        rw [← eq_of_beq heq, h.home he] at hin
        cases hin
      rw [hnone]
      exact ⟨rfl, rfl⟩
  | true =>
      have halloc := allocated_of_inUse hin
      have hactive := h.active _ hin
      have hlist := (h.shape.bucket _ halloc hactive).2
      have hhead : (s.buckets (p.home key)).list.head.isNone = false := by
        rw [Option.isNone_eq_false_iff, Option.isSome_iff_ne_none, ne_eq, hlist.head_none,
          chain_eq_nil, not_not]
        exact (h.inUse _).1 hin
      simp only [Bool.not_true, Bool.false_eq_true, if_false]
      rw [ends_bind, ends_bucket halloc]
      simp only [hhead, Bool.false_eq_true, if_false]
      exact bucketWalk_ends h.shape hcmp hsz halloc hactive

def without (live : List (Nat × List UInt8)) (i : Nat) : List (Nat × List UInt8) :=
  live.filter fun e => e.1 ≠ i

theorem mem_without {e : Nat × List UInt8} : e ∈ without live i ↔ e ∈ live ∧ e.1 ≠ i := by
  simp only [without, mem_filter, decide_eq_true_eq]

theorem without_eq_self (hi : i ∉ live.map Prod.fst) : without live i = live := by
  refine filter_eq_self.2 fun e he => decide_eq_true ?_
  rintro rfl
  exact hi (mem_map_of_mem he)

theorem chain_without (hnodup : (live.map Prod.fst).Nodup) :
    p.chain (without live i) id = (p.chain live id).erase i := by
  have hsub : (p.chain live id).Nodup := hnodup.sublist (filter_sublist.map _)
  rw [hsub.erase_eq_filter]
  simp only [Setup.chain, without, filter_map, filter_filter]
  congr 1
  refine filter_congr fun e _ => ?_
  rw [Bool.and_comm]
  congr 1
  by_cases he : e.1 = i <;> simp [he]

theorem Shape.unlinked (h : Shape p live s) {k : List UInt8} (hk : (i, k) ∈ live)
    (ha : allocated s.arena (p.home k) = true) (hactive : (s.buckets (p.home k)).active = true)
    {t : HashTableV2}
    (ht : t = { s with
      buckets := update s.buckets (p.home k) { s.buckets (p.home k) with
        list := (delete (s.buckets (p.home k)).list s.links i).1 }
      links := (delete (s.buckets (p.home k)).list s.links i).2
      items := update s.items i
        { s.items i with bucket := none, keyPtr := [], keySz := 0 } }) :
    Shape p (without live i) t := by
  obtain ⟨hid, hlist⟩ := h.bucket _ ha hactive
  have hin : i ∈ p.chain live (p.home k) := mem_chain.2 ⟨k, hk, rfl⟩
  have hdelete := hlist.delete hin
  rw [ht]
  refine ⟨h.setup, h.wf, h.roomy, h.slotCount, h.initial, fun j hj hactive' => ?_, fun e he => ?_,
    fun x hx => ?_, h.nodup.sublist (filter_sublist.map _),
    Nat.le_trans (length_filter_le ..) h.added⟩
  · dsimp only at hactive' ⊢
    rw [chain_without h.nodup]
    by_cases hne : j = p.home k
    · subst hne
      rw [update_self]
      exact ⟨hid, hdelete⟩
    · rw [update_of_ne hne] at hactive' ⊢
      obtain ⟨hidj, hlistj⟩ := h.bucket j hj hactive'
      have hout : ∀ x ∈ p.chain live j, x ∉ p.chain live (p.home k) := by
        intro x hx hx'
        obtain ⟨k₁, hk₁, hhome₁⟩ := mem_chain.1 hx
        obtain ⟨k₂, hk₂, hhome₂⟩ := mem_chain.1 hx'
        apply hne
        rw [← hhome₁, ← hhome₂, h.key_eq hk₁ hk₂]
      rw [erase_of_not_mem fun hx => hout i hx hin, hlist.delete_eq hin]
      exact ⟨hidj, hlistj.frame fun x hx => hlist.unlink_frame hin (hout x hx)⟩
  · obtain ⟨he, hne⟩ := mem_without.1 he
    obtain ⟨hbucket, hptr, hlen, hdata⟩ := h.items e he
    dsimp only
    rw [update_of_ne hne, hlist.delete_eq hin, unlink_data]
    exact ⟨hbucket, hptr, hlen, hdata⟩
  · dsimp only
    by_cases hne : x = i
    · subst hne
      rw [update_self]
    · rw [update_of_ne hne]
      refine h.free x fun hx' => hx ?_
      obtain ⟨e, he, rfl⟩ := mem_map.1 hx'
      exact mem_map_of_mem (mem_without.2 ⟨he, hne⟩)

theorem Shape.release (h : Shape p live s) {a : MemArena}
    (hrelease : s.arena.releaseByID id = .ok a) (hwf : a.WF)
    (hcount : a.slotCount = s.arena.slotCount) : Shape p live { s with arena := a } where
  setup := h.setup
  wf := hwf
  roomy := (h.roomy.releaseByID hrelease).1
  slotCount := hcount.trans h.slotCount
  initial := (h.roomy.releaseByID hrelease).2.trans h.initial
  bucket j hj hactive := h.bucket j (allocated_release hrelease hcount hj) hactive
  items := h.items
  free := h.free
  nodup := h.nodup
  added := h.added

theorem exists_without_iff (h : Shape p live s) {k : List UInt8} (hk : (i, k) ∈ live) {j : Nat}
    (hne : j ≠ p.home k) :
    (∃ e ∈ without live i, p.home e.2 = j) ↔ ∃ e ∈ live, p.home e.2 = j := by
  constructor
  · rintro ⟨e, he, hhome⟩
    exact ⟨e, (mem_without.1 he).1, hhome⟩
  · rintro ⟨⟨x, k'⟩, he, hhome⟩
    refine ⟨(x, k'), mem_without.2 ⟨he, ?_⟩, hhome⟩
    rintro rfl
    exact hne (hhome.symm.trans (congrArg p.home (h.key_eq he hk)))

theorem itemDel_ends (h : Models p live s) (i : Nat) :
    Ends (itemDel i) s
      (fun r t => r = decide (i ∈ live.map Prod.fst) ∧ Models p (without live i) t)
      fun _ _ => False := by
  rw [itemDel, ends_bind, ends_get]
  by_cases hi : i ∈ live.map Prod.fst
  · obtain ⟨k, hk⟩ : ∃ k, (i, k) ∈ live := by
      obtain ⟨⟨_, k⟩, hk, rfl⟩ := mem_map.1 hi
      exact ⟨k, hk⟩
    have hin := h.home hk
    have halloc := allocated_of_inUse hin
    have hactive := h.active _ hin
    have hid := (h.shape.bucket _ halloc hactive).1
    have hunlinked := h.shape.unlinked hk halloc hactive rfl
    have hlist := (hunlinked.bucket (p.home k) halloc (by
      simp only [update_self, hactive])).2
    simp only [update_self] at hlist
    rw [(h.shape.items _ hk).1, decide_eq_true hi]
    simp only [ends_bind, ends_bucket halloc, ends_setBucket halloc, ends_modify]
    rw [ends_bucket (by exact halloc)]
    simp only [update_self, Option.isNone_iff_eq_none, hlist.head_none]
    by_cases hnil : p.chain (without live i) (p.home k) = []
    · -- the last item of the bucket
      have hown : s.arena.inUse (s.buckets (p.home k)).id = true := by
        rw [hid]
        exact hin
      obtain ⟨a, hrelease, hwf, hcount, hinUse⟩ := h.shape.wf.releaseByID hown
      rw [hid] at hinUse
      simp only [hnil, if_true, arenaReleaseByID, ends_bind, ends_get, hrelease, ends_set,
        ends_pure]
      refine ⟨trivial, hunlinked.release hrelease hwf hcount, fun j => ?_, fun j hj => ?_⟩
      · rw [hinUse, Bool.and_eq_true, decide_eq_true_eq, h.inUse]
        by_cases hne : j = p.home k
        · subst hne
          exact iff_of_false (fun hj => hj.1 rfl) (chain_eq_nil.1 hnil)
        · rw [exists_without_iff h.shape hk hne]
          exact and_iff_right hne
      · rw [hinUse, Bool.and_eq_true, decide_eq_true_eq] at hj
        dsimp only
        rw [update_of_ne hj.1]
        exact h.active j hj.2
    · simp only [hnil, if_false]
      refine ⟨rfl, hunlinked, fun j => ?_, fun j hj => ?_⟩
      · rw [h.inUse]
        by_cases hne : j = p.home k
        · subst hne
          exact iff_of_true ⟨_, hk, rfl⟩ (not_not.1 fun hno => hnil (chain_eq_nil.2 hno))
        · exact (exists_without_iff h.shape hk hne).symm
      · dsimp only
        by_cases hne : j = p.home k
        · subst hne
          rw [update_self]
          exact hactive
        · rw [update_of_ne hne]
          exact h.active j hj
  · rw [h.shape.free i hi, without_eq_self hi, decide_eq_false hi]
    exact ⟨rfl, h⟩

end Steps

/-! ## Runs -/

/-- The items that are live after an operation, the last added first. -/
def Op.spec (p : Setup) (live : List (Nat × List UInt8)) : Op → List (Nat × List UInt8)
  | .add hashItem _ key =>
      if p.itemCheckDup = true ∧ Has live key then live else (hashItem, key) :: live
  | .del hashItem => without live hashItem
  | .find _ => live

def Op.Unlinked (p : Setup) (live : List (Nat × List UInt8)) : Op → Prop
  | .add hashItem _ key => hashItem ∉ live.map Prod.fst ∨ p.itemCheckDup = true ∧ Has live key
  | .del _ | .find _ => True

instance (p : Setup) (live : List (Nat × List UInt8)) (o : Op) : Decidable (o.Unlinked p live) := by
  unfold Op.Unlinked
  cases o <;> infer_instance

/-- The table is the map of the live items: a look-up finds the item with its key that was
added last; with the check for duplicates the keys are different, and an item whose key
is there changes nothing; and the arena has the buckets that have items. -/
structure IsMap (p : Setup) (live : List (Nat × List UInt8)) (c : Config Fault HashTableV2) :
    Prop where
  fault : c.fault = none
  find : ∀ key, Ends (itemFind key key.length) c.state
    (fun r t => t = c.state ∧ r = (live.find? fun e => e.2 == key).map Prod.fst) fun _ _ => False
  distinct : p.itemCheckDup = true → (live.map Prod.snd).Nodup
  rejects : p.itemCheckDup = true → ∀ i d key, Has live key →
    Ends (itemAdd i d key key.length) c.state (fun r t => r = false ∧ t = c.state)
      fun _ _ => False
  arena : ∀ id, c.state.arena.inUse id = true ↔ ∃ e ∈ live, p.home e.2 = id

section Runs

variable {p : Setup} {live : List (Nat × List UInt8)} {s : HashTableV2}

/-- The live items, with different keys where duplicates are checked for. -/
def Keeps (p : Setup) (live : List (Nat × List UInt8)) (s : HashTableV2) : Prop :=
  Models p live s ∧ (p.itemCheckDup = true → (live.map Prod.snd).Nodup)

theorem handle_keeps (hcmp : p.keyCmp = keyCmpFuncDefault) (hsz : p.keyMatchSz = true) (o : Op)
    (h : Keeps p live s) (ho : o.Unlinked p live) :
    Ends (handle o) s (fun _ => Keeps p (o.spec p live)) fun _ _ => False := by
  obtain ⟨hmodels, hkeys⟩ := h
  cases o with
  | add i d key =>
      rw [handle, ends_bind]
      by_cases hreject : p.itemCheckDup = true ∧ Has live key
      · rw [Op.spec, if_pos hreject]
        refine (itemAdd_rejects hmodels hcmp hsz hreject.1 hreject.2).imp ?_
        rintro r t ⟨-, rfl⟩
        exact ⟨hmodels, hkeys⟩
      · rw [Op.spec, if_neg hreject]
        have hnew : p.itemCheckDup = true → ¬Has live key := fun hdup hkey => hreject ⟨hdup, hkey⟩
        refine (itemAdd_ends hmodels hcmp hsz (ho.resolve_right hreject) hnew).imp ?_
        rintro r t ⟨-, ht⟩
        refine ⟨ht, fun hdup => ?_⟩
        rw [map_cons]
        exact nodup_cons.2 ⟨hnew hdup, hkeys hdup⟩
  | del i =>
      rw [handle, ends_bind]
      refine (itemDel_ends hmodels i).imp ?_
      rintro r t ⟨-, ht⟩
      exact ⟨ht, fun hdup => (hkeys hdup).sublist (filter_sublist.map _)⟩
  | find key =>
      rw [handle, ends_bind]
      refine (itemFind_ends hmodels hcmp hsz).imp ?_
      rintro r t ⟨rfl, -⟩
      exact ⟨hmodels, hkeys⟩

theorem Keeps.isMap (hcmp : p.keyCmp = keyCmpFuncDefault) (hsz : p.keyMatchSz = true)
    (h : Keeps p live s) : IsMap p live (.live s) where
  fault := rfl
  find _ := itemFind_ends h.1 hcmp hsz
  distinct := h.2
  rejects hdup _ _ _ hkey := itemAdd_rejects h.1 hcmp hsz hdup hkey
  arena := h.1.inUse

theorem new_eq {config : HashTableConfig} (hnew : new (some config) = some s) :
    s.arena = .new 128 16 ∧ s.buckets = (fun _ => .zero) ∧ s.items = (fun _ => .zero) ∧
      s.setup.keyCmp = config.keyCmp.getD keyCmpFuncDefault ∧
      s.setup.keyMatchSz = config.keyMatchSz ∧ s.setup.itemCheckDup = config.itemCheckDup := by
  rw [new, Option.map_eq_some_iff] at hnew
  obtain ⟨hash, -, rfl⟩ := hnew
  exact ⟨rfl, rfl, rfl, rfl, rfl, rfl⟩

theorem keeps_new {config : HashTableConfig} (hnew : new (some config) = some s) :
    Keeps s.setup [] s := by
  obtain ⟨harena, hbuckets, hitems, -⟩ := new_eq hnew
  refine ⟨⟨⟨rfl, ?_, ?_, ?_, ?_, fun id hid _ => ?_, nofun, fun i _ => ?_, nodup_nil,
    Nat.zero_le _⟩, fun id => ?_, fun id hid => ?_⟩, fun _ => nodup_nil⟩
  · rw [harena]
    exact MemArena.wf_new _ (by decide)
  · rw [harena]
    exact MemArena.roomy_new _ _
  · rw [harena]
    rfl
  · rw [harena]
    rfl
  · rw [harena] at hid
    cases hid
  · rw [hitems]
    rfl
  · rw [harena]
    exact iff_of_false nofun nofun
  · rw [harena] at hid
    cases hid

theorem run_keeps (config : HashTableConfig) (hcmp : config.keyCmp = none)
    (hsz : config.keyMatchSz = true) (hnew : new (some config) = some s) (ops : List Op)
    (hops : Allowed (Op.spec s.setup) (Op.Unlinked s.setup) [] ops) :
    Holds (Keeps s.setup (ops.foldl (Op.spec s.setup) [])) (fun _ _ => False)
      (run handle (.live s) ops) := by
  obtain ⟨-, -, -, hcmp', hsz', -⟩ := new_eq hnew
  rw [hcmp, Option.getD_none] at hcmp'
  rw [hsz] at hsz'
  exact refines_run (P := fun live _ o => Op.Unlinked s.setup live o) (c := .live s)
    (fun o live t h ho => handle_keeps hcmp' hsz' o h ho) (keeps_new hnew) ops hops.meetsAlong

/-- **The table is a map.**  With the default comparison and the check of the sizes, after
any operations that link no item twice, the table is the map of the live items. -/
theorem table_isMap (config : HashTableConfig) (hcmp : config.keyCmp = none)
    (hsz : config.keyMatchSz = true) (hnew : new (some config) = some s) (ops : List Op)
    (hops : Allowed (Op.spec s.setup) (Op.Unlinked s.setup) [] ops) :
    IsMap s.setup (ops.foldl (Op.spec s.setup) []) (run handle (.live s) ops) := by
  obtain ⟨-, -, -, hcmp', hsz', -⟩ := new_eq hnew
  rw [hcmp, Option.getD_none] at hcmp'
  rw [hsz] at hsz'
  have hrun := run_keeps config hcmp hsz hnew ops hops
  have hmap := hrun.safe.2.isMap hcmp' hsz'
  have hnone := hrun.safe.1
  generalize run handle (.live s) ops = c at hmap hnone
  cases c
  cases hnone
  exact hmap

/-- Three items, of which one is rejected and one taken out and added under another key. -/
def threeItems : List Op :=
  [.add 1 none [97], .add 2 none [98], .add 3 none [97], .find [97], .del 1, .find [97], .del 3,
    .add 1 none [99], .del 2]

def threeItemsConfig : HashTableConfig where
  hashfuncCode := 2
  maxBuckets := 7
  hash := none
  keyCmp := none
  keyMatchSz := true
  itemCheckDup := true

theorem table_isMap_threeItems :
    IsMap ((new (some threeItemsConfig)).get rfl).setup
      (threeItems.foldl (Op.spec ((new (some threeItemsConfig)).get rfl).setup) [])
      (run handle (.live ((new (some threeItemsConfig)).get rfl)) threeItems) :=
  table_isMap threeItemsConfig rfl rfl rfl threeItems (by decide)

end Runs

end HashTableV2

end BrbData
