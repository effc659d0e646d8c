import BrbFramework.Data.HashTable
import BrbFramework.Lib.LittleEndian
import Mathlib.Algebra.GroupWithZero.Nat

/-!
# The hash functions of `BRBHashTable`

A hash function is given a pointer. Some read a string there, one takes the
pointer for a number, and `HashTableMurMurHash` reads 32 bytes whatever is there
and also hashes the pointer. All but that one end with a remainder; it ends with
a mixing step that reaches every value, which is shown for the largest.
-/

namespace BrbData

open Handler List Function

/-- What a pointer to a key leads to: a string, its zero, and the memory behind it. -/
structure KeyPointer where
  addr : UInt64
  str : CString
  behind : Nat → UInt8

namespace KeyPointer

def byte (data : KeyPointer) (i : Nat) : UInt8 :=
  if i < data.str.1.length then data.str.1.getD i 0
  else if i = data.str.1.length then 0
  else data.behind (i - data.str.1.length - 1)

/-- An `unsigned int` of an array of them. -/
def chunk (data : KeyPointer) (i : Nat) : UInt32 :=
  UInt32.ofNat (LittleEndian.toNat ((List.range 4).map fun j => data.byte (4 * i + j)))

end KeyPointer

namespace HashTable

/-- A signed `char`, converted to an `unsigned int`. -/
def charValue (s : UInt8) : UInt32 := s.toInt8.toInt32.toUInt32

/-- `HashTableLongNumberHash`. -/
def longNumberHash (data : KeyPointer) (size : UInt32) : UInt32 :=
  let key := data.addr
  let seed := key / size.toUInt64
  (key ^^^ (seed * 271)).toUInt32 % size

/-- `(k << r) | (k >> (32 - r))`. -/
def rotl (k r : UInt32) : UInt32 := (k <<< r) ||| (k >>> (32 - r))

/-- A turn of the loop of `HashTableMurMurHash`. -/
def murMurStep (h k : UInt32) : UInt32 :=
  let k := k * 0xcc9e2d51
  let k := rotl k 15
  let k := k * 0x1b873593
  let h := h ^^^ k
  let h := rotl h 13
  h * 5 + 0xe6546b64

/-- The end of `HashTableMurMurHash`, where `sizeof(long)` leaves no remainder. -/
def murMurEnd (h : UInt32) : UInt32 :=
  let h := h ^^^ 8
  let h := h ^^^ (h >>> 16)
  let h := h * 0x85ebca6b
  let h := h ^^^ (h >>> 13)
  let h := h * 0xc2b2ae35
  h ^^^ (h >>> 16)

/-- `HashTableMurMurHash`. -/
def murMurHash (data : KeyPointer) (size : UInt32) : UInt32 :=
  let h := (data.addr / size.toUInt64).toUInt32
  murMurEnd ((List.range 8).foldl (fun h i => murMurStep h (data.chunk i)) h)

/-- `HASH4`. -/
def hash4Step (h : UInt32) (s : UInt8) : UInt32 := (h <<< 5) + h + charValue s

/-- The loop of `HashTableHash4`. -/
def hash4Loop : Nat → UInt32 → List UInt8 → UInt32
  | 0, h, _ => h
  | loop + 1, h, key => hash4Loop loop ((key.take 8).foldl hash4Step h) (key.drop 8)

/-- `HashTableHash4`. -/
def hash4 (data : KeyPointer) (size : UInt32) : UInt32 :=
  let key := data.str.1
  let len := key.length
  let h := (key.take (len % 8)).foldl hash4Step 0
  hash4Loop (len / 8) h (key.drop (len % 8)) % size

/-- `HashTableURLHash`, which counts with `unsigned int`. -/
def urlHash (data : KeyPointer) (size : UInt32) : UInt32 :=
  let s := data.str.1
  let j := UInt32.ofNat s.length
  let n := ((s.take j.toNat).drop (j.toNat / 2)).foldl (fun n s => n ^^^ (271 * charValue s)) 0
  (n ^^^ (j * 271)) % size

inductive HashFunc
  | longNumber
  | murMur
  | string
  | hash4
  | url
  deriving DecidableEq, Repr

def HashFunc.hash : HashFunc → KeyPointer → UInt32 → UInt32
  | .longNumber => longNumberHash
  | .murMur => murMurHash
  | .string => fun data => stringHash data.str
  | .hash4 => HashTable.hash4
  | .url => urlHash

/-! ## The largest value -/

theorem rotate_bits (x : BitVec 32) {r l : Nat} (hr : r < 32) (hsum : r + l = 32) :
    (x <<< l ||| x >>> r) <<< r ||| (x <<< l ||| x >>> r) >>> l = x := by
  apply BitVec.eq_of_getLsbD_eq
  intro i hi
  have hpast : x.getLsbD (r + (l + i)) = false := BitVec.getLsbD_of_ge x _ (by omega)
  simp only [BitVec.getLsbD_or, BitVec.getLsbD_shiftLeft, BitVec.getLsbD_ushiftRight, hi,
    decide_true, Bool.true_and]
  by_cases hlow : i < r
  · have hin : l + i < 32 := by omega
    have hsame : l + i - l = i := by omega
    simp [hlow, hin, hsame, hpast]
  · have hin : i - r < 32 := by omega
    have hleft : i - r < l := by omega
    have hsame : r + (i - r) = i := by omega
    have hout : ¬ l + i < 32 := by omega
    simp [hlow, hin, hleft, hsame, hout, hpast]

theorem rotl_rotl_17 (x : UInt32) : rotl (rotl x 17) 15 = x := by
  apply UInt32.toBitVec_inj.mp
  simp only [rotl, UInt32.toBitVec_or, UInt32.toBitVec_shiftLeft, UInt32.toBitVec_shiftRight]
  exact rotate_bits x.toBitVec (r := 15) (l := 17) (by decide) (by decide)

/-- Whatever was hashed before, the last chunk can make the hash anything that a multiplication
and a rotation reach. -/
theorem murMurStep_surjective (h e : UInt32) :
    ∃ k, murMurStep h k = rotl e 13 * 5 + 0xe6546b64 := by
  have hmul : ∀ x : UInt32, x * 0x56ed309b * 0x1b873593 = x := by
    intro x
    rw [UInt32.mul_assoc, show (0x56ed309b : UInt32) * 0x1b873593 = 1 by decide, UInt32.mul_one]
  have hmul' : ∀ x : UInt32, x * 0xdee13bb1 * 0xcc9e2d51 = x := by
    intro x
    rw [UInt32.mul_assoc, show (0xdee13bb1 : UInt32) * 0xcc9e2d51 = 1 by decide, UInt32.mul_one]
  have hxor : h ^^^ (h ^^^ e) = e := by
    rw [← UInt32.xor_assoc, UInt32.xor_self, UInt32.zero_xor]
  refine ⟨rotl ((h ^^^ e) * 0x56ed309b) 17 * 0xdee13bb1, ?_⟩
  rw [murMurStep, hmul', rotl_rotl_17, hmul, hxor]

theorem murMurEnd_largest : murMurEnd (rotl 0x21da1475 13 * 5 + 0xe6546b64) = 0xffffffff := by
  decide

/-- An empty string before 27 zeros and the bytes of a number. -/
def keyEnding (k : UInt32) : KeyPointer where
  addr := 4096
  str := ⟨[], List.not_mem_nil⟩
  behind := fun i => if i < 27 then 0 else (LittleEndian.ofNat 4 k.toNat).getD (i - 27) 0

theorem chunk_keyEnding (k : UInt32) : (keyEnding k).chunk 7 = k := by
  have hbytes : ((List.range 4).map fun j => (keyEnding k).byte (4 * 7 + j)) =
      LittleEndian.ofNat 4 k.toNat := rfl
  have hlt : k.toNat < 256 ^ 4 := k.toNat_lt
  rw [KeyPointer.chunk, hbytes, LittleEndian.toNat_ofNat, Nat.mod_eq_of_lt hlt]
  exact UInt32.ofNat_toNat

theorem chunk_keyEnding_of_lt (k : UInt32) {i : Nat} (hi : i < 7) : (keyEnding k).chunk i = 0 := by
  have hzero : ∀ j < 28, (keyEnding k).byte j = 0 := by
    intro j hj
    have hbefore : j - 1 < 27 := by omega
    simp [KeyPointer.byte, keyEnding, hbefore]
  have hbytes : ((List.range 4).map fun j => (keyEnding k).byte (4 * i + j)) =
      List.replicate 4 0 := by
    rw [eq_replicate_iff]
    refine ⟨rfl, ?_⟩
    intro b hb
    obtain ⟨j, hj, rfl⟩ := mem_map.mp hb
    rw [mem_range] at hj
    exact hzero _ (by omega)
  rw [KeyPointer.chunk, hbytes]
  rfl

theorem murMurHash_largest (size : UInt32) :
    ∃ data, murMurHash data size = 0xffffffff := by
  have hbefore : ∀ k : UInt32, ∀ h : UInt32,
      (List.range 8).foldl (fun h i => murMurStep h ((keyEnding k).chunk i)) h =
        murMurStep ((List.range 7).foldl (fun h _ => murMurStep h 0) h) k := by
    intro k h
    have hzeros : (List.range 7).foldl (fun h i => murMurStep h ((keyEnding k).chunk i)) h =
        (List.range 7).foldl (fun h _ => murMurStep h 0) h := by
      apply foldl_ext
      intro h i hi
      rw [chunk_keyEnding_of_lt k (mem_range.mp hi)]
    rw [range_succ, foldl_append, foldl_cons, foldl_nil, chunk_keyEnding,
      hzeros]
  obtain ⟨k, hk⟩ := murMurStep_surjective
    ((List.range 7).foldl (fun h _ => murMurStep h 0) ((4096 : UInt64) / size.toUInt64).toUInt32)
    0x21da1475
  refine ⟨keyEnding k, ?_⟩
  rw [murMurHash, hbefore]
  exact (congrArg murMurEnd hk).trans murMurEnd_largest

/-! ## Buckets -/

/-- The handler keeps the size and the hash function of a table, and misses none of its buckets. -/
def StaysInside {α : Type} (hash : CString → UInt32 → UInt32) (size : UInt32) (x : M α) : Prop :=
  ∀ t : BRBHashTable, t.hash = hash → t.size = size →
    Ends x t (fun _ u => u.hash = hash ∧ u.size = size) fun f _ => f ≠ .outOfBounds

/-- The operations of a table miss none of its buckets. -/
structure IndexesInside (hash : CString → UInt32 → UInt32) (size : UInt32) : Prop where
  addItem : ∀ k item, StaysInside hash size (addItem k item)
  lookup : ∀ k, StaysInside hash size (lookup k)
  removeItem : ∀ hl freeLink, StaysInside hash size (removeItem hl freeLink)

section StaysInside

variable {α β : Type} {hash : CString → UInt32 → UInt32} {size : UInt32}

theorem StaysInside.bind {x : M α} {f : α → M β} (hx : StaysInside hash size x)
    (hf : ∀ a, StaysInside hash size (f a)) : StaysInside hash size (x >>= f) := by
  intro t hhash hsize
  rw [ends_bind]
  apply (hx t hhash hsize).imp
  intro a u hu
  exact hf a u hu.1 hu.2

theorem staysInside_pure (a : α) : StaysInside hash size (pure a : M α) := by
  intro t hhash hsize
  exact ⟨hhash, hsize⟩

theorem staysInside_throw {f : Fault} (hf : f ≠ .outOfBounds) :
    StaysInside hash size (throw f : M α) := by
  intro t _ _
  exact hf

theorem staysInside_get_bind {f : BRBHashTable → M β}
    (hf : ∀ t, t.hash = hash → t.size = size → StaysInside hash size (f t)) :
    StaysInside hash size (get >>= f) := by
  intro t hhash hsize
  rw [ends_bind, ends_get]
  exact hf t hhash hsize t hhash hsize

theorem staysInside_modify {f : BRBHashTable → BRBHashTable}
    (hf : ∀ t, (f t).hash = t.hash ∧ (f t).size = t.size) :
    StaysInside hash size (modify f : M PUnit) := by
  intro t hhash hsize
  rw [ends_modify, (hf t).1, (hf t).2]
  exact ⟨hhash, hsize⟩

theorem staysInside_set {t : BRBHashTable} (hhash : t.hash = hash) (hsize : t.size = size) :
    StaysInside hash size (set t : M PUnit) := by
  intro _ _ _
  exact ⟨hhash, hsize⟩

theorem StaysInside.ite {c : Prop} [Decidable c] {x y : M α} (hx : StaysInside hash size x)
    (hy : StaysInside hash size y) : StaysInside hash size (if c then x else y) := by
  split
  · exact hx
  · exact hy

theorem staysInside_item (ptr : Nat) : StaysInside hash size (item ptr) := by
  apply staysInside_get_bind
  intro t _ _
  cases t.items ptr with
  | none => exact staysInside_throw (by decide)
  | some l => exact staysInside_pure l

theorem staysInside_modifyItem (ptr : Nat) (f : BRBHashTableItem → BRBHashTableItem) :
    StaysInside hash size (modifyItem ptr f) := by
  apply (staysInside_item ptr).bind
  intro l
  apply staysInside_modify
  intro t
  exact ⟨rfl, rfl⟩

theorem staysInside_string (ptr : Option Nat) : StaysInside hash size (string ptr) := by
  cases ptr with
  | none => exact staysInside_throw (by decide)
  | some p =>
      apply staysInside_get_bind
      intro t _ _
      cases t.strings p with
      | none => exact staysInside_throw (by decide)
      | some k => exact staysInside_pure k

theorem staysInside_bucket {i : Nat} (hi : i < size.toNat) :
    StaysInside hash size (bucket i) := by
  apply staysInside_get_bind
  intro t _ hsize
  rw [if_neg (by rw [hsize]; omega)]
  exact staysInside_pure _

theorem staysInside_setBucket {i : Nat} (hi : i < size.toNat) (p : Option Nat) :
    StaysInside hash size (setBucket i p) := by
  apply staysInside_get_bind
  intro t hhash hsize
  rw [if_neg (by rw [hsize]; omega)]
  exact staysInside_set hhash hsize

theorem staysInside_lookupLoop (k : CString) (n : Nat) (walker : Option Nat) :
    StaysInside hash size (lookupLoop k n walker) := by
  induction n generalizing walker with
  | zero =>
      cases walker with
      | none => exact staysInside_pure none
      | some ptr => exact staysInside_throw (by decide)
  | succ n ih =>
      cases walker with
      | none => exact staysInside_pure none
      | some ptr =>
          apply (staysInside_item ptr).bind
          intro l
          apply StaysInside.ite (staysInside_pure none)
          apply staysInside_get_bind
          intro t _ _
          apply (staysInside_string l.key).bind
          intro k'
          exact StaysInside.ite (staysInside_pure _) (ih l.next)

theorem staysInside_nextBucket (n : Nat) : StaysInside hash size (nextBucket n) := by
  induction n with
  | zero => exact staysInside_pure PUnit.unit
  | succ n ih =>
      apply staysInside_get_bind
      intro t hhash hsize
      apply StaysInside.ite (staysInside_pure PUnit.unit)
      apply (staysInside_set (t := { t with currentSlot := t.currentSlot + 1 }) hhash hsize).bind
      intro _
      apply StaysInside.ite _ (staysInside_pure PUnit.unit)
      apply StaysInside.bind _ fun _ => ih
      apply staysInside_modify
      intro t
      exact ⟨rfl, rfl⟩

def Link.Inside (size : UInt32) : Link → Prop
  | .bucket i => i < size.toNat
  | .next _ => True

theorem staysInside_removeLoop (hl : Nat) (freeLink : Bool) (n : Nat) {P : Link}
    (hP : P.Inside size) : StaysInside hash size (removeLoop hl freeLink n P) := by
  have hread : ∀ {P : Link}, P.Inside size → StaysInside hash size P.read := by
    intro P hP
    cases P with
    | bucket i => exact staysInside_bucket hP
    | next ptr => exact (staysInside_item ptr).bind fun l => staysInside_pure l.next
  have hwrite : ∀ {P : Link} (p : Option Nat), P.Inside size →
      StaysInside hash size (P.write p) := by
    intro P p hP
    cases P with
    | bucket i => exact staysInside_setBucket hP p
    | next ptr => exact staysInside_modifyItem ptr _
  have hfound : ∀ {P : Link}, P.Inside size → StaysInside hash size (do
      let l ← item hl
      P.write l.next
      let hid ← get
      if hid.next = some hl then
        set { hid with next := l.next }
        if l.next.isNone then
          nextBucket hid.size.toNat
      if freeLink then
        modify fun hid => { hid with items := update hid.items hl none }
      modify fun hid => { hid with count := hid.count - 1 }
      return true) := by
    intro P hP
    have hcount : StaysInside hash size (do
        modify fun hid => { hid with count := hid.count - 1 }
        return true) := by
      apply StaysInside.bind _ fun _ => staysInside_pure true
      apply staysInside_modify
      intro t
      exact ⟨rfl, rfl⟩
    have hfree : StaysInside hash size (do
        if freeLink then
          modify fun hid => { hid with items := update hid.items hl none }
        modify fun hid => { hid with count := hid.count - 1 }
        return true) := by
      apply StaysInside.ite _ hcount
      apply StaysInside.bind _ fun _ => hcount
      apply staysInside_modify
      intro t
      exact ⟨rfl, rfl⟩
    apply (staysInside_item hl).bind
    intro l
    apply (hwrite l.next hP).bind
    intro _
    apply staysInside_get_bind
    intro t hhash hsize
    apply StaysInside.ite _ hfree
    apply (staysInside_set (t := { t with next := l.next }) hhash hsize).bind
    intro _
    apply StaysInside.ite _ hfree
    exact (staysInside_nextBucket _).bind fun _ => hfree
  induction n generalizing P with
  | zero =>
      rw [removeLoop]
      apply (hread hP).bind
      intro r
      cases r with
      | none => exact staysInside_pure false
      | some ptr => exact StaysInside.ite (staysInside_throw (by decide)) (hfound hP)
  | succ n ih =>
      rw [removeLoop]
      apply (hread hP).bind
      intro r
      cases r with
      | none => exact staysInside_pure false
      | some ptr => exact StaysInside.ite (ih (P := .next ptr) trivial) (hfound hP)

theorem indexesInside (hin : ∀ k, (hash k size).toNat < size.toNat) : IndexesInside hash size where
  addItem := by
    intro k value
    apply staysInside_get_bind
    intro t hhash hsize
    subst hhash hsize
    apply (staysInside_set (t := { t with
      items := update t.items t.made (some { key := k, next := none, item := value })
      made := t.made + 1 }) rfl rfl).bind
    intro _
    apply (staysInside_string k).bind
    intro k'
    apply (staysInside_bucket (hin k')).bind
    intro head
    apply (staysInside_modifyItem _ _).bind
    intro _
    apply (staysInside_setBucket (hin k') _).bind
    intro _
    apply StaysInside.bind _ fun _ => staysInside_pure _
    apply staysInside_modify
    intro u
    exact ⟨rfl, rfl⟩
  lookup := by
    intro k
    apply staysInside_get_bind
    intro t hhash hsize
    rw [hhash, hsize]
    apply (staysInside_bucket (hin k)).bind
    intro head
    exact staysInside_lookupLoop k t.made head
  removeItem := by
    intro hl freeLink
    apply (staysInside_item hl).bind
    intro l
    apply staysInside_get_bind
    intro t hhash hsize
    rw [hhash, hsize]
    apply (staysInside_string l.key).bind
    intro k
    exact staysInside_removeLoop hl freeLink t.made (P := .bucket _) (hin k)

end StaysInside

/-! ## The hash functions -/

theorem mod_size_lt (h : UInt32) {size : UInt32} (hsize : 0 < size.toNat) :
    (h % size).toNat < size.toNat := by
  rw [UInt32.toNat_mod]
  exact Nat.mod_lt _ hsize

/-- **Hashes in range.**  For every size of the table, exactly the hash functions other than
`HashTableMurMurHash` give each key the index of a bucket, so that an item is added, looked up
and removed inside the bounds of the buckets. -/
theorem hash_lt_iff (f : HashFunc) (size : UInt32) (hsize : 1 ≤ size.toNat) :
    ((∀ data, (f.hash data size).toNat < size.toNat) ∧
        ∀ place : CString → KeyPointer, (∀ k, (place k).str = k) →
          IndexesInside (fun k n => f.hash (place k) n) size) ↔
      f ≠ .murMur := by
  constructor
  · intro hin heq
    obtain ⟨data, hdata⟩ := murMurHash_largest size
    have hlt := hin.1 data
    have hle := size.toNat_lt
    rw [heq, HashFunc.hash, hdata] at hlt
    have hlargest : (0xffffffff : UInt32).toNat = 2 ^ 32 - 1 := rfl
    omega
  · intro hne
    have hin : ∀ data, (f.hash data size).toNat < size.toNat := by
      intro data
      cases f with
      | murMur => exact absurd rfl hne
      | longNumber => exact mod_size_lt _ hsize
      | string => exact stringHash_lt data.str hsize
      | hash4 => exact mod_size_lt _ hsize
      | url => exact mod_size_lt _ hsize
    exact ⟨hin, fun place _ => indexesInside fun k => hin (place k)⟩

/-- The smallest table of the source, with its URL hash. -/
theorem hash_lt_iff_url :
    ((∀ data, (HashFunc.url.hash data 103).toNat < (103 : UInt32).toNat) ∧
        ∀ place : CString → KeyPointer, (∀ k, (place k).str = k) →
          IndexesInside (fun k n => HashFunc.url.hash (place k) n) 103) ↔
      HashFunc.url ≠ .murMur :=
  hash_lt_iff .url 103 (by decide)

set_option maxRecDepth 2000 in
/-- The hash of 32 letters, in the same table. -/
theorem murMurHash_out_of_range :
    ¬ (HashFunc.murMur.hash
        { addr := 4096, str := ⟨List.replicate 32 97, by decide⟩, behind := fun _ => 0 }
        103).toNat < (103 : UInt32).toNat := by
  decide

end HashTable

end BrbData
