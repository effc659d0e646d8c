import Mathlib.Data.List.AList
import BrbFramework.Lib.Chains
import BrbFramework.Lib.Handler

/-!
# `BRBHashTable`

Chains of items in buckets, which are found by the hash of a key. The items are
allocated by the table, the keys by its users, and both may be freed: the heap says
which addresses are allocated, and an address that is not must not be followed.

`Keeps` says that a table holds a finite map from strings to pointers. `lookup_ends`,
`removeItem_ends` and `addItem_ends` are the operations on it.
-/

namespace BrbData

open Handler Chains List Function

/-- A C string: the bytes before the one that ends it. -/
abbrev CString := { bytes : List UInt8 // 0 ∉ bytes }

/-- `strcmp`, up to the first difference. -/
def strcmpBytes : List UInt8 → List UInt8 → Int
  | [], [] => 0
  | [], b :: _ => 0 - b.toNat
  | a :: _, [] => a.toNat
  | a :: as, b :: bs => if a = b then strcmpBytes as bs else a.toNat - b.toNat

/-- `strcmp`. -/
def strcmp (a b : CString) : Int := strcmpBytes a.1 b.1

structure BRBHashTableItem where
  /-- A pointer to a string. -/
  key : Option Nat
  next : Option Nat
  /-- A pointer of the user's. -/
  item : Option Nat
  deriving DecidableEq

structure BRBHashTable where
  buckets : Nat → Option Nat
  cmp : CString → CString → Int
  hash : CString → UInt32 → UInt32
  size : UInt32
  currentSlot : Nat
  next : Option Nat
  count : Int
  /-- The items that are allocated, by their addresses. -/
  items : Nat → Option BRBHashTableItem
  /-- The strings that are allocated, by their addresses. -/
  strings : Nat → Option CString
  /-- The next address. -/
  made : Nat

namespace HashTable

inductive Fault
  /-- A null pointer is followed. -/
  | null
  /-- What was freed is used. -/
  | freed
  /-- A bucket that the table does not have. -/
  | outOfBounds
  /-- A loop goes on after a step for each address. -/
  | hung
  deriving DecidableEq, Repr

abbrev M := EStateM Fault BRBHashTable

/-- `hash_primes`. -/
def hashPrimes : List UInt32 :=
  [103, 229, 467, 977, 1979, 4019, 6037, 7951, 12149, 16231, 33493, 65357]

/-- `DEFAULT_HASH_SIZE`. -/
def defaultHashSize : UInt32 := 65357

/-- `HashTableNew`. Which of the primes `HashTablePrime` takes for a size is for the
logarithms of the platform to say. -/
def new (hashTablePrime : Int → Fin hashPrimes.length) (cmp : CString → CString → Int)
    (hashSz : Int) (hash : CString → UInt32 → UInt32) : BRBHashTable where
  buckets := fun _ => none
  cmp := cmp
  hash := hash
  size := if hashSz = 0 then defaultHashSize else hashPrimes.get (hashTablePrime hashSz)
  currentSlot := 0
  next := none
  count := 0
  items := fun _ => none
  strings := fun _ => none
  made := 0

/-! ## The heap -/

def item (ptr : Nat) : M BRBHashTableItem := do
  match (← get).items ptr with
  | none => throw .freed
  | some l => return l

def modifyItem (ptr : Nat) (f : BRBHashTableItem → BRBHashTableItem) : M PUnit := do
  let l ← item ptr
  modify fun hid => { hid with items := Function.update hid.items ptr (some (f l)) }

def string (ptr : Option Nat) : M CString := do
  match ptr with
  | none => throw .null
  | some p =>
    match (← get).strings p with
    | none => throw .freed
    | some k => return k

/-- `strdup`. -/
def strdup (k : CString) : M Nat := do
  let hid ← get
  set { hid with
    strings := Function.update hid.strings hid.made (some k)
    made := hid.made + 1 }
  return hid.made

/-- `BRB_FREE` of a string. -/
def freeString (ptr : Option Nat) : M PUnit := do
  match ptr with
  | none => return
  | some p =>
    let hid ← get
    if (hid.strings p).isNone then throw .freed
    set { hid with strings := Function.update hid.strings p none }

/-- `hid->buckets[i]`. -/
def bucket (i : Nat) : M (Option Nat) := do
  let hid ← get
  if hid.size.toNat ≤ i then throw .outOfBounds
  return hid.buckets i

def setBucket (i : Nat) (p : Option Nat) : M PUnit := do
  let hid ← get
  if hid.size.toNat ≤ i then throw .outOfBounds
  set { hid with buckets := Function.update hid.buckets i p }

/-- What the pointer `P` of `HashTableRemoveItem` leads to: a pointer in the table, or in
an item. -/
inductive Link
  | bucket (i : Nat)
  | next (ptr : Nat)
  deriving DecidableEq

/-- `*P`. -/
def Link.read : Link → M (Option Nat)
  | .bucket i => HashTable.bucket i
  | .next ptr => return (← item ptr).next

/-- `*P = p`. -/
def Link.write (p : Option Nat) : Link → M PUnit
  | .bucket i => setBucket i p
  | .next ptr => modifyItem ptr fun l => { l with next := p }

/-! ## The table -/

/-- `HashTableAddItem`. -/
def addItem (k : Option Nat) (item : Option Nat) : M Nat := do
  let hid ← get
  let new := hid.made
  set { hid with
    items := Function.update hid.items new (some { key := k, next := none, item := item })
    made := new + 1 }
  let i := (hid.hash (← string k) hid.size).toNat
  let head ← bucket i
  modifyItem new fun l => { l with next := head }
  setBucket i (some new)
  modify fun hid => { hid with count := hid.count + 1 }
  return new

/-- The loop of `HashTableLookup`. -/
def lookupLoop (k : CString) : Nat → Option Nat → M (Option Nat)
  | _, none => return none
  | 0, some _ => throw .hung
  | n + 1, some walker => do
    let l ← item walker
    -- `strcmp` of a null pointer is a fault
    if l.key.isNone then return none
    let hid ← get
    if hid.cmp k (← string l.key) = 0 then return some walker
    lookupLoop k n l.next

/-- `HashTableLookup`. -/
def lookup (k : CString) : M (Option Nat) := do
  let hid ← get
  let head ← bucket (hid.hash k hid.size).toNat
  lookupLoop k hid.made head

/-- `HashTableNextBucket`. -/
def nextBucket : Nat → M PUnit
  | 0 => return
  | n + 1 => do
    let hid ← get
    if hid.next.isSome then return
    set { hid with currentSlot := hid.currentSlot + 1 }
    if hid.currentSlot + 1 < hid.size.toNat then
      modify fun hid => { hid with next := hid.buckets hid.currentSlot }
      nextBucket n

/-- The loop of `HashTableRemoveItem`. -/
def removeLoop (hl : Nat) (freeLink : Bool) : Nat → Link → M Bool
  | n, P => do
    match ← P.read with
    | none => return false
    | some ptr =>
      if ptr ≠ hl then
        match n with
        | 0 => throw .hung
        | n + 1 => removeLoop hl freeLink n (.next ptr)
      else
        let l ← item hl
        P.write l.next
        let hid ← get
        if hid.next = some hl then
          set { hid with next := l.next }
          if l.next.isNone then
            nextBucket hid.size.toNat
        if freeLink then
          modify fun hid => { hid with items := Function.update hid.items hl none }
        modify fun hid => { hid with count := hid.count - 1 }
        return true

/-- `HashTableRemoveItem`. -/
def removeItem (hl : Nat) (freeLink : Bool) : M Bool := do
  let l ← item hl
  let hid ← get
  let i := (hid.hash (← string l.key) hid.size).toNat
  removeLoop hl freeLink hid.made (.bucket i)

/-- `HashTableStringHash`. -/
def stringHash (data : CString) (size : UInt32) : UInt32 :=
  -- a `char` is signed
  let n := data.1.foldl (fun n s => n ^^^ (271 * s.toInt8.toInt32.toUInt32)) 0
  let j := UInt32.ofNat data.1.length
  (n ^^^ (j * 271)) % size

def keyOf (t : BRBHashTable) (x : Nat) : Option CString :=
  (t.items x).bind fun l => l.key.bind t.strings

def payload (l : BRBHashTableItem) : Option Nat × Option Nat := (l.key, l.item)

section Strings

theorem strcmpBytes_eq_zero {a b : List UInt8} (ha : 0 ∉ a) (hb : 0 ∉ b) :
    strcmpBytes a b = 0 ↔ a = b := by
  induction a generalizing b with
  | nil =>
      cases b with
      | nil => simp [strcmpBytes]
      | cons y ys =>
          have hy : y ≠ 0 := fun h => hb (h ▸ mem_cons_self)
          have hnat : y.toNat ≠ 0 := fun h => hy (UInt8.toNat_inj.1 h)
          simp only [strcmpBytes, reduceCtorEq, iff_false]
          omega
  | cons x xs ih =>
      have hx : x ≠ 0 := fun h => ha (h ▸ mem_cons_self)
      have hnat : x.toNat ≠ 0 := fun h => hx (UInt8.toNat_inj.1 h)
      cases b with
      | nil =>
          simp only [strcmpBytes, reduceCtorEq, iff_false]
          omega
      | cons y ys =>
          rw [strcmpBytes]
          by_cases hxy : x = y
          · subst hxy
            rw [if_pos rfl, cons_inj_right]
            exact ih (fun h => ha (mem_cons_of_mem _ h)) fun h => hb (mem_cons_of_mem _ h)
          · have hne : x.toNat ≠ y.toNat := fun h => hxy (UInt8.toNat_inj.1 h)
            rw [if_neg hxy]
            constructor
            · intro h
              omega
            · intro h
              exact absurd (List.cons.inj h).1 hxy

theorem strcmp_eq_zero (a b : CString) : strcmp a b = 0 ↔ a = b :=
  (strcmpBytes_eq_zero a.2 b.2).trans Subtype.ext_iff.symm

theorem stringHash_lt (k : CString) {n : UInt32} (hn : 0 < n.toNat) :
    (stringHash k n).toNat < n.toNat := by
  rw [stringHash, UInt32.toNat_mod]
  exact Nat.mod_lt _ hn

end Strings

/-! ## The finite map -/

theorem length_keys_erase {α : Type} {β : α → Type} [DecidableEq α] {m : AList β} {a : α}
    (ha : a ∈ m) : (m.erase a).keys.length + 1 = m.keys.length := by
  rw [AList.keys_erase, length_erase_of_mem (AList.mem_keys.1 ha)]
  exact Nat.sub_add_cancel (length_pos_of_mem (AList.mem_keys.1 ha))

theorem length_keys_insert {α : Type} {β : α → Type} [DecidableEq α] {m : AList β} {a : α}
    (ha : a ∉ m) (b : β a) : (m.insert a b).keys.length = m.keys.length + 1 := by
  rw [AList.keys_insert, length_cons, erase_of_not_mem (fun h => ha (AList.mem_keys.2 h))]

/-- The chains of a table. Each item is in the bucket of its key. -/
structure Formed (t : BRBHashTable) (chains : Nat → List Nat) : Prop where
  cmp : ∀ a b, t.cmp a b = 0 ↔ a = b
  hash : ∀ k, (t.hash k t.size).toNat < t.size.toNat
  chain : ∀ i < t.size.toNat, Chain BRBHashTableItem.next t.items (t.buckets i) (chains i)
  nodup : ∀ i < t.size.toNat, (chains i).Nodup
  home : ∀ i < t.size.toNat, ∀ x ∈ chains i, ∃ k, keyOf t x = some k ∧ (t.hash k t.size).toNat = i
  owned : ∀ x, (t.items x).isSome → ∃ i < t.size.toNat, x ∈ chains i
  items : ∀ x, (t.items x).isSome → x < t.made
  strings : ∀ p, (t.strings p).isSome → p < t.made
  next : t.next = none

/-- The table holds the map `m` from strings to pointers. -/
structure Keeps (m : AList fun _ : CString => Option Nat) (t : BRBHashTable) : Prop where
  formed : ∃ chains, Formed t chains
  unique : ∀ x y k, keyOf t x = some k → keyOf t y = some k → x = y
  maps : ∀ k v, m.lookup k = some v ↔ ∃ x l, t.items x = some l ∧ keyOf t x = some k ∧ l.item = v
  count : t.count = m.keys.length

section Steps

variable {m : AList fun _ : CString => Option Nat} {t : BRBHashTable} {chains : Nat → List Nat}
  {k : CString} {x y : Nat}

theorem keyOf_eq_some : keyOf t x = some k ↔
    ∃ l kp, t.items x = some l ∧ l.key = some kp ∧ t.strings kp = some k := by
  simp only [keyOf, Option.bind_eq_some_iff]
  constructor
  · rintro ⟨l, hl, kp, hkp, hk⟩
    exact ⟨l, kp, hl, hkp, hk⟩
  · rintro ⟨l, kp, hl, hkp, hk⟩
    exact ⟨l, hl, kp, hkp, hk⟩

theorem ends_item {l : BRBHashTableItem} (hl : t.items x = some l)
    {Q : BRBHashTableItem → BRBHashTable → Prop} {E : Fault → BRBHashTable → Prop} :
    Ends (item x) t Q E ↔ Q l t := by
  simp only [item, ends_bind, ends_get, hl, ends_pure]

theorem ends_modifyItem {l : BRBHashTableItem} (hl : t.items x = some l)
    {f : BRBHashTableItem → BRBHashTableItem} {Q : PUnit → BRBHashTable → Prop}
    {E : Fault → BRBHashTable → Prop} :
    Ends (modifyItem x f) t Q E ↔
      Q PUnit.unit { t with items := update t.items x (some (f l)) } := by
  rw [modifyItem, ends_bind, ends_item hl, ends_modify]

theorem ends_string {kp : Nat} (hk : t.strings kp = some k) {Q : CString → BRBHashTable → Prop}
    {E : Fault → BRBHashTable → Prop} : Ends (string (some kp)) t Q E ↔ Q k t := by
  simp only [string, ends_bind, ends_get, hk, ends_pure]

theorem ends_bucket {i : Nat} (hi : i < t.size.toNat) {Q : Option Nat → BRBHashTable → Prop}
    {E : Fault → BRBHashTable → Prop} : Ends (bucket i) t Q E ↔ Q (t.buckets i) t := by
  simp only [bucket, ends_bind, ends_get, Nat.not_le.2 hi, if_false, ends_pure]

theorem ends_setBucket {i : Nat} (hi : i < t.size.toNat) {p : Option Nat}
    {Q : PUnit → BRBHashTable → Prop} {E : Fault → BRBHashTable → Prop} :
    Ends (setBucket i p) t Q E ↔
      Q PUnit.unit { t with buckets := update t.buckets i p } := by
  simp only [setBucket, ends_bind, ends_get, Nat.not_le.2 hi, if_false, ends_set]

theorem Formed.length_le (h : Formed t chains) {i : Nat} (hi : i < t.size.toNat) :
    (chains i).length ≤ t.made := by
  refine length_le_of_lt (h.nodup i hi) fun x hx => ?_
  obtain ⟨l, hl⟩ := (h.chain i hi).allocated hx
  exact h.items x (hl ▸ rfl)

theorem Formed.mem_bucket (h : Formed t chains) (hk : keyOf t x = some k) :
    x ∈ chains (t.hash k t.size).toNat := by
  obtain ⟨l, -, hl, -⟩ := keyOf_eq_some.1 hk
  obtain ⟨i, hi, hx⟩ := h.owned x (hl ▸ rfl)
  obtain ⟨k', hk', hhash⟩ := h.home i hi x hx
  obtain rfl : k' = k := Option.some.inj (hk'.symm.trans hk)
  exact hhash ▸ hx

theorem lookupLoop_ends (hcmp : ∀ a b, t.cmp a b = 0 ↔ a = b) {p : Option Nat} {xs : List Nat}
    {n : Nat} (hc : Chain BRBHashTableItem.next t.items p xs)
    (hkeys : ∀ x ∈ xs, (keyOf t x).isSome) (hn : xs.length ≤ n) :
    Ends (lookupLoop k n p) t
      (fun r u => u = t ∧ match r with
        | none => ∀ x ∈ xs, keyOf t x ≠ some k
        | some x => keyOf t x = some k) fun _ _ => False := by
  induction xs generalizing p n with
  | nil =>
      obtain rfl : p = none := hc
      cases n <;> exact ⟨rfl, nofun⟩
  | cons x xs ih =>
      obtain ⟨rfl, l, hl, hrest⟩ := hc
      obtain ⟨k', hk'⟩ := Option.isSome_iff_exists.1 (hkeys x mem_cons_self)
      obtain ⟨l', kp, hl', hkp, hstring⟩ := keyOf_eq_some.1 hk'
      obtain rfl : l = l' := Option.some.inj (hl.symm.trans hl')
      obtain ⟨n, rfl⟩ := Nat.exists_eq_succ_of_ne_zero (Nat.ne_of_gt (Nat.lt_of_lt_of_le
        (Nat.zero_lt_succ xs.length) hn))
      simp only [lookupLoop, ends_bind, ends_item hl, hkp, Option.isNone_some, Bool.false_eq_true,
        if_false, ends_get, ends_string hstring, hcmp]
      by_cases heq : k = k'
      · subst heq
        simp only [if_true, ends_pure]
        exact ⟨trivial, hk'⟩
      · simp only [heq, if_false]
        refine (ih hrest (fun y hy => hkeys y (mem_cons_of_mem _ hy))
          (Nat.le_of_succ_le_succ hn)).imp ?_
        rintro r u ⟨rfl, hr⟩
        refine ⟨rfl, ?_⟩
        cases r with
        | some y => exact hr
        | none =>
            intro y hy
            rcases mem_cons.1 hy with rfl | hy
            · rw [hk']
              exact fun h => heq (Option.some.inj h).symm
            · exact hr y hy

theorem lookup_ends (h : Formed t chains) :
    Ends (lookup k) t
      (fun r u => u = t ∧ match r with
        | none => ∀ x, keyOf t x ≠ some k
        | some x => keyOf t x = some k) fun _ _ => False := by
  have hi := h.hash k
  rw [lookup, ends_bind, ends_get, ends_bind, ends_bucket hi]
  refine (lookupLoop_ends h.cmp (h.chain _ hi) (fun x hx => ?_) (h.length_le hi)).imp ?_
  · obtain ⟨k', hk', -⟩ := h.home _ hi x hx
    exact hk' ▸ rfl
  · rintro r u ⟨rfl, hr⟩
    refine ⟨rfl, ?_⟩
    cases r with
    | some x => exact hr
    | none => exact fun x hx => hr x (h.mem_bucket hx) hx

theorem exists_of_payload {u : BRBHashTable} {l : BRBHashTableItem}
    (hitem : (u.items x).map payload = (t.items x).map payload) (hl : t.items x = some l) :
    ∃ l', u.items x = some l' ∧ l'.key = l.key ∧ l'.item = l.item := by
  rw [hl, Option.map_some, Option.map_eq_some_iff] at hitem
  obtain ⟨l', hl', hpay⟩ := hitem
  exact ⟨l', hl', congrArg Prod.fst hpay, congrArg Prod.snd hpay⟩

theorem isSome_of_payload {u : BRBHashTable}
    (hitem : (u.items x).map payload = (t.items x).map payload) (hx : (u.items x).isSome) :
    (t.items x).isSome := by
  have hmap := congrArg Option.isSome hitem
  rw [Option.isSome_map, Option.isSome_map] at hmap
  exact hmap ▸ hx

def Link.at (t : BRBHashTable) : Link → Option Nat
  | .bucket i => t.buckets i
  | .next ptr => (t.items ptr).bind BRBHashTableItem.next

/-- A link that is outside the chain it leads to. -/
def Link.Outside (t : BRBHashTable) (xs : List Nat) : Link → Prop
  | .bucket i => i < t.size.toNat
  | .next ptr => (t.items ptr).isSome ∧ ptr ∉ xs

theorem ends_read {P : Link} {xs : List Nat} (hP : P.Outside t xs)
    {Q : Option Nat → BRBHashTable → Prop} {E : Fault → BRBHashTable → Prop} :
    Ends P.read t Q E ↔ Q (P.at t) t := by
  cases P with
  | bucket i => exact ends_bucket hP
  | next ptr =>
      obtain ⟨l, hl⟩ := Option.isSome_iff_exists.1 hP.1
      simp only [Link.read, ends_bind, ends_item hl, ends_pure, Link.at, hl, Option.bind_some]

/-- The item `hl` is out of the chain `xs` that `P` leads to, and freed. -/
structure Unlinked (P : Link) (hl : Nat) (xs : List Nat) (t u : BRBHashTable) : Prop where
  chain : Chain BRBHashTableItem.next u.items (P.at u) (xs.erase hl)
  gone : u.items hl = none
  payload : ∀ y, y ≠ hl → (u.items y).map payload = (t.items y).map payload
  items : ∀ y, y ∉ xs → P ≠ .next y → u.items y = t.items y
  buckets : ∀ i, P ≠ .bucket i → u.buckets i = t.buckets i
  rest : u = { t with items := u.items, buckets := u.buckets, count := t.count - 1 }

theorem Unlinked.head {P : Link} {l : BRBHashTableItem} {xs : List Nat}
    (hP : P.Outside t (x :: xs)) (hl : t.items x = some l) (hnodup : (x :: xs).Nodup)
    (hrest : Chain BRBHashTableItem.next t.items l.next xs) :
    Ends (P.write l.next) t
      (fun _ u => u.next = t.next ∧ Unlinked P x (x :: xs) t
        { u with items := update u.items x none, count := u.count - 1 })
      fun _ _ => False := by
  have hx : x ∉ xs := (nodup_cons.1 hnodup).1
  cases P with
  | bucket i =>
      rw [Link.write, ends_setBucket hP]
      refine ⟨rfl, ?_, update_self .., fun y hy => ?_, fun y hy _ => ?_, fun j hj => ?_,
        rfl⟩
      · rw [erase_cons_head, Link.at]
        dsimp only
        rw [update_self]
        refine hrest.frame fun y hy => update_of_ne ?_ ..
        rintro rfl
        exact hx hy
      · exact congrArg _ (update_of_ne hy ..)
      · refine update_of_ne ?_ ..
        rintro rfl
        exact hy mem_cons_self
      · refine update_of_ne ?_ ..
        rintro rfl
        exact hj rfl
  | next ptr =>
      obtain ⟨hptr, hout⟩ := hP
      obtain ⟨l', hl'⟩ := Option.isSome_iff_exists.1 hptr
      have hne : ptr ≠ x := fun h => hout (h ▸ mem_cons_self)
      rw [Link.write, ends_modifyItem hl']
      refine ⟨rfl, ?_, update_self .., fun y hy => ?_, fun y hy hyp => ?_,
        fun _ _ => rfl, rfl⟩
      · rw [erase_cons_head, Link.at]
        dsimp only
        rw [update_of_ne hne, update_self]
        refine hrest.frame fun y hy => ?_
        rw [update_of_ne, update_of_ne]
        · rintro rfl
          exact hout (mem_cons_of_mem _ hy)
        · rintro rfl
          exact hx hy
      · dsimp only
        rw [update_of_ne hy]
        by_cases hyp : y = ptr
        · subst hyp
          rw [update_self, hl']
          rfl
        · rw [update_of_ne hyp]
      · dsimp only
        rw [update_of_ne, update_of_ne]
        · rintro rfl
          exact hyp rfl
        · rintro rfl
          exact hy mem_cons_self

theorem Unlinked.behind {P : Link} {l : BRBHashTableItem} {xs : List Nat} {u : BRBHashTable}
    (hP : P.Outside t (x :: xs)) (hat : P.at t = some x) (hl : t.items x = some l) (hne : x ≠ y)
    (h : Unlinked (.next x) y xs t u) : Unlinked P y (x :: xs) t u := by
  refine ⟨?_, h.gone, h.payload, fun z hz hzP => ?_, fun i _ => h.buckets i nofun, h.rest⟩
  · have hsame : P.at u = some x := by
      cases P with
      | bucket i => exact (h.buckets i nofun).trans hat
      | next ptr =>
          have hptr : ptr ≠ x := fun heq => hP.2 (heq ▸ mem_cons_self)
          rw [Link.at, h.items ptr (fun hin => hP.2 (mem_cons_of_mem _ hin))
            fun heq => hptr (Link.next.inj heq).symm]
          exact hat
    obtain ⟨l', hl', -⟩ := exists_of_payload (h.payload x hne) hl
    have hchain := h.chain
    rw [Link.at, hl', Option.bind_some] at hchain
    rw [erase_cons_tail (by simpa using hne), hsame]
    exact .cons hl' hchain
  · refine h.items z (fun hin => hz (mem_cons_of_mem _ hin)) fun heq => hz ?_
    exact Link.next.inj heq ▸ mem_cons_self

theorem removeLoop_ends {hl : Nat} (hnext : t.next = none) {P : Link} {xs : List Nat} {n : Nat}
    (hP : P.Outside t xs) (hc : Chain BRBHashTableItem.next t.items (P.at t) xs)
    (hnodup : xs.Nodup) (hin : hl ∈ xs) (hn : xs.length ≤ n) :
    Ends (removeLoop hl true n P) t (fun r u => r = true ∧ Unlinked P hl xs t u)
      fun _ _ => False := by
  induction xs generalizing P n with
  | nil => cases hin
  | cons x xs ih =>
      obtain ⟨hat, l, hx, hrest⟩ := hc
      obtain ⟨n, rfl⟩ := Nat.exists_eq_succ_of_ne_zero (Nat.ne_of_gt (Nat.lt_of_lt_of_le
        (Nat.zero_lt_succ xs.length) hn))
      rw [removeLoop, ends_bind, ends_read hP, hat]
      by_cases heq : x = hl
      · subst heq
        simp only [ne_eq, not_true, if_false, ends_bind, ends_item hx]
        refine (Unlinked.head hP hx hnodup hrest).imp ?_
        rintro _ u ⟨hsame, hu⟩
        have hno : u.next ≠ some x := by
          rw [hsame, hnext]
          simp
        simp only [ends_get, hno, if_false, if_true, ends_bind, ends_pure, ends_modify]
        exact ⟨trivial, hu⟩
      · have hout : x ∉ xs := (nodup_cons.1 hnodup).1
        have hin' : hl ∈ xs := (mem_cons.1 hin).resolve_left fun h => heq h.symm
        simp only [ne_eq, heq, not_false_eq_true, if_true]
        refine (ih (P := .next x) ⟨hx ▸ rfl, hout⟩ ?_ hnodup.of_cons hin'
          (Nat.le_of_succ_le_succ hn)).imp ?_
        · rw [Link.at, hx]
          exact hrest
        · rintro r u ⟨hr, hu⟩
          exact ⟨hr, hu.behind hP hat hx heq⟩

theorem keyOf_congr {u : BRBHashTable} (hitem : (u.items x).map payload = (t.items x).map payload)
    (hstrings : ∀ l p, t.items x = some l → l.key = some p → u.strings p = t.strings p) :
    keyOf u x = keyOf t x := by
  cases hx : t.items x with
  | none =>
      rw [hx, Option.map_none, Option.map_eq_none_iff] at hitem
      simp only [keyOf, hx, hitem, Option.bind_none]
  | some l =>
      obtain ⟨l', hl', hkey, -⟩ := exists_of_payload hitem hx
      simp only [keyOf, hx, hl', Option.bind_some, hkey]
      cases hp : l.key with
      | none => rfl
      | some p => exact hstrings l p hx hp

theorem Formed.setStrings (h : Formed t chains) {strings : Nat → Option CString} {made : Nat}
    (hkeys : ∀ y l p, t.items y = some l → l.key = some p → strings p = t.strings p)
    (hlt : ∀ p, (strings p).isSome → p < made) (hmade : t.made ≤ made) :
    Formed { t with strings := strings, made := made } chains := by
  have hkeyOf : ∀ y, keyOf { t with strings := strings, made := made } y = keyOf t y := fun y =>
    keyOf_congr rfl (hkeys y)
  refine ⟨h.cmp, h.hash, h.chain, h.nodup, fun i hi x hx => ?_, h.owned, fun x hx => ?_, hlt,
    h.next⟩
  · rw [hkeyOf]
    exact h.home i hi x hx
  · exact Nat.lt_of_lt_of_le (h.items x hx) hmade

theorem Keeps.setStrings (h : Keeps m t) {strings : Nat → Option CString} {made : Nat}
    (hkeys : ∀ y l p, t.items y = some l → l.key = some p → strings p = t.strings p)
    (hlt : ∀ p, (strings p).isSome → p < made) (hmade : t.made ≤ made) :
    Keeps m { t with strings := strings, made := made } := by
  have hkeyOf : ∀ y, keyOf { t with strings := strings, made := made } y = keyOf t y := fun y =>
    keyOf_congr rfl (hkeys y)
  obtain ⟨chains, hf⟩ := h.formed
  refine ⟨⟨chains, hf.setStrings hkeys hlt hmade⟩, fun x y k hx hy => ?_, fun k v => ?_, h.count⟩
  · rw [hkeyOf] at hx hy
    exact h.unique x y k hx hy
  · simp only [hkeyOf]
    exact h.maps k v

theorem Formed.erase (h : Formed t chains) (hk : keyOf t x = some k) {u : BRBHashTable}
    (hu : Unlinked (.bucket (t.hash k t.size).toNat) x (chains (t.hash k t.size).toNat) t u) :
    Formed u (update chains (t.hash k t.size).toNat
      ((chains (t.hash k t.size).toNat).erase x)) := by
  have hkeyOf : ∀ y, y ≠ x → keyOf u y = keyOf t y := fun y hy =>
    keyOf_congr (hu.payload y hy) fun _ _ _ _ => by rw [hu.rest]
  have hsize : u.size = t.size := by rw [hu.rest]
  have hhash : u.hash = t.hash := by rw [hu.rest]
  have hnotin : ∀ i < t.size.toNat, i ≠ (t.hash k t.size).toNat → x ∉ chains i := by
    intro i hi hne hin
    obtain ⟨k', hk', hi'⟩ := h.home i hi x hin
    obtain rfl : k' = k := Option.some.inj (hk'.symm.trans hk)
    exact hne hi'.symm
  have hchains : ∀ i < t.size.toNat, ∀ y, y ∈ update chains (t.hash k t.size).toNat
      ((chains (t.hash k t.size).toNat).erase x) i ↔ y ∈ chains i ∧ y ≠ x := by
    intro i hi y
    by_cases hne : i = (t.hash k t.size).toNat
    · rw [hne, update_self, (h.nodup _ (h.hash k)).mem_erase_iff, and_comm]
    · rw [update_of_ne hne]
      refine ⟨fun hy => ⟨hy, ?_⟩, And.left⟩
      rintro rfl
      exact hnotin i hi hne hy
  constructor
  case cmp => rw [hu.rest]; exact h.cmp
  case hash => rw [hu.rest]; exact h.hash
  case chain =>
    intro i hi
    rw [hsize] at hi
    by_cases hne : i = (t.hash k t.size).toNat
    · rw [hne, update_self]
      exact hu.chain
    · rw [update_of_ne hne, hu.buckets i fun heq => hne (Link.bucket.inj heq).symm]
      refine (h.chain i hi).frame fun y hy => hu.items y (fun hin => ?_) nofun
      obtain ⟨k', hk', hi'⟩ := h.home i hi y hy
      obtain ⟨k'', hk'', hi''⟩ := h.home _ (h.hash k) y hin
      obtain rfl : k' = k'' := Option.some.inj (hk'.symm.trans hk'')
      exact hne (hi'.symm.trans hi'')
  case nodup =>
    intro i hi
    rw [hsize] at hi
    by_cases hne : i = (t.hash k t.size).toNat
    · rw [hne, update_self]
      exact (h.nodup _ (h.hash k)).erase x
    · rw [update_of_ne hne]
      exact h.nodup i hi
  case home =>
    intro i hi y hy
    rw [hsize] at hi ⊢
    obtain ⟨hy, hne⟩ := (hchains i hi y).1 hy
    rw [hkeyOf y hne, hhash]
    exact h.home i hi y hy
  case owned =>
    intro y hy
    have hne : y ≠ x := by
      rintro rfl
      rw [hu.gone] at hy
      cases hy
    obtain ⟨i, hi, hin⟩ := h.owned y (isSome_of_payload (hu.payload y hne) hy)
    rw [hsize]
    exact ⟨i, hi, (hchains i hi y).2 ⟨hin, hne⟩⟩
  case items =>
    intro y hy
    have hne : y ≠ x := by
      rintro rfl
      rw [hu.gone] at hy
      cases hy
    rw [hu.rest]
    exact h.items y (isSome_of_payload (hu.payload y hne) hy)
  case strings => rw [hu.rest]; exact h.strings
  case next => rw [hu.rest]; exact h.next

structure Erased (m : AList fun _ : CString => Option Nat) (k : CString) (x : Nat)
    (t u : BRBHashTable) : Prop where
  keeps : Keeps (m.erase k) u
  gone : u.items x = none
  payload : ∀ y, y ≠ x → (u.items y).map payload = (t.items y).map payload
  strings : u.strings = t.strings
  made : u.made = t.made

theorem removeItem_unlinks (h : Formed t chains) (hk : keyOf t x = some k) :
    Ends (removeItem x true) t
      (fun r u => r = true ∧
        Unlinked (.bucket (t.hash k t.size).toNat) x (chains (t.hash k t.size).toNat) t u)
      fun _ _ => False := by
  obtain ⟨l, kp, hl, hkp, hstring⟩ := keyOf_eq_some.1 hk
  have hi := h.hash k
  rw [removeItem, ends_bind, ends_item hl, ends_bind, ends_get, ends_bind, hkp,
    ends_string hstring]
  exact removeLoop_ends h.next (P := .bucket _) hi (h.chain _ hi) (h.nodup _ hi)
    (h.mem_bucket hk) (h.length_le hi)

theorem removeItem_ends (h : Keeps m t) (hk : keyOf t x = some k) :
    Ends (removeItem x true) t (fun r u => r = true ∧ Erased m k x t u) fun _ _ => False := by
  obtain ⟨chains, hf⟩ := h.formed
  obtain ⟨l, kp, hl, hkp, hstring⟩ := keyOf_eq_some.1 hk
  refine (removeItem_unlinks hf hk).imp ?_
  rintro r u ⟨hr, hu⟩
  have hstrings : u.strings = t.strings := by rw [hu.rest]
  have hkeyOf : ∀ y, y ≠ x → keyOf u y = keyOf t y := fun y hy =>
    keyOf_congr (hu.payload y hy) fun _ _ _ _ => by rw [hstrings]
  have hself : keyOf u x = none := by simp only [keyOf, hu.gone, Option.bind_none]
  have hmem : k ∈ m := by
    rw [← AList.lookup_isSome]
    exact Option.isSome_iff_exists.2 ⟨_, (h.maps k l.item).2 ⟨x, l, hl, hk, rfl⟩⟩
  have hback : ∀ {y k'}, keyOf u y = some k' → y ≠ x ∧ keyOf t y = some k' := by
    intro y k' hy
    have hne : y ≠ x := by
      rintro rfl
      exact nomatch hself.symm.trans hy
    exact ⟨hne, hkeyOf y hne ▸ hy⟩
  refine ⟨hr, ⟨⟨_, hf.erase hk hu⟩, fun y z k' hy hz => ?_, fun k' v => ?_, ?_⟩, hu.gone, hu.payload,
    hstrings, by rw [hu.rest]⟩
  · exact h.unique y z k' (hback hy).2 (hback hz).2
  · by_cases heq : k' = k
    · subst heq
      rw [AList.lookup_erase]
      refine iff_of_false nofun ?_
      rintro ⟨y, l', -, hy, -⟩
      obtain ⟨hne, hy⟩ := hback hy
      exact hne (h.unique y x k' hy hk)
    · rw [AList.lookup_erase_ne heq, h.maps]
      constructor
      · rintro ⟨y, l', hl', hy, hv⟩
        have hne : y ≠ x := by
          rintro rfl
          exact heq (Option.some.inj (hy.symm.trans hk))
        obtain ⟨l'', hl'', -, hitem⟩ := exists_of_payload (hu.payload y hne) hl'
        exact ⟨y, l'', hl'', (hkeyOf y hne).trans hy, hitem.trans hv⟩
      · rintro ⟨y, l', hl', hy, hv⟩
        obtain ⟨hne, hy⟩ := hback hy
        obtain ⟨l'', hl'', -, hitem⟩ := exists_of_payload (hu.payload y hne).symm hl'
        exact ⟨y, l'', hl'', hy, hitem.trans hv⟩
  · have hcount : u.count = t.count - 1 := by rw [hu.rest]
    have hlen := length_keys_erase hmem
    rw [hcount, h.count]
    omega

theorem Formed.push (h : Formed t chains) {kp : Nat} (hkp : t.strings kp = some k) {v : Option Nat}
    {u : BRBHashTable}
    (hu : u = { t with
      buckets := update t.buckets (t.hash k t.size).toNat (some t.made)
      items := update t.items t.made
        (some { key := some kp, next := t.buckets (t.hash k t.size).toNat, item := v })
      made := t.made + 1
      count := t.count + 1 }) :
    Formed u (update chains (t.hash k t.size).toNat
      (t.made :: chains (t.hash k t.size).toNat)) := by
  have hnew : ∀ {x}, (t.items x).isSome → x ≠ t.made := fun hx =>
    Nat.ne_of_lt (h.items _ hx)
  have hchain : ∀ {i}, i < t.size.toNat → ∀ {x}, x ∈ chains i → x ≠ t.made := by
    intro i hi x hx
    obtain ⟨l, hl⟩ := (h.chain i hi).allocated hx
    exact hnew (hl ▸ rfl)
  have hitems : ∀ x, x ≠ t.made → u.items x = t.items x := fun x hx => by
    rw [hu]
    exact update_of_ne hx ..
  have hkeyOf : ∀ x, x ≠ t.made → keyOf u x = keyOf t x := fun x hx =>
    keyOf_congr (congrArg _ (hitems x hx)) fun _ _ _ _ => by rw [hu]
  have hself : keyOf u t.made = some k :=
    keyOf_eq_some.2 ⟨_, kp, by rw [hu]; exact update_self .., rfl, by rw [hu]; exact hkp⟩
  have hframe : ∀ i < t.size.toNat,
      Chain BRBHashTableItem.next u.items (t.buckets i) (chains i) := fun i hi =>
    (h.chain i hi).frame fun x hx => hitems x (hchain hi hx)
  have hsize : u.size = t.size := by rw [hu]
  have hhash : u.hash = t.hash := by rw [hu]
  have hmade : u.made = t.made + 1 := by rw [hu]
  constructor
  case cmp => rw [hu]; exact h.cmp
  case hash => rw [hu]; exact h.hash
  case chain =>
    intro i hi
    rw [hsize] at hi
    by_cases heq : i = (t.hash k t.size).toNat
    · subst heq
      rw [update_self]
      have hbucket : u.buckets (t.hash k t.size).toNat = some t.made := by
        rw [hu]
        exact update_self ..
      rw [hbucket]
      refine Chain.cons (l := ⟨some kp, t.buckets (t.hash k t.size).toNat, v⟩) ?_ (hframe _ hi)
      rw [hu]
      exact update_self ..
    · have hbucket : u.buckets i = t.buckets i := by
        rw [hu]
        exact update_of_ne heq ..
      rw [update_of_ne heq, hbucket]
      exact hframe i hi
  case nodup =>
    intro i hi
    rw [hsize] at hi
    by_cases heq : i = (t.hash k t.size).toNat
    · subst heq
      rw [update_self]
      exact nodup_cons.2 ⟨fun hin => hchain hi hin rfl, h.nodup _ hi⟩
    · rw [update_of_ne heq]
      exact h.nodup i hi
  case home =>
    intro i hi x hx
    rw [hsize] at hi ⊢
    rw [hhash]
    by_cases heq : i = (t.hash k t.size).toNat
    · subst heq
      rw [update_self] at hx
      rcases mem_cons.1 hx with rfl | hx
      · exact ⟨k, hself, rfl⟩
      · rw [hkeyOf x (hchain hi hx)]
        exact h.home _ hi x hx
    · rw [update_of_ne heq] at hx
      rw [hkeyOf x (hchain hi hx)]
      exact h.home i hi x hx
  case owned =>
    intro x hx
    rw [hsize]
    by_cases hne : x = t.made
    · subst hne
      exact ⟨_, h.hash k, by rw [update_self]; exact mem_cons_self⟩
    · rw [hitems x hne] at hx
      obtain ⟨i, hi, hin⟩ := h.owned x hx
      refine ⟨i, hi, ?_⟩
      by_cases heq : i = (t.hash k t.size).toNat
      · subst heq
        rw [update_self]
        exact mem_cons_of_mem _ hin
      · rwa [update_of_ne heq]
  case items =>
    intro x hx
    rw [hmade]
    by_cases hne : x = t.made
    · exact hne ▸ Nat.lt_succ_self _
    · rw [hitems x hne] at hx
      exact Nat.lt_succ_of_lt (h.items x hx)
  case strings =>
    intro p hp
    rw [hmade]
    rw [hu] at hp
    exact Nat.lt_succ_of_lt (h.strings p hp)
  case next => rw [hu]; exact h.next

structure Added (m : AList fun _ : CString => Option Nat) (k : CString) (kp : Nat)
    (v : Option Nat) (t u : BRBHashTable) : Prop where
  keeps : Keeps (m.insert k v) u
  item : ∃ p, u.items t.made = some ⟨some kp, p, v⟩
  items : ∀ x, x ≠ t.made → u.items x = t.items x
  strings : u.strings = t.strings
  made : u.made = t.made + 1

theorem ends_addItem (hi : (t.hash k t.size).toNat < t.size.toNat) {kp : Nat}
    (hkp : t.strings kp = some k) {v : Option Nat} {Q : Nat → BRBHashTable → Prop}
    {E : Fault → BRBHashTable → Prop} :
    Ends (addItem (some kp) v) t Q E ↔ Q t.made { t with
      buckets := update t.buckets (t.hash k t.size).toNat (some t.made)
      items := update t.items t.made
        (some { key := some kp, next := t.buckets (t.hash k t.size).toNat, item := v })
      made := t.made + 1
      count := t.count + 1 } := by
  simp only [addItem, string, bucket, modifyItem, HashTable.item, setBucket, ends_bind, ends_get,
    ends_set, ends_pure, ends_modify, hkp, Nat.not_le.2 hi, if_false, update_self,
    update_idem]

theorem addItem_ends (h : Keeps m t) {kp : Nat} (hkp : t.strings kp = some k) (hk : k ∉ m)
    (v : Option Nat) :
    Ends (addItem (some kp) v) t (fun _ u => Added m k kp v t u) fun _ _ => False := by
  obtain ⟨chains, hf⟩ := h.formed
  have hi := hf.hash k
  have hnone : ∀ x, keyOf t x ≠ some k := by
    intro x hx
    obtain ⟨l, -, hl, -⟩ := keyOf_eq_some.1 hx
    have hlookup := (h.maps k l.item).2 ⟨x, l, hl, hx, rfl⟩
    exact hk (AList.lookup_isSome.1 (hlookup ▸ rfl))
  have hself {l : BRBHashTableItem} : update t.items t.made (some l) t.made = some l :=
    update_self ..
  rw [ends_addItem hi hkp]
  have hpush := hf.push hkp (v := v) rfl
  set u : BRBHashTable := { t with
      buckets := update t.buckets (t.hash k t.size).toNat (some t.made)
      items := update t.items t.made
        (some { key := some kp, next := t.buckets (t.hash k t.size).toNat, item := v })
      made := t.made + 1
      count := t.count + 1 } with hu
  have hitems : ∀ x, x ≠ t.made → u.items x = t.items x := fun x hx =>
    update_of_ne hx ..
  have hkeyOf : ∀ x, x ≠ t.made → keyOf u x = keyOf t x := fun x hx =>
    keyOf_congr (congrArg _ (hitems x hx)) fun _ _ _ _ => rfl
  have hmade : keyOf u t.made = some k := keyOf_eq_some.2 ⟨_, kp, hself, rfl, hkp⟩
  have hold : ∀ {x l}, t.items x = some l → x ≠ t.made := fun hl =>
    Nat.ne_of_lt (hf.items _ (hl ▸ rfl))
  refine ⟨⟨⟨_, hpush⟩, fun x y k' hx hy => ?_, fun k' w => ?_, ?_⟩, ⟨_, hself⟩, hitems, rfl, rfl⟩
  · by_cases hxm : x = t.made
    · subst hxm
      obtain rfl : k = k' := Option.some.inj (hmade.symm.trans hx)
      by_contra hne
      rw [hkeyOf y fun heq => hne heq.symm] at hy
      exact hnone y hy
    · rw [hkeyOf x hxm] at hx
      by_cases hym : y = t.made
      · subst hym
        obtain rfl : k = k' := Option.some.inj (hmade.symm.trans hy)
        exact (hnone x hx).elim
      · rw [hkeyOf y hym] at hy
        exact h.unique x y k' hx hy
  · by_cases heq : k' = k
    · subst heq
      rw [AList.lookup_insert, Option.some.injEq]
      constructor
      · rintro rfl
        exact ⟨t.made, _, hself, hmade, rfl⟩
      · rintro ⟨x, l, hl, hx, rfl⟩
        by_cases hxm : x = t.made
        · subst hxm
          obtain rfl := Option.some.inj (hself.symm.trans hl)
          rfl
        · rw [hkeyOf x hxm] at hx
          exact (hnone x hx).elim
    · rw [AList.lookup_insert_ne heq, h.maps]
      constructor
      · rintro ⟨x, l, hl, hx, hv⟩
        exact ⟨x, l, (hitems x (hold hl)).trans hl, (hkeyOf x (hold hl)).trans hx, hv⟩
      · rintro ⟨x, l, hl, hx, hv⟩
        have hxm : x ≠ t.made := by
          rintro rfl
          exact heq (Option.some.inj (hx.symm.trans hmade))
        exact ⟨x, l, (hitems x hxm).symm.trans hl, (hkeyOf x hxm).symm.trans hx, hv⟩
  · have hlen := length_keys_insert hk v
    have hcount : u.count = t.count + 1 := rfl
    have := h.count
    omega

theorem Erased.key_ne {u : BRBHashTable} (h : Erased m k x t u) {kp : Nat}
    (hkp : t.strings kp = some k) {y : Nat} {l : BRBHashTableItem} (hl : u.items y = some l) :
    l.key ≠ some kp := by
  intro hkey
  have hy : keyOf u y = some k := keyOf_eq_some.2 ⟨l, kp, hl, hkey, h.strings ▸ hkp⟩
  have hlookup := (h.keeps.maps k l.item).2 ⟨y, l, hl, hy, rfl⟩
  rw [AList.lookup_erase] at hlookup
  cases hlookup

theorem freeString_ends (h : Keeps m t) {p : Nat} (hp : (t.strings p).isSome)
    (hkeys : ∀ y l, t.items y = some l → l.key ≠ some p) :
    Ends (freeString (some p)) t
      (fun _ u => Keeps m u ∧ u = { t with strings := update t.strings p none })
      fun _ _ => False := by
  have hnone : (t.strings p).isNone = false := by rw [← Option.not_isSome, hp, Bool.not_true]
  obtain ⟨chains, hf⟩ := h.formed
  simp only [freeString, ends_bind, ends_get, hnone, Bool.false_eq_true, if_false, ends_set]
  have hkeeps : Keeps m { t with strings := update t.strings p none, made := t.made } := by
    refine h.setStrings (fun y l q hl hq => ?_) (fun q hq => ?_) (Nat.le_refl _)
    · refine update_of_ne ?_ ..
      rintro rfl
      exact hkeys y l hl hq
    · by_cases heq : q = p
      · subst heq
        rw [update_self] at hq
        cases hq
      · rw [update_of_ne heq] at hq
        exact hf.strings q hq
  exact ⟨hkeeps, trivial⟩

theorem strdup_ends (h : Keeps m t) (k : CString) :
    Ends (strdup k) t
      (fun p u => Keeps m u ∧ p = t.made ∧
        u = { t with strings := update t.strings t.made (some k), made := t.made + 1 })
      fun _ _ => False := by
  obtain ⟨chains, hf⟩ := h.formed
  simp only [strdup, ends_bind, ends_get, ends_set, ends_pure]
  refine ⟨h.setStrings (fun y l q hl hq => ?_) (fun q hq => ?_) (Nat.le_succ _), trivial, trivial⟩
  · refine update_of_ne ?_ ..
    obtain ⟨i, hi, hin⟩ := hf.owned y (hl ▸ rfl)
    obtain ⟨k', hk', -⟩ := hf.home i hi y hin
    obtain ⟨l', kp, hl', hkp, hstring⟩ := keyOf_eq_some.1 hk'
    obtain rfl := Option.some.inj (hl.symm.trans hl')
    obtain rfl := Option.some.inj (hq.symm.trans hkp)
    exact Nat.ne_of_lt (hf.strings q (hstring ▸ rfl))
  · by_cases heq : q = t.made
    · exact heq ▸ Nat.lt_succ_self _
    · rw [update_of_ne heq] at hq
      exact Nat.lt_succ_of_lt (hf.strings q hq)

theorem lookup_keeps (h : Keeps m t) (k : CString) :
    Ends (lookup k) t
      (fun r u => u = t ∧ match r with
        | none => m.lookup k = none
        | some x => ∃ l, t.items x = some l ∧ keyOf t x = some k ∧ m.lookup k = some l.item)
      fun _ _ => False := by
  obtain ⟨chains, hf⟩ := h.formed
  refine (lookup_ends hf).imp ?_
  rintro r u ⟨rfl, hr⟩
  refine ⟨rfl, ?_⟩
  cases r with
  | none =>
      rw [Option.eq_none_iff_forall_ne_some]
      intro v hv
      obtain ⟨x, l, -, hx, -⟩ := (h.maps k v).1 hv
      exact hr x hx
  | some x =>
      obtain ⟨l, kp, hl, -⟩ := keyOf_eq_some.1 hr
      exact ⟨l, hl, hr, (h.maps k l.item).2 ⟨x, l, hl, hr, rfl⟩⟩

theorem keeps_new (hashTablePrime : Int → Fin hashPrimes.length) (hashSz : Int) :
    Keeps ∅ (new hashTablePrime strcmp hashSz stringHash) := by
  have hsize : 0 < (new hashTablePrime strcmp hashSz stringHash).size.toNat := by
    have hprimes : ∀ i, 0 < (hashPrimes.get i).toNat := by decide
    rw [new]
    dsimp only
    split
    · decide
    · exact hprimes _
  refine ⟨⟨fun _ => [], strcmp_eq_zero, fun k => stringHash_lt k hsize, fun _ _ => rfl,
    fun _ _ => nodup_nil, nofun, nofun, nofun, nofun, rfl⟩, nofun, fun k v => ?_, rfl⟩
  rw [AList.lookup_empty]
  refine iff_of_false nofun ?_
  rintro ⟨x, l, hl, -⟩
  cases hl

end Steps

end HashTable

end BrbData
