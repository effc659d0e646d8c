import Mathlib.Algebra.GroupWithZero.Nat
import BrbFramework.Data.HashTable
import BrbFramework.Lib.Runs

/-!
# `AssocArray` and `StringAssocArray`

A hash table of copies of the keys, with a counter of the elements. The values are the
caller's pointers, which a function of the caller may destroy, or copies of strings.

Both are finite maps as long as no key is added that is there: `assocArrays_areMaps`.
An add of such a key is counted again, and makes a `StringAssocArray` follow the
item that it has just freed.
-/

namespace BrbData

open Handler Runs Function HashTable

/-- An operation on an array with the values `ν`. -/
inductive AssocArray.Op (ν : Type)
  | add (strKey : CString) (value : ν)
  | delete (strKey : CString)
  | lookup (strKey : CString)
  deriving DecidableEq

namespace AssocArray.Op

variable {ν : Type}

def spec (m : AList fun _ : CString => ν) : Op ν → AList fun _ : CString => ν
  | .add strKey value => m.insert strKey value
  | .delete strKey => m.erase strKey
  | .lookup _ => m

def map (ops : List (Op ν)) : AList fun _ : CString => ν := ops.foldl spec ∅

/-- No key is added that the map has, and `elem_count` can count the keys. -/
def Fresh (m : AList fun _ : CString => ν) : Op ν → Prop
  | .add strKey _ => strKey ∉ m ∧ m.keys.length + 1 < 2 ^ 32
  | .delete _ | .lookup _ => True

end AssocArray.Op

/-! ## `AssocArray` -/

structure AssocArray where
  hashTable : BRBHashTable
  elemCount : UInt32
  itemdestroyFunc : Option Nat
  /-- The calls of `itemdestroy_func`, with what it was given. -/
  destroyed : List (Nat × Option Nat)

namespace AssocArray

open HashTable (Fault Keeps hashPrimes)

abbrev M := EStateM Fault AssocArray

/-- `AssocArrayNew`. -/
def new (hashTablePrime : Int → Fin hashPrimes.length) (capacity : Int)
    (itemdestroyFunc : Option Nat) : AssocArray where
  hashTable := HashTable.new hashTablePrime strcmp capacity HashTable.stringHash
  elemCount := 0
  itemdestroyFunc := itemdestroyFunc
  destroyed := []

def onTable {α : Type} (x : HashTable.M α) : M α :=
  within AssocArray.hashTable (fun s t => { s with hashTable := t }) x

/-- What `AssocArrayAdd` and `AssocArrayDelete` do with an item that they found. -/
def drop (hashItem : Nat) : M PUnit := do
  let l ← onTable (HashTable.item hashItem)
  let _ ← onTable (HashTable.removeItem hashItem true)
  onTable (HashTable.freeString l.key)
  let s ← get
  match s.itemdestroyFunc with
  | none => return
  | some f => set { s with destroyed := s.destroyed ++ [(f, l.item)] }

/-- `AssocArrayAdd`. -/
def add (strKey : CString) (value : Option Nat) : M PUnit := do
  match ← onTable (HashTable.lookup strKey) with
  | none => pure ()
  | some hashItem => drop hashItem
  let key ← onTable (HashTable.strdup strKey)
  let _ ← onTable (HashTable.addItem (some key) value)
  modify fun s => { s with elemCount := s.elemCount + 1 }

/-- `AssocArrayDelete`. -/
def delete (strKey : CString) : M Bool := do
  match ← onTable (HashTable.lookup strKey) with
  | none => return false
  | some hashItem =>
    drop hashItem
    modify fun s => { s with elemCount := s.elemCount - 1 }
    return true

/-- `AssocArrayLookup`. -/
def lookup (strKey : CString) : M (Option Nat) := do
  match ← onTable (HashTable.lookup strKey) with
  | none => return none
  | some hashItem => return (← onTable (HashTable.item hashItem)).item

def handle : Op (Option Nat) → M PUnit
  | .add strKey value => add strKey value
  | .delete strKey => do
    let _ ← delete strKey
  | .lookup strKey => do
    let _ ← lookup strKey

/-- The array is the map `m`: nothing that was freed was used, a look-up returns the value
of its key, and the elements are counted. -/
structure IsMap (m : AList fun _ : CString => Option Nat) (c : Config Fault AssocArray) : Prop where
  fault : c.fault = none
  lookup : ∀ k, Ends (lookup k) c.state (fun r _ => r = (m.lookup k).join) fun _ _ => False
  elemCount : c.state.elemCount.toNat = m.keys.length

/-- The hash table keeps the map, and its keys are counted. -/
def Models (m : AList fun _ : CString => Option Nat) (s : AssocArray) : Prop :=
  Keeps m s.hashTable ∧ s.elemCount.toNat = m.keys.length

section Steps

variable {m : AList fun _ : CString => Option Nat} {s : AssocArray} {k : CString}

theorem ends_onTable {α : Type} (x : HashTable.M α) {Q : α → AssocArray → Prop}
    {E : Fault → AssocArray → Prop} :
    Ends (onTable x) s Q E ↔
      Ends x s.hashTable (fun r t => Q r { s with hashTable := t })
        fun e t => E e { s with hashTable := t } :=
  ends_within ..

theorem drop_ends (h : Keeps m s.hashTable) {x : Nat}
    (hk : keyOf s.hashTable x = some k) :
    Ends (drop x) s (fun _ t => Keeps (m.erase k) t.hashTable ∧ t.elemCount = s.elemCount)
      fun _ _ => False := by
  obtain ⟨l, kp, hl, hkp, hstring⟩ := keyOf_eq_some.1 hk
  rw [drop, ends_bind, ends_onTable, ends_item hl, ends_bind, ends_onTable]
  refine (removeItem_ends h hk).imp ?_
  rintro r t ⟨-, ht⟩
  have hsome : (t.strings kp).isSome := by
    rw [ht.strings, hstring]
    rfl
  rw [ends_bind, ends_onTable, hkp]
  refine (freeString_ends ht.keeps hsome fun y l' hl' => ht.key_ne hstring hl').imp ?_
  rintro _ u ⟨hu, -⟩
  rw [ends_bind, ends_get]
  cases s.itemdestroyFunc with
  | none => exact ⟨hu, rfl⟩
  | some f => exact ⟨hu, rfl⟩

theorem lookup_ends (h : Keeps m s.hashTable) :
    Ends (lookup k) s (fun r t => t = s ∧ r = (m.lookup k).join) fun _ _ => False := by
  rw [lookup, ends_bind, ends_onTable]
  refine (lookup_keeps h k).imp ?_
  rintro r t ⟨rfl, hr⟩
  cases r with
  | none =>
      rw [hr]
      exact ⟨rfl, rfl⟩
  | some x =>
      obtain ⟨l, hl, -, hlookup⟩ := hr
      rw [hlookup]
      simp only [ends_bind, ends_onTable, ends_item hl, ends_pure]
      exact ⟨trivial, rfl⟩

theorem insert_erase (m : AList fun _ : CString => Option Nat) (k : CString) (v : Option Nat) :
    (m.erase k).insert k v = m.insert k v := by
  have hk : k ∉ (m.erase k).entries.keys := fun hin => (AList.mem_erase.1 hin).1 rfl
  apply AList.ext
  rw [AList.entries_insert, AList.entries_insert, List.kerase_of_notMem_keys hk]
  rfl

theorem insert_ends (h : Keeps m s.hashTable) (hk : k ∉ m) (v : Option Nat) :
    Ends (do
      let key ← onTable (strdup k)
      let _ ← onTable (addItem (some key) v)
      modify fun s => { s with elemCount := s.elemCount + 1 }) s
      (fun _ t => Keeps (m.insert k v) t.hashTable ∧ t.elemCount = s.elemCount + 1)
      fun _ _ => False := by
  rw [ends_bind, ends_onTable]
  refine (strdup_ends h k).imp ?_
  rintro p t ⟨ht, rfl, hstrings⟩
  have hp : t.strings s.hashTable.made = some k := by
    rw [hstrings]
    exact update_self ..
  rw [ends_bind, ends_onTable]
  refine (addItem_ends ht hp hk v).imp ?_
  intro _ u hu
  exact ⟨hu.keeps, rfl⟩

theorem add_ends (h : Keeps m s.hashTable) (k : CString) (v : Option Nat) :
    Ends (add k v) s
      (fun _ t => Keeps (m.insert k v) t.hashTable ∧ t.elemCount = s.elemCount + 1)
      fun _ _ => False := by
  rw [add, ends_bind, ends_onTable]
  refine (lookup_keeps h k).imp ?_
  rintro r t ⟨rfl, hr⟩
  cases r with
  | none => exact insert_ends h (AList.lookup_eq_none.1 hr) v
  | some x =>
      obtain ⟨l, -, hk, -⟩ := hr
      rw [ends_bind]
      refine (drop_ends h hk).imp ?_
      rintro _ t ⟨ht, hcount⟩
      rw [← insert_erase, ← hcount]
      exact insert_ends ht (fun hin => (AList.mem_erase.1 hin).1 rfl) v

theorem delete_ends (h : Models m s) (k : CString) :
    Ends (delete k) s (fun _ t => Models (m.erase k) t) fun _ _ => False := by
  rw [delete, ends_bind, ends_onTable]
  refine (lookup_keeps h.1 k).imp ?_
  rintro r t ⟨rfl, hr⟩
  cases r with
  | none =>
      have hsame : m.erase k = m := by
        apply AList.ext
        exact List.kerase_of_notMem_keys (AList.lookup_eq_none.1 hr)
      rw [hsame]
      exact h
  | some x =>
      obtain ⟨l, -, hk, hlookup⟩ := hr
      have hmem : k ∈ m := AList.lookup_isSome.1 (hlookup ▸ rfl)
      have hlen := length_keys_erase hmem
      rw [ends_bind]
      refine (drop_ends h.1 hk).imp ?_
      rintro _ t ⟨ht, hcount⟩
      refine ⟨ht, ?_⟩
      have hold := h.2
      have hlt := s.elemCount.toNat_lt
      change (t.elemCount - 1).toNat = _
      rw [hcount, UInt32.toNat_sub_of_le _ _ (UInt32.le_iff_toNat_le.2 (by
        change 1 ≤ _
        omega))]
      change s.elemCount.toNat - 1 = _
      omega

theorem Models.isMap (h : Models m s) : IsMap m (.live s) :=
  ⟨rfl, fun _ => (lookup_ends h.1).imp (fun _ _ hr => hr.2), h.2⟩

theorem handle_models (h : Models m s) (o : Op (Option Nat)) (ho : o.Fresh m) :
    Ends (handle o) s (fun _ => Models (o.spec m)) fun _ _ => False := by
  cases o with
  | add k v =>
      have hlen := length_keys_insert ho.1 v
      have hlt := ho.2
      refine (add_ends h.1 k v).imp ?_
      rintro _ t ⟨ht, hcount⟩
      refine ⟨ht, ?_⟩
      have hold := h.2
      rw [Op.spec, hlen, hcount, UInt32.toNat_add, hold]
      exact Nat.mod_eq_of_lt hlt
  | delete k =>
      rw [handle, ends_bind]
      exact (delete_ends h k).imp fun _ _ ht => ht
  | lookup k =>
      rw [handle, ends_bind]
      refine (lookup_ends h.1).imp ?_
      rintro _ t ⟨rfl, -⟩
      exact h

theorem handle_miscounts (h : Models m s) (o : Op (Option Nat)) (ho : ¬o.Fresh m) :
    ¬IsMap (o.spec m) (step handle (.live s) o) := by
  cases o with
  | add k v =>
      intro hmap
      have hold := h.2
      have hlt := s.elemCount.toNat_lt
      have hafter : Holds (fun t : AssocArray => t.elemCount = s.elemCount + 1) (fun _ _ => False)
          (step handle (.live s) (.add k v)) :=
        holds_step_of (c := .live s) (show Holds (Models m) _ _ from h) _ fun _ h =>
          (add_ends h.1 k v).imp fun _ _ ht => ht.2
      have hcount := hmap.elemCount
      rw [hafter.safe.2, UInt32.toNat_add, Op.spec, hold] at hcount
      change (m.keys.length + 1) % 2 ^ 32 = _ at hcount
      by_cases hmem : k ∈ m
      · have hlen := length_keys_erase hmem
        have hkeys : (m.insert k v).keys.length = m.keys.length := by
          rw [AList.keys_insert, List.length_cons, ← AList.keys_erase, hlen]
        omega
      · have hkeys := length_keys_insert hmem v
        have hge : 2 ^ 32 ≤ m.keys.length + 1 := Nat.le_of_not_lt fun hlt => ho ⟨hmem, hlt⟩
        omega
  | delete k => exact (ho trivial).elim
  | lookup k => exact (ho trivial).elim

end Steps

def runFrom (hashTablePrime : Int → Fin hashPrimes.length) (capacity : Int)
    (itemdestroyFunc : Option Nat) (ops : List (Op (Option Nat))) : Config Fault AssocArray :=
  run handle (.live (new hashTablePrime capacity itemdestroyFunc)) ops

theorem isMap_iff (hashTablePrime : Int → Fin hashPrimes.length) (capacity : Int)
    (itemdestroyFunc : Option Nat) (ops : List (Op (Option Nat))) :
    (∀ ops', ops' <+: ops →
        IsMap (Op.map ops') (runFrom hashTablePrime capacity itemdestroyFunc ops')) ↔
      Allowed Op.spec Op.Fresh ∅ ops := by
  have hnew : Models ∅ (new hashTablePrime capacity itemdestroyFunc) :=
    ⟨keeps_new hashTablePrime capacity, rfl⟩
  unfold runFrom Op.map
  exact always_iff_allowed (R := Models) (P := Op.Fresh) (G := IsMap) (fun _ _ h => h.isMap)
    (fun o _ _ h ho => handle_models h o ho) (fun o _ _ h ho => handle_miscounts h o ho) hnew ops

/-- A key that is added twice is counted twice. -/
theorem readd_miscounts :
    ¬IsMap (Op.map [.add ⟨[97], by decide⟩ (some 1), .add ⟨[97], by decide⟩ (some 2)])
      (runFrom (fun _ => ⟨0, by decide⟩) 0 none
        [.add ⟨[97], by decide⟩ (some 1), .add ⟨[97], by decide⟩ (some 2)]) := by
  intro h
  exact absurd h.elemCount (by decide +kernel)

end AssocArray

/-! ## `StringAssocArray` -/

structure StringAssocArray where
  hashTable : BRBHashTable
  elemCount : UInt32

namespace StringAssocArray

open AssocArray (Op)
open HashTable (Fault Keeps hashPrimes)

abbrev M := EStateM Fault StringAssocArray

/-- `StringAssocArrayNew`. -/
def new (hashTablePrime : Int → Fin hashPrimes.length) (capacity : Int) : StringAssocArray where
  hashTable := HashTable.new hashTablePrime strcmp capacity HashTable.stringHash
  elemCount := 0

def onTable {α : Type} (x : HashTable.M α) : M α :=
  within StringAssocArray.hashTable (fun s t => { s with hashTable := t }) x

/-- `StringAssocArrayAdd`. -/
def add (strKey strValue : CString) : M PUnit := do
  match ← onTable (HashTable.lookup strKey) with
  | none => pure ()
  | some hashItem =>
    let _ ← onTable (HashTable.removeItem hashItem true)
    -- the key and the value are read from the item, and not from the copies made before
    onTable (HashTable.freeString (← onTable (HashTable.item hashItem)).key)
    onTable (HashTable.freeString (← onTable (HashTable.item hashItem)).item)
  let key ← onTable (HashTable.strdup strKey)
  let value ← onTable (HashTable.strdup strValue)
  let _ ← onTable (HashTable.addItem (some key) (some value))
  modify fun s => { s with elemCount := s.elemCount + 1 }

/-- `StringAssocArrayDelete`. -/
def delete (strKey : CString) : M Bool := do
  match ← onTable (HashTable.lookup strKey) with
  | none => return false
  | some hashItem =>
    let l ← onTable (HashTable.item hashItem)
    let _ ← onTable (HashTable.removeItem hashItem true)
    onTable (HashTable.freeString l.key)
    onTable (HashTable.freeString l.item)
    modify fun s => { s with elemCount := s.elemCount - 1 }
    return true

/-- `StringAssocArrayLookup`. -/
def lookup (strKey : CString) : M (Option Nat) := do
  match ← onTable (HashTable.lookup strKey) with
  | none => return none
  | some hashItem => return (← onTable (HashTable.item hashItem)).item

def handle : Op CString → M PUnit
  | .add strKey strValue => add strKey strValue
  | .delete strKey => do
    let _ ← delete strKey
  | .lookup strKey => do
    let _ ← lookup strKey

/-- The array is the map `m`: nothing that was freed was used, a look-up returns a copy of
the value of its key, and the elements are counted. -/
structure IsMap (m : AList fun _ : CString => CString) (c : Config Fault StringAssocArray) :
    Prop where
  fault : c.fault = none
  lookup : ∀ k, Ends (lookup k) c.state
    (fun r t => r.isSome = (m.lookup k).isSome ∧ r.bind t.hashTable.strings = m.lookup k)
    fun _ _ => False
  elemCount : c.state.elemCount.toNat = m.keys.length

/-- The hash table keeps the map `mp` from the keys to the copies of the values. Each copy
is of one value, and is no copy of a key. -/
structure Copies (mp : AList fun _ : CString => Option Nat) (m : AList fun _ : CString => CString)
    (t : BRBHashTable) : Prop where
  keeps : Keeps mp t
  keys : m.keys = mp.keys
  value : ∀ k p, mp.lookup k = some p → ∃ vp v, p = some vp ∧ t.strings vp = some v ∧
    m.lookup k = some v
  inj : ∀ k k' vp, mp.lookup k = some (some vp) → mp.lookup k' = some (some vp) → k = k'
  apart : ∀ k vp, mp.lookup k = some (some vp) → ∀ x l, t.items x = some l → l.key ≠ some vp

/-- The hash table keeps copies of the values, and the keys are counted. -/
def Models (m : AList fun _ : CString => CString) (s : StringAssocArray) : Prop :=
  (∃ mp, Copies mp m s.hashTable) ∧ s.elemCount.toNat = m.keys.length

section Steps

variable {mp : AList fun _ : CString => Option Nat} {m : AList fun _ : CString => CString}
  {s : StringAssocArray} {t u : BRBHashTable} {k v : CString}

theorem ends_onTable {α : Type} (x : HashTable.M α) {Q : α → StringAssocArray → Prop}
    {E : Fault → StringAssocArray → Prop} :
    Ends (onTable x) s Q E ↔
      Ends x s.hashTable (fun r t => Q r { s with hashTable := t })
        fun e t => E e { s with hashTable := t } :=
  ends_within ..

theorem Copies.mem (h : Copies mp m t) : k ∈ m ↔ k ∈ mp := by
  rw [AList.mem_keys, AList.mem_keys, h.keys]

theorem lookup_ends (h : Copies mp m s.hashTable) :
    Ends (lookup k) s (fun r t => t = s ∧ r.isSome = (m.lookup k).isSome ∧
      r.bind t.hashTable.strings = m.lookup k) fun _ _ => False := by
  rw [lookup, ends_bind, ends_onTable]
  refine (lookup_keeps h.keeps k).imp ?_
  rintro r t ⟨rfl, hr⟩
  cases r with
  | none =>
      have hnone : m.lookup k = none := by
        rw [AList.lookup_eq_none, h.mem, ← AList.lookup_eq_none, hr]
      rw [hnone]
      exact ⟨rfl, rfl, rfl⟩
  | some x =>
      obtain ⟨l, hl, -, hlookup⟩ := hr
      obtain ⟨vp, v, hvp, hstring, hm⟩ := h.value k _ hlookup
      simp only [ends_bind, ends_onTable, ends_item hl, ends_pure]
      rw [hm, hvp]
      exact ⟨trivial, rfl, hstring⟩

theorem Copies.erase (h : Copies mp m t) {x kp vp : Nat} {l : BRBHashTableItem}
    (hl : t.items x = some l) (hkp : l.key = some kp) (hvp : l.item = some vp)
    (hlookup : mp.lookup k = some l.item) (hu : HashTable.Erased mp k x t u)
    {w : BRBHashTable} (hw : Keeps (mp.erase k) w)
    (heq : w = { u with
      strings := update (update u.strings kp none) vp none }) :
    Copies (mp.erase k) (m.erase k) w := by
  have hback : ∀ {k' p}, (mp.erase k).lookup k' = some p → k' ≠ k ∧ mp.lookup k' = some p := by
    intro k' p hp
    have hne : k' ≠ k := by
      rintro rfl
      rw [AList.lookup_erase] at hp
      cases hp
    exact ⟨hne, AList.lookup_erase_ne hne ▸ hp⟩
  refine ⟨hw, ?_, fun k' p hp => ?_, fun k' k'' q hq hq' => ?_, fun k' q hq y l' hl' => ?_⟩
  · rw [AList.keys_erase, AList.keys_erase, h.keys]
  · obtain ⟨hne, hp⟩ := hback hp
    obtain ⟨q, v, rfl, hstring, hm⟩ := h.value k' p hp
    have hqk : q ≠ kp := by
      rintro rfl
      exact h.apart k' q hp x l hl hkp
    have hqv : q ≠ vp := by
      rintro rfl
      exact hne (h.inj k' k q hp (hlookup.trans (congrArg some hvp)))
    refine ⟨q, v, rfl, ?_, (AList.lookup_erase_ne hne).trans hm⟩
    rw [heq]
    dsimp only
    rw [update_of_ne hqv, update_of_ne hqk, hu.strings, hstring]
  · exact h.inj k' k'' q (hback hq).2 (hback hq').2
  · have hy : y ≠ x := by
      rintro rfl
      rw [heq] at hl'
      exact nomatch hu.gone.symm.trans hl'
    rw [heq] at hl'
    obtain ⟨l'', hl'', hkey, -⟩ := exists_of_payload (hu.payload y hy).symm hl'
    rw [← hkey]
    exact h.apart k' q (hback hq).2 y l'' hl''

theorem Copies.insert (h : Copies mp m t) (hk : k ∉ m)
    (ht : ∀ p, (t.strings p).isSome → p < t.made)
    (hu : HashTable.Added mp k t.made (some (t.made + 1))
      { t with
        strings := update (update t.strings t.made (some k)) (t.made + 1) (some v)
        made := t.made + 2 } u) :
    Copies (mp.insert k (some (t.made + 1))) (m.insert k v) u := by
  have hlt : ∀ {k' vp}, mp.lookup k' = some (some vp) → vp < t.made := by
    intro k' vp hvp
    obtain ⟨vp', v', heq, hstring, -⟩ := h.value k' _ hvp
    cases heq
    exact ht vp (hstring ▸ rfl)
  have hold : ∀ {p}, p < t.made → u.strings p = t.strings p := by
    intro p hp
    rw [hu.strings]
    dsimp only
    rw [update_of_ne (by omega), update_of_ne (by omega)]
  refine ⟨hu.keeps, ?_, fun k' p hp => ?_, fun k' k'' q hq hq' => ?_, fun k' q hq y l hl => ?_⟩
  · rw [AList.keys_insert, AList.keys_insert, h.keys]
  · by_cases heq : k' = k
    · subst heq
      rw [AList.lookup_insert, Option.some.injEq] at hp
      refine ⟨t.made + 1, v, hp.symm, ?_, AList.lookup_insert _⟩
      rw [hu.strings]
      exact update_self ..
    · rw [AList.lookup_insert_ne heq] at hp
      obtain ⟨q, v', rfl, hstring, hm⟩ := h.value k' p hp
      exact ⟨q, v', rfl, (hold (hlt hp)).trans hstring, (AList.lookup_insert_ne heq).trans hm⟩
  · by_cases heq : k' = k
    · by_cases heq' : k'' = k
      · exact heq.trans heq'.symm
      · rw [heq, AList.lookup_insert, Option.some.injEq, Option.some.injEq] at hq
        rw [AList.lookup_insert_ne heq'] at hq'
        have := hlt hq'
        omega
    · rw [AList.lookup_insert_ne heq] at hq
      by_cases heq' : k'' = k
      · rw [heq', AList.lookup_insert, Option.some.injEq, Option.some.injEq] at hq'
        have := hlt hq
        omega
      · rw [AList.lookup_insert_ne heq'] at hq'
        exact h.inj k' k'' q hq hq'
  · by_cases hy : y = t.made + 2
    · obtain ⟨p, hitem⟩ := hu.item
      obtain rfl := Option.some.inj (hl.symm.trans (hy ▸ hitem))
      intro hkey
      have hq' : t.made = q := Option.some.inj hkey
      by_cases heq : k' = k
      · rw [heq, AList.lookup_insert, Option.some.injEq, Option.some.injEq] at hq
        omega
      · rw [AList.lookup_insert_ne heq] at hq
        have := hlt hq
        omega
    · have hl' : t.items y = some l := (hu.items y hy).symm.trans hl
      by_cases heq : k' = k
      · rw [heq, AList.lookup_insert, Option.some.injEq, Option.some.injEq] at hq
        intro hkey
        obtain ⟨chains, hf⟩ := h.keeps.formed
        obtain ⟨i, hi, hin⟩ := hf.owned y (hl' ▸ rfl)
        obtain ⟨k₂, hk₂, -⟩ := hf.home i hi y hin
        obtain ⟨l₂, kp, hl₂, hkp, hstring⟩ := keyOf_eq_some.1 hk₂
        obtain rfl := Option.some.inj (hl'.symm.trans hl₂)
        obtain rfl := Option.some.inj (hkey.symm.trans hkp)
        have := ht q (hstring ▸ rfl)
        omega
      · rw [AList.lookup_insert_ne heq] at hq
        exact h.apart k' q hq y l hl'

theorem add_ends (h : Models m s) (hk : k ∉ m) (v : CString) :
    Ends (add k v) s
      (fun _ t => (∃ mp, Copies mp (m.insert k v) t.hashTable) ∧ t.elemCount = s.elemCount + 1)
      fun _ _ => False := by
  obtain ⟨⟨mp, hcopies⟩, -⟩ := h
  have hmp : k ∉ mp := fun hin => hk (hcopies.mem.2 hin)
  rw [add, ends_bind, ends_onTable]
  refine (lookup_keeps hcopies.keeps k).imp ?_
  rintro r t ⟨rfl, hr⟩
  cases r with
  | some x =>
      obtain ⟨l, -, -, hlookup⟩ := hr
      rw [AList.lookup_eq_none.2 hmp] at hlookup
      cases hlookup
  | none =>
      dsimp only
      rw [ends_bind, ends_onTable]
      refine (strdup_ends hcopies.keeps k).imp ?_
      rintro p t ⟨ht, rfl, htable⟩
      rw [ends_bind, ends_onTable]
      refine (strdup_ends ht v).imp ?_
      rintro p u ⟨hu, rfl, hcopy⟩
      rw [htable] at hcopy
      have hstring : u.strings s.hashTable.made = some k := by
        rw [hcopy]
        dsimp only
        rw [update_of_ne (by omega), update_self]
      have hmade : t.made = s.hashTable.made + 1 := by rw [htable]
      rw [ends_bind, ends_onTable, hmade]
      refine (addItem_ends hu hstring hmp _).imp ?_
      intro _ w hw
      obtain ⟨chains, hformed⟩ := hcopies.keeps.formed
      refine ⟨⟨_, hcopies.insert hk hformed.strings ?_⟩, rfl⟩
      rwa [hcopy] at hw

theorem readd_ends (h : Models m s) (hk : k ∈ m) (v : CString) :
    Ends (add k v) s (fun _ _ => False) fun e _ => e = .freed := by
  obtain ⟨⟨mp, hcopies⟩, -⟩ := h
  rw [add, ends_bind, ends_onTable]
  refine (lookup_keeps hcopies.keeps k).total ?_
  rintro r t ⟨rfl, hr⟩
  cases r with
  | none => exact (AList.lookup_eq_none.1 hr (hcopies.mem.1 hk)).elim
  | some x =>
      obtain ⟨l, -, hkey, -⟩ := hr
      simp only [ends_bind, ends_onTable]
      refine (removeItem_ends hcopies.keeps hkey).total ?_
      rintro r u ⟨-, hu⟩
      simp only [item, ends_bind, ends_get, hu.gone, ends_throw]

theorem delete_ends (h : Models m s) (k : CString) :
    Ends (delete k) s (fun _ t => Models (m.erase k) t) fun _ _ => False := by
  obtain ⟨⟨mp, hcopies⟩, hcount⟩ := h
  rw [delete, ends_bind, ends_onTable]
  refine (lookup_keeps hcopies.keeps k).imp ?_
  rintro r t ⟨rfl, hr⟩
  cases r with
  | none =>
      have hk : k ∉ m := fun hin => AList.lookup_eq_none.1 hr (hcopies.mem.1 hin)
      have hsame : m.erase k = m := by
        apply AList.ext
        exact List.kerase_of_notMem_keys hk
      rw [hsame]
      exact ⟨⟨mp, hcopies⟩, hcount⟩
  | some x =>
      obtain ⟨l, hl, hkey, hlookup⟩ := hr
      obtain ⟨vp, v, hvp, hstring, hm⟩ := hcopies.value k _ hlookup
      obtain ⟨l', kp, hl', hkp, hkeyString⟩ := keyOf_eq_some.1 hkey
      obtain rfl := Option.some.inj (hl.symm.trans hl')
      have hmem : k ∈ m := AList.lookup_isSome.1 (hm ▸ rfl)
      have hlen := length_keys_erase hmem
      have hne : vp ≠ kp := by
        rintro rfl
        exact hcopies.apart k vp (hlookup.trans (congrArg some hvp)) x l hl hkp
      simp only [ends_bind, ends_onTable, ends_item hl]
      refine (removeItem_ends hcopies.keeps hkey).imp ?_
      rintro r u ⟨-, hu⟩
      have hkps : (u.strings kp).isSome := by
        rw [hu.strings, hkeyString]
        rfl
      rw [hkp]
      refine (freeString_ends hu.keeps hkps fun y l' hl' =>
        hu.key_ne hkeyString hl').imp ?_
      rintro _ w ⟨hw, hweq⟩
      have hvps : (w.strings vp).isSome := by
        rw [hweq]
        dsimp only
        rw [update_of_ne hne, hu.strings, hstring]
        rfl
      rw [hvp]
      refine (freeString_ends hw hvps fun y l₁ hl₁ => ?_).imp ?_
      · rw [hweq] at hl₁
        have hy : y ≠ x := by
          rintro rfl
          cases hu.gone.symm.trans hl₁
        obtain ⟨l₂, hl₂, hsame, -⟩ := exists_of_payload (hu.payload y hy).symm hl₁
        rw [← hsame]
        exact hcopies.apart k vp (hlookup.trans (congrArg some hvp)) y l₂ hl₂
      · rintro _ z ⟨hz, hzeq⟩
        refine ⟨⟨_, hcopies.erase hl hkp hvp hlookup hu hz ?_⟩, ?_⟩
        · rw [hzeq, hweq]
        · have hlt := s.elemCount.toNat_lt
          change (s.elemCount - 1).toNat = _
          rw [UInt32.toNat_sub_of_le _ _ (UInt32.le_iff_toNat_le.2 (by
            change 1 ≤ _
            omega))]
          change s.elemCount.toNat - 1 = _
          omega

theorem Models.isMap (h : Models m s) : IsMap m (.live s) := by
  obtain ⟨⟨mp, hcopies⟩, hcount⟩ := h
  exact ⟨rfl, fun _ => (lookup_ends hcopies).imp (fun _ _ hr => hr.2), hcount⟩

theorem handle_models (h : Models m s) (o : Op CString) (ho : o.Fresh m) :
    Ends (handle o) s (fun _ => Models (o.spec m)) fun _ _ => False := by
  cases o with
  | add k v =>
      have hlen := length_keys_insert ho.1 v
      have hlt := ho.2
      refine (add_ends h ho.1 v).imp ?_
      rintro _ t ⟨ht, hcount⟩
      refine ⟨ht, ?_⟩
      have hold := h.2
      rw [Op.spec, hlen, hcount, UInt32.toNat_add, hold]
      exact Nat.mod_eq_of_lt hlt
  | delete k =>
      rw [handle, ends_bind]
      exact (delete_ends h k).imp fun _ _ ht => ht
  | lookup k =>
      have ⟨⟨mp, hcopies⟩, _⟩ := h
      rw [handle, ends_bind]
      refine (lookup_ends hcopies).imp ?_
      rintro _ t ⟨rfl, -⟩
      exact h

theorem handle_spoils (h : Models m s) (o : Op CString) (ho : ¬o.Fresh m) :
    ¬IsMap (o.spec m) (step handle (.live s) o) := by
  cases o with
  | add k v =>
      intro hmap
      by_cases hmem : k ∈ m
      · have hafter : Holds (fun _ : StringAssocArray => False) (fun _ _ => True)
            (step handle (.live s) (.add k v)) :=
          holds_step_of (c := .live s) (show Holds (Models m) _ _ from h) _ fun _ h =>
            (readd_ends h hmem v).mono (fun _ _ hf => hf) fun _ _ _ => trivial
        exact hafter.of_live hmap.fault
      · have hold := h.2
        have hlt := s.elemCount.toNat_lt
        have hafter : Holds (fun t : StringAssocArray => t.elemCount = s.elemCount + 1)
            (fun _ _ => False) (step handle (.live s) (.add k v)) :=
          holds_step_of (c := .live s) (show Holds (Models m) _ _ from h) _ fun _ h =>
            (add_ends h hmem v).imp fun _ _ ht => ht.2
        have hcount := hmap.elemCount
        rw [hafter.safe.2, UInt32.toNat_add, Op.spec, hold] at hcount
        change (m.keys.length + 1) % 2 ^ 32 = _ at hcount
        have hkeys := length_keys_insert hmem v
        have hge : 2 ^ 32 ≤ m.keys.length + 1 := Nat.le_of_not_lt fun hlt => ho ⟨hmem, hlt⟩
        omega
  | delete k => exact (ho trivial).elim
  | lookup k => exact (ho trivial).elim

end Steps

def runFrom (hashTablePrime : Int → Fin hashPrimes.length) (capacity : Int)
    (ops : List (Op CString)) : Config Fault StringAssocArray :=
  run handle (.live (new hashTablePrime capacity)) ops

theorem isMap_iff (hashTablePrime : Int → Fin hashPrimes.length) (capacity : Int)
    (ops : List (Op CString)) :
    (∀ ops', ops' <+: ops → IsMap (Op.map ops') (runFrom hashTablePrime capacity ops')) ↔
      Allowed Op.spec Op.Fresh ∅ ops := by
  have hcopies : Copies ∅ ∅ (new hashTablePrime capacity).hashTable :=
    ⟨keeps_new hashTablePrime capacity, rfl, nofun, nofun, nofun⟩
  have hnew : Models ∅ (new hashTablePrime capacity) := ⟨⟨∅, hcopies⟩, rfl⟩
  unfold runFrom Op.map
  exact always_iff_allowed (R := Models) (P := Op.Fresh) (G := IsMap) (fun _ _ h => h.isMap)
    (fun o _ _ h ho => handle_models h o ho) (fun o _ _ h ho => handle_spoils h o ho) hnew ops

end StringAssocArray

/-- **The arrays are finite maps.**  An array is the map of the operations after each of
them, if and only if no key is added that is there and the keys are fewer than `2 ^ 32`. -/
theorem assocArrays_areMaps (hashTablePrime : Int → Fin hashPrimes.length)
    (capacity : Int) (itemdestroyFunc : Option Nat) :
    (∀ ops, (∀ ops', ops' <+: ops → AssocArray.IsMap (AssocArray.Op.map ops')
        (AssocArray.runFrom hashTablePrime capacity itemdestroyFunc ops')) ↔
      Allowed AssocArray.Op.spec AssocArray.Op.Fresh ∅ ops) ∧
    ∀ ops, (∀ ops', ops' <+: ops → StringAssocArray.IsMap (AssocArray.Op.map ops')
        (StringAssocArray.runFrom hashTablePrime capacity ops')) ↔
      Allowed AssocArray.Op.spec AssocArray.Op.Fresh ∅ ops :=
  ⟨AssocArray.isMap_iff hashTablePrime capacity itemdestroyFunc,
    StringAssocArray.isMap_iff hashTablePrime capacity⟩

end BrbData
