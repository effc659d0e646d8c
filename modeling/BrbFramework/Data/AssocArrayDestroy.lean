import Mathlib.Data.List.Flatten
import BrbFramework.Data.AssocArray

/-!
# The walk over a `BRBHashTable`, and `AssocArrayDestroy`

A walk holds the pointer to the item behind the one that it has returned, and a removal
moves that pointer on if it leads to the item that is removed. `AssocArrayDestroy` removes
each item that its walk returns, the first of them while the pointer still leads to it.

`destroy_destroysEach` is what comes of it: each item is destroyed once.
-/

namespace BrbData

open Handler Chains Runs List Function HashTable

namespace HashTable

/-! ## The walk -/

/-- The next bucket that is not empty, where a walk has come to the end of one. -/
def skipBuckets : M PUnit := do
  let hid ← get
  if hid.next.isNone then nextBucket hid.size.toNat

/-- `HashTableFirstItem`, which leaves the pointer at the item that it returns. -/
def firstItem : M (Option Nat) := do
  modify fun hid => { hid with currentSlot := 0 }
  let head ← bucket 0
  modify fun hid => { hid with next := head }
  skipBuckets
  return (← get).next

/-- `HashTableNextItem`. -/
def nextItem : M (Option Nat) := do
  match (← get).next with
  | none => return none
  | some this =>
    let l ← item this
    modify fun hid => { hid with next := l.next }
    skipBuckets
    return some this

/-- `HashTableFreeMemory`: no bucket is left. -/
def freeMemory : M PUnit :=
  modify fun hid => { hid with buckets := fun _ => none, size := 0 }

/-- The items in the buckets from `slot` on, in the order of a walk. -/
def itemsFrom (chains : Nat → List Nat) (size slot : Nat) : List Nat :=
  ((List.range size).drop slot).flatMap chains

/-- The pointer of a walk and its slot have the items `xs` before them. -/
def Stands (t : BRBHashTable) (chains : Nat → List Nat) (xs : List Nat) : Prop :=
  match t.next with
  | none => xs = []
  | some y => t.currentSlot < t.size.toNat ∧
      ∃ ys, (y :: ys) <:+ chains t.currentSlot ∧
        xs = y :: ys ++ itemsFrom chains t.size.toNat (t.currentSlot + 1)

def quiet (t : BRBHashTable) : BRBHashTable := { t with next := none, currentSlot := 0 }

section Walk

variable {t : BRBHashTable} {chains : Nat → List Nat} {k : CString} {x y size slot : Nat}
  {xs : List Nat}

theorem itemsFrom_of_lt (h : slot < size) :
    itemsFrom chains size slot = chains slot ++ itemsFrom chains size (slot + 1) := by
  have hdrop : (List.range size).drop slot = slot :: (List.range size).drop (slot + 1) := by
    rw [drop_eq_getElem_cons (by simpa using h), getElem_range]
  rw [itemsFrom, hdrop, flatMap_cons]
  rfl

theorem itemsFrom_of_le (h : size ≤ slot) : itemsFrom chains size slot = [] := by
  rw [itemsFrom, drop_of_length_le (by simpa using h)]
  rfl

theorem mem_itemsFrom_zero : x ∈ itemsFrom chains size 0 ↔ ∃ i < size, x ∈ chains i := by
  simp [itemsFrom]

theorem itemsFrom_update {a : Nat} {zs : List Nat} (h : a < slot) :
    itemsFrom (update chains a zs) size slot = itemsFrom chains size slot := by
  unfold itemsFrom
  apply flatMap_congr
  intro i hi
  have hslot : slot ≤ i := by
    obtain ⟨j, hj, rfl⟩ := mem_drop_iff_getElem.1 hi
    simp
  exact update_of_ne (by omega) ..

theorem itemsFrom_cons (h : itemsFrom chains size slot = x :: xs) :
    ∃ a, slot ≤ a ∧ a < size ∧ (∀ j, slot ≤ j → j < a → chains j = []) ∧
      ∃ ys, chains a = x :: ys ∧ xs = ys ++ itemsFrom chains size (a + 1) := by
  induction hn : size - slot generalizing slot with
  | zero =>
      rw [itemsFrom_of_le (by omega)] at h
      cases h
  | succ n ih =>
      have hlt : slot < size := by omega
      rw [itemsFrom_of_lt hlt] at h
      cases hchain : chains slot with
      | nil =>
          rw [hchain, nil_append] at h
          obtain ⟨a, hle, ha, hempty, hrest⟩ := ih h (by omega)
          refine ⟨a, by omega, ha, fun j hj hja => ?_, hrest⟩
          rcases Nat.eq_or_lt_of_le hj with rfl | hj
          · exact hchain
          · exact hempty j hj hja
      | cons y ys =>
          rw [hchain, cons_append] at h
          obtain ⟨rfl, hxs⟩ := List.cons.inj h
          exact ⟨slot, Nat.le_refl _, hlt, fun j hj hja => absurd hja (by omega), ys, hchain,
            hxs.symm⟩

theorem itemsFrom_of_empty {a : Nat} (hle : slot ≤ a)
    (hempty : ∀ j, slot ≤ j → j < a → chains j = []) :
    itemsFrom chains size slot = itemsFrom chains size a := by
  induction hn : a - slot generalizing slot with
  | zero =>
      obtain rfl : slot = a := by omega
      rfl
  | succ n ih =>
      have hslot := hempty slot (Nat.le_refl _) (by omega)
      have hbehind : slot + 1 ≤ a := by omega
      rw [← ih hbehind (fun j hj hja => hempty j (by omega) hja) (by omega)]
      by_cases hlt : slot < size
      · rw [itemsFrom_of_lt hlt, hslot, nil_append]
      · rw [itemsFrom_of_le (by omega), itemsFrom_of_le (by omega)]

theorem Formed.itemsFrom_nodup (h : Formed t chains) :
    (itemsFrom chains t.size.toNat slot).Nodup := by
  have hall : (itemsFrom chains t.size.toNat 0).Nodup := by
    unfold itemsFrom
    rw [drop_zero, nodup_flatMap]
    refine ⟨fun i hi => h.nodup i (mem_range.1 hi), ?_⟩
    apply nodup_range.imp_of_mem
    intro i j hi hj hne x hx hx'
    obtain ⟨k, hk, hi'⟩ := h.home i (mem_range.1 hi) x hx
    obtain ⟨k', hk', hj'⟩ := h.home j (mem_range.1 hj) x hx'
    obtain rfl : k = k' := Option.some.inj (hk.symm.trans hk')
    exact hne (hi'.symm.trans hj')
  exact hall.sublist ((drop_sublist_drop_left _ (Nat.zero_le slot)).flatMap chains)

/-! ### The steps -/

theorem stands_none (h : t.next = none) : Stands t chains xs ↔ xs = [] := by
  rw [Stands, h]

theorem stands_some (h : t.next = some y) :
    Stands t chains xs ↔ t.currentSlot < t.size.toNat ∧
      ∃ ys, (y :: ys) <:+ chains t.currentSlot ∧
        xs = y :: ys ++ itemsFrom chains t.size.toNat (t.currentSlot + 1) := by
  rw [Stands, h]

theorem Stands.next (h : Stands t chains xs) : t.next = xs.head? := by
  cases hnext : t.next with
  | none => rw [(stands_none hnext).1 h, head?_nil]
  | some y =>
      obtain ⟨-, ys, -, rfl⟩ := (stands_some hnext).1 h
      rfl

theorem stands_of_cons {zs : List Nat} (hlt : t.currentSlot < t.size.toNat)
    (hnext : t.next = some y) (hzs : (y :: zs) <:+ chains t.currentSlot) :
    Stands t chains (y :: zs ++ itemsFrom chains t.size.toNat (t.currentSlot + 1)) :=
  (stands_some hnext).2 ⟨hlt, zs, hzs, rfl⟩

theorem nextBucket_of_some (n : Nat) (h : t.next = some y) :
    Ends (nextBucket n) t (fun _ u => u = t) fun _ _ => False := by
  cases n with
  | zero => rfl
  | succ n =>
      rw [nextBucket, ends_bind, ends_get, if_pos (by rw [h]; rfl)]
      rfl

theorem nextBucket_ends {n : Nat} (hnext : t.next = none) (hn : t.size.toNat ≤ t.currentSlot + n)
    (hhead : ∀ i < t.size.toNat, t.buckets i = (chains i).head?) :
    Ends (nextBucket n) t
      (fun _ u => quiet u = quiet t ∧
        Stands u chains (itemsFrom chains t.size.toNat (t.currentSlot + 1))) fun _ _ => False := by
  induction n generalizing t with
  | zero =>
      refine ⟨rfl, ?_⟩
      rw [stands_none hnext, itemsFrom_of_le (by omega)]
  | succ n ih =>
      rw [nextBucket, ends_bind, ends_get, if_neg (by rw [hnext]; simp), ends_bind, ends_set]
      by_cases hlt : t.currentSlot + 1 < t.size.toNat
      · rw [if_pos hlt, ends_bind, ends_modify]
        obtain ⟨u, hu⟩ : ∃ u, u = { t with currentSlot := t.currentSlot + 1
                                           next := t.buckets (t.currentSlot + 1) } := ⟨_, rfl⟩
        rw [← hu, itemsFrom_of_lt hlt]
        have hslot : u.currentSlot = t.currentSlot + 1 := by rw [hu]
        have hsize : u.size = t.size := by rw [hu]
        have hunext : u.next = (chains u.currentSlot).head? := by
          rw [hslot, ← hhead _ hlt, hu]
        have hquiet : quiet u = quiet t := by rw [hu]; rfl
        rw [← hslot, ← hsize]
        cases hchain : chains u.currentSlot with
        | nil =>
            rw [hchain] at hunext
            refine (ih hunext (by rw [hsize, hslot]; omega) (by rw [hu]; exact hhead)).imp ?_
            rintro _ w ⟨hw, hstands⟩
            exact ⟨hw.trans hquiet, hstands⟩
        | cons y ys =>
            rw [hchain] at hunext
            refine (nextBucket_of_some n hunext).imp ?_
            rintro _ w rfl
            refine ⟨hquiet, stands_of_cons (by rw [hsize, hslot]; exact hlt) hunext ?_⟩
            exact ⟨[], hchain.symm⟩
      · rw [if_neg hlt, ends_pure]
        refine ⟨rfl, (stands_none (by exact hnext)).2 ?_⟩
        exact itemsFrom_of_le (by omega)

theorem skipBuckets_ends (zs : List Nat) (hlt : t.currentSlot < t.size.toNat)
    (hzs : zs <:+ chains t.currentSlot) (hnext : t.next = zs.head?)
    (hhead : ∀ i < t.size.toNat, t.buckets i = (chains i).head?) :
    Ends skipBuckets t
      (fun _ u => quiet u = quiet t ∧
        Stands u chains (zs ++ itemsFrom chains t.size.toNat (t.currentSlot + 1)))
      fun _ _ => False := by
  rw [skipBuckets, ends_bind, ends_get]
  cases zs with
  | nil =>
      rw [if_pos (by rw [hnext]; rfl), nil_append]
      exact nextBucket_ends hnext (by omega) hhead
  | cons y ys =>
      rw [if_neg (by rw [hnext]; simp), ends_pure]
      exact ⟨rfl, stands_of_cons hlt hnext hzs⟩

theorem Formed.bucket_eq (h : Formed t chains) {i : Nat} (hi : i < t.size.toNat) :
    t.buckets i = (chains i).head? := by
  have hchain := h.chain i hi
  cases hc : chains i with
  | nil =>
      rw [hc] at hchain
      exact hchain
  | cons x xs =>
      rw [hc] at hchain
      exact hchain.1

theorem next_of_suffix {p : Option Nat} {l : BRBHashTableItem} {ys : List Nat}
    (hc : Chain BRBHashTableItem.next t.items p xs) (hys : (y :: ys) <:+ xs)
    (hl : t.items y = some l) : l.next = ys.head? := by
  induction xs generalizing p with
  | nil => cases suffix_nil.1 hys
  | cons x xs ih =>
      obtain ⟨-, l', hl', hrest⟩ := hc
      rcases suffix_cons_iff.1 hys with heq | hys
      · obtain ⟨rfl, rfl⟩ := List.cons.inj heq
        obtain rfl := Option.some.inj (hl.symm.trans hl')
        cases ys with
        | nil => exact hrest
        | cons z zs => exact hrest.1
      · exact ih hrest hys

theorem firstItem_ends (h : Formed (quiet t) chains) (hsize : 0 < t.size.toNat) :
    Ends firstItem t
      (fun r u => r = (itemsFrom chains t.size.toNat 0).head? ∧ quiet u = quiet t ∧
        Stands u chains (itemsFrom chains t.size.toNat 0)) fun _ _ => False := by
  simp only [firstItem, ends_bind, ends_modify, ends_get]
  rw [ends_bucket (by exact hsize)]
  refine (skipBuckets_ends (t := { t with currentSlot := 0, next := t.buckets 0 }) (chains 0) hsize
    suffix_rfl (h.bucket_eq hsize) fun i hi => h.bucket_eq hi).imp ?_
  rintro _ u ⟨hu, hstands⟩
  rw [ends_pure]
  change Stands u chains (chains 0 ++ itemsFrom chains t.size.toNat 1) at hstands
  rw [← itemsFrom_of_lt hsize] at hstands
  exact ⟨hstands.next, hu, hstands⟩

theorem nextItem_ends (h : Formed (quiet t) chains) (hstands : Stands t chains xs) :
    Ends nextItem t
      (fun r u => r = xs.head? ∧ quiet u = quiet t ∧ Stands u chains xs.tail) fun _ _ => False := by
  rw [nextItem, ends_bind, ends_get, hstands.next]
  cases hnext : t.next with
  | none =>
      obtain rfl := (stands_none hnext).1 hstands
      exact ⟨rfl, rfl, hstands⟩
  | some y =>
      obtain ⟨hlt, ys, hys, rfl⟩ := (stands_some hnext).1 hstands
      have hchain := h.chain t.currentSlot hlt
      obtain ⟨l, hl⟩ := hchain.allocated (hys.subset mem_cons_self)
      dsimp only [cons_append, head?_cons]
      rw [ends_bind, ends_item (by exact hl), ends_bind, ends_modify, ends_bind]
      refine (skipBuckets_ends (t := { t with next := l.next }) ys hlt
        ((suffix_cons y ys).trans hys) (next_of_suffix hchain hys hl) fun i hi =>
          h.bucket_eq hi).imp ?_
      rintro _ u ⟨hu, hstands⟩
      exact ⟨rfl, hu, hstands⟩

/-! ### The removal of the first item -/

/-- The first item of a walk is removed, and the walk has the others before it. -/
structure Passed (x : Nat) (xs : List Nat) (t u : BRBHashTable) : Prop where
  formed : ∃ chains, Formed (quiet u) chains ∧ itemsFrom chains u.size.toNat 0 = xs ∧
    Stands u chains xs
  gone : u.items x = none
  payload : ∀ y, y ≠ x → (u.items y).map payload = (t.items y).map payload
  strings : u.strings = t.strings
  made : u.made = t.made

theorem Stands.pass {u : BRBHashTable} {a : Nat} {ys : List Nat} (h : Stands t chains xs)
    (hchain : chains a = x :: ys) (hempty : ∀ j < a, chains j = []) (hne : t.next ≠ some x)
    (hnext : u.next = t.next) (hslot : u.currentSlot = t.currentSlot) (hsize : u.size = t.size) :
    Stands u (update chains a ys) xs := by
  cases hy : t.next with
  | none =>
      rw [(stands_none hy).1 h]
      exact (stands_none (hnext.trans hy)).2 rfl
  | some y =>
      obtain ⟨hlt, zs, hzs, hxs⟩ := (stands_some hy).1 h
      have hle : a ≤ t.currentSlot := by
        by_contra hlt
        rw [hempty _ (by omega)] at hzs
        cases suffix_nil.1 hzs
      rw [stands_some (hnext.trans hy), hslot, hsize, itemsFrom_update (by omega)]
      refine ⟨hlt, zs, ?_, hxs⟩
      by_cases heq : t.currentSlot = a
      · rw [heq, hchain] at hzs
        rw [heq, update_self]
        rcases suffix_cons_iff.1 hzs with hcons | hzs
        · obtain ⟨rfl, -⟩ := List.cons.inj hcons
          exact absurd hy hne
        · exact hzs
      · rw [update_of_ne heq]
        exact hzs

theorem eq_of_quiet {u : BRBHashTable} (h : quiet u = quiet t) :
    u = { t with next := u.next, currentSlot := u.currentSlot } := by
  cases u
  cases t
  cases h
  rfl

/-- A table without the first item `x` of the bucket `a`, which has the link `p`. -/
def beheaded (t : BRBHashTable) (a x : Nat) (p : Option Nat) : BRBHashTable :=
  { t with
    buckets := Function.update t.buckets a p
    items := Function.update t.items x none
    count := t.count - 1 }

theorem Formed.behead {l : BRBHashTableItem} {ys : List Nat} (h : Formed (quiet t) chains)
    (hk : keyOf t x = some k) (hchain : chains (t.hash k t.size).toNat = x :: ys)
    (hl : t.items x = some l) :
    Unlinked (.bucket (t.hash k t.size).toNat) x (x :: ys) (quiet t)
        (quiet (beheaded t (t.hash k t.size).toNat x l.next)) ∧
      Formed (quiet (beheaded t (t.hash k t.size).toNat x l.next))
        (update chains (t.hash k t.size).toNat ys) := by
  have ha : (t.hash k t.size).toNat < t.size.toNat := h.hash k
  have hchain' := h.chain _ ha
  have hnodup := h.nodup _ ha
  rw [hchain] at hchain' hnodup
  obtain ⟨-, l', hl', hrest⟩ := hchain'
  obtain rfl : l = l' := Option.some.inj (hl.symm.trans hl')
  have hun := Unlinked.head (t := quiet t) (P := .bucket _) ha hl hnodup hrest
  rw [Link.write, ends_setBucket (by exact ha)] at hun
  have herase := h.erase hk (by exact hchain ▸ hun.2)
  change Formed _ (update chains (t.hash k t.size).toNat
    ((chains (t.hash k t.size).toNat).erase x)) at herase
  rw [hchain, erase_cons_head] at herase
  exact ⟨hun.2, herase⟩

theorem removeItem_passes (h : Formed (quiet t) chains)
    (hall : itemsFrom chains t.size.toNat 0 = x :: xs)
    (hstands : Stands t chains (x :: xs) ∨ Stands t chains xs) :
    Ends (removeItem x true) t (fun r u => r = true ∧ Passed x xs t u) fun _ _ => False := by
  obtain ⟨a, -, ha, hempty, ys, hchain, hxs⟩ := itemsFrom_cons hall
  obtain ⟨k, hk, hhome⟩ := h.home a ha x (by rw [hchain]; exact mem_cons_self)
  obtain rfl : (t.hash k t.size).toNat = a := hhome
  change keyOf t x = some k at hk
  obtain ⟨l, kp, hl, hkp, hstring⟩ := keyOf_eq_some.1 hk
  have hbucket := h.bucket_eq ha
  have hlink : l.next = ys.head? := next_of_suffix (h.chain _ ha)
    ⟨[], hchain.symm⟩ hl
  have hitems : (itemsFrom chains t.size.toNat 0).Nodup := h.itemsFrom_nodup
  rw [hall] at hitems
  have hx : x ∉ xs := (nodup_cons.1 hitems).1
  obtain ⟨hun, hformed⟩ := h.behead hk hchain hl
  have hleft :
      itemsFrom (update chains (t.hash k t.size).toNat ys) t.size.toNat 0 = xs := by
    rw [itemsFrom_of_empty (Nat.zero_le _), itemsFrom_of_lt ha, update_self,
      itemsFrom_update (Nat.lt_succ_self _), hxs]
    intro j _ hj
    rw [update_of_ne (Nat.ne_of_lt hj)]
    exact hempty j (Nat.zero_le j) hj
  obtain ⟨w, hw⟩ : ∃ w, w = { t with buckets := update t.buckets (t.hash k t.size).toNat
                                       l.next } := ⟨_, rfl⟩
  have hslotw : w.currentSlot = t.currentSlot := by rw [hw]
  have hsizew : w.size = t.size := by rw [hw]
  -- whatever the walk does, the item is freed behind it
  have hpassed : ∀ u, quiet u = quiet w →
      Stands u (update chains (t.hash k t.size).toNat ys) xs →
      Passed x xs t { u with items := update u.items x none, count := u.count - 1 } := by
    intro u hu hus
    have heq : u = { w with next := u.next, currentSlot := u.currentSlot } := eq_of_quiet hu
    have hquiet : quiet { u with items := update u.items x none, count := u.count - 1 } =
        quiet (beheaded t (t.hash k t.size).toNat x l.next) := by
      rw [heq, hw]
      rfl
    have hsize : u.size = t.size := by rw [heq, hsizew]
    refine ⟨⟨_, by rw [hquiet]; exact hformed, by rw [← hleft, ← hsize], hus⟩,
      update_self .., fun y hy => ?_, by rw [heq, hw], by rw [heq, hw]⟩
    have hitem := hun.payload y hy
    rw [← hquiet] at hitem
    exact hitem
  rw [hchain] at hbucket
  change t.buckets _ = some x at hbucket
  rw [removeItem, ends_bind, ends_item hl, ends_bind, ends_get, ends_bind, hkp,
    ends_string hstring, removeLoop.eq_def, ends_bind, Link.read, ends_bucket ha]
  simp only [hbucket, ne_eq, not_true, if_false, if_true]
  rw [ends_bind, ends_item hl, ends_bind, Link.write, ends_setBucket ha, ← hw, ends_bind, ends_get]
  by_cases hnext : t.next = some x
  · -- the walk still leads to the item, and goes on
    have hbefore : Stands t chains (x :: xs) := by
      refine hstands.resolve_right fun hpast => hx (mem_of_mem_head? ?_)
      rw [← hpast.next]
      exact hnext
    obtain ⟨hlt, zs, hzs, -⟩ := (stands_some hnext).1 hbefore
    have hslot : (t.hash k t.size).toNat = t.currentSlot := by
      obtain ⟨k', hk', hslot⟩ := h.home _ hlt x (hzs.subset mem_cons_self)
      obtain rfl : k' = k := Option.some.inj (hk'.symm.trans hk)
      exact hslot
    have hskip : Ends skipBuckets { w with next := l.next }
        (fun _ u => quiet u = quiet w ∧
          Stands u (update chains (t.hash k t.size).toNat ys) xs) fun _ _ => False := by
      refine (@skipBuckets_ends { w with next := l.next }
        (update chains (t.hash k t.size).toNat ys) ys (by rw [hslotw, hsizew]; exact hlt)
        (by rw [hslotw, ← hslot]; exact ⟨[], by rw [update_self, nil_append]⟩) hlink
        fun i hi => ?_).imp ?_
      · rw [← hformed.bucket_eq (by rw [hsizew] at hi; exact hi), hw]
        rfl
      · rintro _ u ⟨hu, hus⟩
        dsimp only at hus
        rw [hslotw, hsizew, ← hslot, itemsFrom_update (Nat.lt_succ_self _), ← hxs] at hus
        exact ⟨hu, hus⟩
    rw [skipBuckets, ends_bind, ends_get] at hskip
    rw [if_pos (by rw [hw]; exact hnext), ends_bind, ends_set]
    cases hlast : l.next.isNone
    · simp only [hlast, Bool.false_eq_true, if_false, ends_bind, ends_modify, ends_pure] at hskip ⊢
      exact ⟨trivial, hpassed _ hskip.1 hskip.2⟩
    · simp only [hlast, if_true, ends_bind, ends_modify, ends_pure] at hskip ⊢
      refine hskip.imp ?_
      rintro _ u ⟨hu, hus⟩
      exact ⟨trivial, hpassed u hu hus⟩
  · rw [if_neg (by rw [hw]; exact hnext)]
    simp only [ends_bind, ends_modify, ends_pure]
    refine ⟨trivial, hpassed w rfl ?_⟩
    have hpast : Stands t chains xs := hstands.resolve_left fun hbefore => hnext hbefore.next
    exact hpast.pass hchain (fun j hj => hempty j (Nat.zero_le j) hj) hnext (by rw [hw]) hslotw
      hsizew

end Walk

/-! ## Any content -/

def KeysApart (t : BRBHashTable) : Prop :=
  ∀ x y l l', t.items x = some l → t.items y = some l' → l.key = l'.key → x = y

/-- A table with any items, also with some that have equal keys. -/
structure Stored (t : BRBHashTable) : Prop where
  formed : ∃ chains, Formed t chains
  apart : KeysApart t

section Stored

variable {t u : BRBHashTable} {chains : Nat → List Nat} {k : CString} {x kp : Nat}

theorem KeysApart.congr (h : KeysApart t) (hgone : u.items x = none)
    (hpayload : ∀ y, y ≠ x → (u.items y).map payload = (t.items y).map payload) : KeysApart u := by
  have hback : ∀ y l, u.items y = some l → ∃ l', t.items y = some l' ∧ l'.key = l.key := by
    intro y l hl
    have hne : y ≠ x := by
      rintro rfl
      cases hgone.symm.trans hl
    obtain ⟨l', hl', hkey, -⟩ := exists_of_payload (hpayload y hne).symm hl
    exact ⟨l', hl', hkey⟩
  intro y z l l' hl hl' hkey
  obtain ⟨m, hm, hmkey⟩ := hback y l hl
  obtain ⟨m', hm', hmkey'⟩ := hback z l' hl'
  exact h y z m m' hm hm' (by rw [hmkey, hmkey', hkey])

theorem Formed.freeKey (h : Formed u chains) (hapart : KeysApart t) {l : BRBHashTableItem}
    (hl : t.items x = some l) (hkp : l.key = some kp) (hgone : u.items x = none)
    (hpayload : ∀ y, y ≠ x → (u.items y).map payload = (t.items y).map payload) :
    Formed { u with strings := update u.strings kp none } chains := by
  refine h.setStrings (fun y l' q hl' hq => update_of_ne ?_ ..) (fun q hq => ?_)
    (Nat.le_refl _)
  · rintro rfl
    have hne : y ≠ x := by
      rintro rfl
      cases hgone.symm.trans hl'
    obtain ⟨m, hm, hkey, -⟩ := exists_of_payload (hpayload y hne).symm hl'
    exact hne (hapart y x m l hm hl (by rw [hkey, hq, hkp]))
  · by_cases heq : q = kp
    · subst heq
      rw [update_self] at hq
      cases hq
    · rw [update_of_ne heq] at hq
      exact h.strings q hq

theorem ends_freeString (hkp : t.strings kp = some k) {Q : PUnit → BRBHashTable → Prop}
    {E : Fault → BRBHashTable → Prop} :
    Ends (freeString (some kp)) t Q E ↔
      Q PUnit.unit { t with strings := update t.strings kp none } := by
  simp only [freeString, ends_bind, ends_get, hkp, Option.isNone_some, Bool.false_eq_true, if_false,
    ends_set]

end Stored

end HashTable

/-! ## `AssocArrayDestroy` -/

namespace AssocArray

open HashTable (Fault Formed Stored KeysApart Stands hashPrimes itemsFrom keyOf quiet)

/-- `AssocArrayAddNoCheck`. -/
def addNoCheck (strKey : CString) (value : Option Nat) : M PUnit := do
  let key ← onTable (HashTable.strdup strKey)
  let _ ← onTable (HashTable.addItem (some key) value)
  modify fun s => { s with elemCount := s.elemCount + 1 }

/-- The loop of `AssocArrayDestroy`. -/
def destroyLoop : Nat → Option Nat → M PUnit
  | _, none => return
  | 0, some _ => throw .hung
  | n + 1, some hashItem => do
    drop hashItem
    destroyLoop n (← onTable HashTable.nextItem)

/-- `AssocArrayDestroy`, which frees the array and its table in the end. -/
def destroy : M PUnit := do
  let first ← onTable HashTable.firstItem
  destroyLoop (← get).hashTable.made first
  onTable HashTable.freeMemory

def valueOf (t : BRBHashTable) (x : Nat) : Option Nat := (t.items x).bind BRBHashTableItem.item

/-- A call of the destroy function, if there is one, for each of some items. -/
def calls (itemdestroyFunc : Option Nat) (t : BRBHashTable) (xs : List Nat) :
    List (Nat × Option Nat) :=
  match itemdestroyFunc with
  | none => []
  | some f => xs.map fun x => (f, valueOf t x)

/-- The destruction of an array ends. It calls the destroy function once for each stored
value, and leaves no item. -/
def DestroysEach (s : AssocArray) : Prop :=
  Ends destroy s (fun _ u =>
      (∃ xs : List Nat, xs.Nodup ∧ (∀ x, x ∈ xs ↔ (s.hashTable.items x).isSome) ∧
        u.destroyed = s.destroyed ++ calls s.itemdestroyFunc s.hashTable xs) ∧
      ∀ x, u.hashTable.items x = none)
    fun _ _ => False

section Destroy

variable {s : AssocArray} {t u : BRBHashTable} {x : Nat} {xs : List Nat}

theorem calls_cons (f : Option Nat) (t : BRBHashTable) (x : Nat) (xs : List Nat) :
    calls f t (x :: xs) = calls f t [x] ++ calls f t xs := by
  cases f <;> rfl

theorem calls_congr (f : Option Nat)
    (h : ∀ y ∈ xs, (u.items y).map payload = (t.items y).map payload) :
    calls f u xs = calls f t xs := by
  cases f with
  | none => rfl
  | some f =>
      apply map_congr_left
      intro y hy
      have hitem := congrArg (Option.map Prod.snd) (h y hy)
      rw [Option.map_map, Option.map_map] at hitem
      have hjoin : ∀ o : Option BRBHashTableItem,
          o.bind BRBHashTableItem.item = (o.map (Prod.snd ∘ payload)).join := by
        intro o
        cases o <;> rfl
      rw [valueOf, valueOf, hjoin, hjoin, hitem]

/-- The items `xs` are left, and the loop is at the first of them: the walk has all of
them before it, or all but the first. -/
structure Left (xs : List Nat) (t : BRBHashTable) : Prop where
  stands : ∃ chains, Formed (quiet t) chains ∧ itemsFrom chains t.size.toNat 0 = xs ∧
    (Stands t chains xs ∨ Stands t chains xs.tail)
  apart : KeysApart t

theorem Left.mem (h : Left xs t) : x ∈ xs ↔ (t.items x).isSome := by
  obtain ⟨chains, hf, rfl, -⟩ := h.stands
  rw [mem_itemsFrom_zero]
  constructor
  · rintro ⟨i, hi, hx⟩
    obtain ⟨l, hl⟩ := (hf.chain i hi).allocated hx
    exact hl ▸ rfl
  · exact hf.owned x

theorem Left.nodup (h : Left xs t) : xs.Nodup := by
  obtain ⟨chains, hf, rfl, -⟩ := h.stands
  exact hf.itemsFrom_nodup

theorem Left.length_le (h : Left xs t) : xs.length ≤ t.made := by
  refine length_le_of_lt h.nodup fun x hx => ?_
  obtain ⟨chains, hf, -⟩ := h.stands
  exact hf.items x (h.mem.1 hx)

/-- The first of the items is dropped, and the walk has the others before it. -/
structure Dropped (x : Nat) (xs : List Nat) (s u : AssocArray) : Prop where
  formed : ∃ chains, Formed (quiet u.hashTable) chains ∧
    itemsFrom chains u.hashTable.size.toNat 0 = xs ∧ Stands u.hashTable chains xs
  apart : KeysApart u.hashTable
  payload : ∀ y, y ≠ x →
    (u.hashTable.items y).map HashTable.payload = (s.hashTable.items y).map HashTable.payload
  itemdestroyFunc : u.itemdestroyFunc = s.itemdestroyFunc
  destroyed : u.destroyed = s.destroyed ++ calls s.itemdestroyFunc s.hashTable [x]

theorem drop_passes (h : Left (x :: xs) s.hashTable) :
    Ends (drop x) s (fun _ u => Dropped x xs s u) fun _ _ => False := by
  obtain ⟨chains, hf, hall, hstands⟩ := h.stands
  obtain ⟨i, hi, hx⟩ := mem_itemsFrom_zero.1 (hall ▸ mem_cons_self)
  obtain ⟨k, hk, -⟩ := hf.home i hi x hx
  change keyOf s.hashTable x = some k at hk
  obtain ⟨l, kp, hl, hkp, hstring⟩ := keyOf_eq_some.1 hk
  rw [drop, ends_bind, ends_onTable, ends_item hl, ends_bind, ends_onTable]
  refine (removeItem_passes hf hall hstands).imp ?_
  rintro _ t ⟨-, ht⟩
  obtain ⟨chains', hf', hleft, hstands'⟩ := ht.formed
  have hfree : Formed (quiet { t with strings := update t.strings kp none }) chains' :=
    hf'.freeKey h.apart hl hkp ht.gone ht.payload
  have hdropped : ∀ destroyed, destroyed = s.destroyed ++ calls s.itemdestroyFunc s.hashTable [x] →
      Dropped x xs s { s with
        hashTable := { t with strings := update t.strings kp none }
        destroyed := destroyed } :=
    fun _ hcalls => ⟨⟨chains', hfree, hleft, hstands'⟩, h.apart.congr ht.gone ht.payload,
      ht.payload, rfl, hcalls⟩
  rw [ends_bind, ends_onTable, hkp, ends_freeString (by rw [ht.strings, hstring]),
    ends_bind, ends_get]
  split
  · rename_i hnone
    change s.itemdestroyFunc = none at hnone
    apply hdropped
    rw [hnone, calls, append_nil]
  · rename_i f hsome
    change s.itemdestroyFunc = some f at hsome
    apply hdropped
    rw [hsome, calls, map_singleton, valueOf, hl]
    rfl

theorem destroyLoop_ends {n : Nat} (h : Left xs s.hashTable) (hn : xs.length ≤ n) :
    Ends (destroyLoop n xs.head?) s
      (fun _ u => Left [] u.hashTable ∧
        u.destroyed = s.destroyed ++ calls s.itemdestroyFunc s.hashTable xs) fun _ _ => False := by
  induction xs generalizing s n with
  | nil =>
      have hnone : calls s.itemdestroyFunc s.hashTable [] = [] := by
        cases s.itemdestroyFunc <;> rfl
      rw [hnone, append_nil]
      cases n <;> exact ⟨h, rfl⟩
  | cons x xs ih =>
      obtain ⟨n, rfl⟩ := Nat.exists_eq_succ_of_ne_zero (Nat.ne_of_gt (Nat.lt_of_lt_of_le
        (Nat.zero_lt_succ xs.length) hn))
      rw [head?_cons, destroyLoop, ends_bind]
      refine (drop_passes h).imp ?_
      rintro _ u hu
      obtain ⟨chains, hf, hleft, hstands⟩ := hu.formed
      rw [ends_bind, ends_onTable]
      refine (nextItem_ends hf hstands).imp ?_
      rintro r t ⟨rfl, ht, htstands⟩
      have hsame := eq_of_quiet ht
      have hnext : Left xs t := by
        refine ⟨⟨chains, ht ▸ hf, ?_, Or.inr htstands⟩, ?_⟩
        · rw [hsame]
          exact hleft
        · rw [hsame]
          exact hu.apart
      refine (ih (s := { u with hashTable := t }) hnext (Nat.le_of_succ_le_succ hn)).imp ?_
      rintro _ v ⟨hv, hcalls⟩
      refine ⟨hv, ?_⟩
      have hvalues : calls s.itemdestroyFunc t xs = calls s.itemdestroyFunc s.hashTable xs := by
        apply calls_congr
        intro y hy
        rw [hsame]
        refine hu.payload y ?_
        rintro rfl
        exact (nodup_cons.1 h.nodup).1 hy
      rw [hcalls, hu.destroyed, hu.itemdestroyFunc, hvalues, append_assoc, ← calls_cons]

/-- **A destruction destroys each value once.**  `AssocArrayDestroy` removes the items while
it walks over them, and whatever the array holds it ends and calls the destroy function
exactly once for each of them. -/
theorem destroy_destroysEach (h : Stored s.hashTable) : DestroysEach s := by
  obtain ⟨chains, hf⟩ := h.formed
  have hquiet : Formed (quiet s.hashTable) chains :=
    ⟨hf.cmp, hf.hash, hf.chain, hf.nodup, hf.home, hf.owned, hf.items, hf.strings, rfl⟩
  have hsize : 0 < s.hashTable.size.toNat :=
    Nat.lt_of_le_of_lt (Nat.zero_le _) (hf.hash ⟨[], by simp⟩)
  rw [DestroysEach, destroy, ends_bind, ends_onTable]
  refine (firstItem_ends hquiet hsize).imp ?_
  rintro r t ⟨rfl, ht, hstands⟩
  have hsame := eq_of_quiet ht
  have hleft : Left (itemsFrom chains s.hashTable.size.toNat 0) t := by
    refine ⟨⟨chains, ht ▸ hquiet, ?_, Or.inl hstands⟩, ?_⟩
    · rw [hsame]
    · rw [hsame]
      exact h.apart
  have hitems : t.items = s.hashTable.items := by rw [hsame]
  rw [ends_bind, ends_get, ends_bind]
  refine (destroyLoop_ends hleft hleft.length_le).imp ?_
  rintro _ u ⟨hu, hcalls⟩
  rw [ends_onTable, freeMemory, ends_modify]
  refine ⟨⟨_, hleft.nodup, fun x => ?_, hcalls.trans ?_⟩, fun x => ?_⟩
  · rw [hleft.mem, hitems]
  · exact congrArg _ (calls_congr _ fun y _ => by rw [hitems])
  · have hnone : ¬(u.hashTable.items x).isSome := fun hx => not_mem_nil (hu.mem.2 hx)
    rw [Option.not_isSome_iff_eq_none] at hnone
    exact hnone

end Destroy

/-! ### The arrays that there are -/

/-- A call of the array, which may add a key that is there. -/
inductive Call
  | op (o : Op (Option Nat))
  | addNoCheck (strKey : CString) (value : Option Nat)
  deriving DecidableEq

def handleCall : Call → M PUnit
  | .op o => handle o
  | .addNoCheck strKey value => addNoCheck strKey value

section Calls

variable {s : AssocArray} {t : BRBHashTable} {k : CString} {x y : Nat}

theorem key_lt (h : Stored t) {l : BRBHashTableItem} (hl : t.items y = some l) :
    ∃ q, l.key = some q ∧ q < t.made := by
  obtain ⟨chains, hf⟩ := h.formed
  obtain ⟨i, hi, hin⟩ := hf.owned y (hl ▸ rfl)
  obtain ⟨k', hk', -⟩ := hf.home i hi y hin
  obtain ⟨l', q, hl', hq, hstring⟩ := keyOf_eq_some.1 hk'
  obtain rfl := Option.some.inj (hl.symm.trans hl')
  exact ⟨q, hq, hf.strings q (hstring ▸ rfl)⟩

theorem addNoCheck_stored (h : Stored s.hashTable) (k : CString) (v : Option Nat) :
    Ends (addNoCheck k v) s (fun _ u => Stored u.hashTable) fun _ _ => False := by
  obtain ⟨chains, hf⟩ := h.formed
  obtain ⟨t, ht⟩ : ∃ t, t = { s.hashTable with
      strings := update s.hashTable.strings s.hashTable.made (some k)
      made := s.hashTable.made + 1 } := ⟨_, rfl⟩
  have hft : Formed t chains := by
    rw [ht]
    refine hf.setStrings (fun y l q hl hq => update_of_ne ?_ ..) (fun q hq => ?_)
      (Nat.le_succ _)
    · obtain ⟨q', hq', hlt⟩ := key_lt h hl
      obtain rfl := Option.some.inj (hq.symm.trans hq')
      exact Nat.ne_of_lt hlt
    · by_cases heq : q = s.hashTable.made
      · exact heq ▸ Nat.lt_succ_self _
      · rw [update_of_ne heq] at hq
        exact Nat.lt_succ_of_lt (hf.strings q hq)
  have hkp : t.strings s.hashTable.made = some k := by
    rw [ht]
    exact update_self ..
  have hitems : t.items = s.hashTable.items := by rw [ht]
  simp only [addNoCheck, strdup, ends_bind, ends_onTable, ends_get, ends_set, ends_pure,
    ends_modify]
  rw [← ht, ends_addItem (hft.hash k) hkp]
  refine ⟨⟨_, hft.push hkp rfl⟩, ?_⟩
  -- the string of the new item is no other's
  have hnew : ∀ y l, t.items y = some l → y ≠ t.made ∧ l.key ≠ some s.hashTable.made := by
    intro y l hl
    refine ⟨Nat.ne_of_lt (hft.items y (hl ▸ rfl)), fun hkey => ?_⟩
    obtain ⟨q, hq, hlt⟩ := key_lt h (hitems ▸ hl)
    obtain rfl := Option.some.inj (hkey.symm.trans hq)
    exact Nat.lt_irrefl _ hlt
  intro y z l l' hl hl' hkey
  dsimp only at hl hl'
  by_cases hy : y = t.made
  · by_cases hz : z = t.made
    · exact hy.trans hz.symm
    · rw [update_of_ne hz] at hl'
      rw [hy, update_self] at hl
      obtain rfl := Option.some.inj hl
      exact absurd hkey.symm (hnew z l' hl').2
  · rw [update_of_ne hy] at hl
    by_cases hz : z = t.made
    · rw [hz, update_self] at hl'
      obtain rfl := Option.some.inj hl'
      exact absurd hkey (hnew y l hl).2
    · rw [update_of_ne hz] at hl'
      exact h.apart y z l l' (hitems ▸ hl) (hitems ▸ hl') hkey

theorem drop_stored (h : Stored s.hashTable) (hk : keyOf s.hashTable x = some k) :
    Ends (drop x) s (fun _ u => Stored u.hashTable) fun _ _ => False := by
  obtain ⟨chains, hf⟩ := h.formed
  obtain ⟨l, kp, hl, hkp, hstring⟩ := keyOf_eq_some.1 hk
  rw [drop, ends_bind, ends_onTable, ends_item hl, ends_bind, ends_onTable]
  refine (removeItem_unlinks hf hk).imp ?_
  rintro _ t ⟨-, ht⟩
  have hstored : Stored { t with strings := update t.strings kp none } :=
    ⟨⟨_, (hf.erase hk ht).freeKey h.apart hl hkp ht.gone ht.payload⟩,
      h.apart.congr ht.gone ht.payload⟩
  have hstring' : t.strings kp = some k := by
    rw [ht.rest]
    exact hstring
  rw [ends_bind, ends_onTable, hkp, ends_freeString hstring', ends_bind, ends_get]
  split
  · exact hstored
  · exact hstored

theorem handleCall_stored (c : Call) (h : Stored s.hashTable) :
    Ends (handleCall c) s (fun _ u => Stored u.hashTable) fun _ _ => False := by
  obtain ⟨chains, hf⟩ := h.formed
  cases c with
  | addNoCheck k v => exact addNoCheck_stored h k v
  | op o =>
      cases o with
      | add k v =>
          rw [handleCall, handle, add, ends_bind, ends_onTable]
          refine (HashTable.lookup_ends hf).imp ?_
          rintro r t ⟨rfl, hr⟩
          cases r with
          | none => exact addNoCheck_stored h k v
          | some x =>
              rw [ends_bind]
              refine (drop_stored h hr).imp ?_
              intro _ u hu
              exact addNoCheck_stored hu k v
      | delete k =>
          rw [handleCall, handle, delete, ends_bind, ends_bind, ends_onTable]
          refine (HashTable.lookup_ends hf).imp ?_
          rintro r t ⟨rfl, hr⟩
          cases r with
          | none => exact h
          | some x =>
              rw [ends_bind]
              refine (drop_stored h hr).imp ?_
              intro _ u hu
              exact hu
      | lookup k =>
          rw [handleCall, handle, lookup, ends_bind, ends_bind, ends_onTable]
          refine (HashTable.lookup_ends hf).imp ?_
          rintro r t ⟨rfl, hr⟩
          cases r with
          | none => exact h
          | some x =>
              obtain ⟨l, -, hl, -⟩ := keyOf_eq_some.1 hr
              rw [ends_bind, ends_onTable, ends_item hl]
              exact h

theorem run_stored (hashTablePrime : Int → Fin hashPrimes.length) (capacity : Int)
    (itemdestroyFunc : Option Nat) (cs : List Call) :
    Holds (fun s : AssocArray => Stored s.hashTable) (fun _ _ => False)
      (run handleCall (.live (new hashTablePrime capacity itemdestroyFunc)) cs) := by
  apply invariant_run (fun c s h => handleCall_stored c h)
  exact ⟨(keeps_new hashTablePrime capacity).formed, fun x y l l' hl => by cases hl⟩

end Calls

def threeValues : List Call :=
  [.addNoCheck ⟨[97], by decide⟩ (some 1), .addNoCheck ⟨[97], by decide⟩ (some 2),
    .op (.add ⟨[98], by decide⟩ (some 3))]

-- irreducible, as a comparison of states would run the calls
@[irreducible] def threeArray : Config Fault AssocArray :=
  run handleCall (.live (new (fun _ => ⟨0, by decide⟩) 1 (some 0))) threeValues

theorem threeArray_stored :
    Holds (fun s : AssocArray => Stored s.hashTable) (fun _ _ => False) threeArray := by
  unfold threeArray
  exact run_stored (fun _ => ⟨0, by decide⟩) 1 (some 0) threeValues

theorem destroy_destroysEach_threeValues : DestroysEach threeArray.state :=
  destroy_destroysEach threeArray_stored.safe.2

end AssocArray

end BrbData
