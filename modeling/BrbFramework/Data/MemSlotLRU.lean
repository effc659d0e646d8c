import BrbFramework.Data.MemSlotLinked

/-!
# The cache of the last entries

A `MemslotLRU` keeps its entries in list zero of a slot pool, in the order in
which they were created, and takes entries off the head when there are more than
`max_sz`. The pool has one slot more than that, so that a new entry is there
before the oldest one goes.

An entry asks for the id of its slot, which checks the canaries, and those fit
no slot from `canaryLimit` on. `run_holding_iff` says for which sizes the cache
holds what was created last.

The fields `created` and `evicted` are histories: what each create gave since
the last clear, and what left the list for a new entry. The date of an entry
and what its user keeps behind it are left out.
-/

namespace BrbData

open Handler Linked Machine Runs List Function

/-- `MemslotLRUData`. -/
structure MemslotLRUData where
  slotId : Nat := 0
  id : UInt32 := 0
  inUse : Bool := false
  deriving DecidableEq, Repr

structure MemslotLRU where
  memslot : MemSlotPool
  curId : UInt32 := 0
  maxSz : UInt32
  /-- What is behind the metadata of each slot. -/
  data : Nat → MemslotLRUData := fun _ => {}
  created : List (Option MemslotLRUData) := []
  evicted : List MemslotLRUData := []

namespace MemslotLRU

abbrev M := EStateM MemSlotPool.Fault MemslotLRU

/-- `MemSlotLRU_Init`, with a sum of unsigned integers of 32 bits. -/
def init (maxSz : UInt32) : MemslotLRU where
  memslot := .init (maxSz + 1).toNat
  maxSz := maxSz

def pool {α : Type} (x : MemSlotPool.M α) : M α :=
  within memslot (fun s p => { s with memslot := p }) x

/-- `MemSlotBaseSlotGetID`, which fails an assertion where `MemSlotBaseSlotFree` does. -/
def slotGetID (slot : Nat) : MemSlotPool.M Nat := do
  let p ← get
  assertThat (p.metadata slot).intact .canary
  return (p.metadata slot).slotId

/-- The loops of `MemSlotLRU_Clear` and `MemSlotLRU_CheckLimit`, for at most `n` turns. -/
def popOver (limit : Nat) : Nat → M PUnit
  | 0 => pure ()
  | n + 1 => do
    if limit < ((← get).memslot.list 0).size.toNat then
      match ← pool (MemSlotPool.slotPopHead 0) with
      | none => pure ()
      | some slot =>
        modify fun s => { s with
          data := Function.update s.data slot { s.data slot with inUse := false }
          evicted := s.evicted ++ [s.data slot] }
        popOver limit n

/-- `MemSlotLRU_Clear`. -/
def clear : M PUnit := do
  popOver 0 ((← get).memslot.list 0).size.toNat
  modify fun s => { s with curId := 0, created := [], evicted := [] }

/-- `MemSlotLRU_CheckLimit`. -/
def checkLimit : M PUnit := do
  let s ← get
  if s.maxSz = 0 then return
  popOver s.maxSz.toNat (s.memslot.list 0).size.toNat

/-- `MemSlotLRU_Create`. -/
def create : M (Option Nat) := do
  match ← pool MemSlotPool.slotGrab with
  | none =>
    modify fun s => { s with created := s.created ++ [none] }
    return none
  | some slot =>
    modify fun s => { s with data := Function.update s.data slot {} }
    let slotId ← pool (slotGetID slot)
    modify fun s => { s with
      curId := s.curId + 1
      data := Function.update s.data slot { slotId := slotId, id := s.curId + 1, inUse := true }
      created := s.created ++ [some { slotId := slotId, id := s.curId + 1, inUse := true }] }
    checkLimit
    return some slot

inductive Op
  | create
  | clear
  deriving DecidableEq, Repr

def handle : Op → M PUnit
  | .create => do let _ ← create
  | .clear => clear

/-- List zero holds the slots `xs`, from the oldest on, and what is in them is what was created
last, as it was. What was created before has left, the oldest first. -/
structure Holding (s : MemslotLRU) (xs : List Nat) : Prop where
  list : IsList s.memslot.heap (s.memslot.list 0) xs
  nodes : ∀ i ∈ xs, (s.memslot.heap i).data = some i
  distinct : xs.Nodup
  slotIds : ∀ i ∈ xs, (s.data i).slotId = i
  entries : (xs.map fun i => some (s.data i)) = s.created.drop (s.created.length - s.maxSz.toNat)
  gone : s.evicted.map some = s.created.take (s.created.length - s.maxSz.toNat)

/-! ## A cache and its pool -/

/-- A cache whose pool has a slot for one entry more than it keeps. -/
structure Caches (s : MemslotLRU) (m : MemSlotBase PUnit) : Prop where
  refines : MemSlotPool.Refines (s.maxSz.toNat + 1) s.memslot m
  alone : ∀ l, l ≠ 0 → m.list l = []
  slotIds : ∀ i ∈ m.list 0, (s.data i).slotId = i
  entries : ((m.list 0).map fun i => some (s.data i)) =
    s.created.drop (s.created.length - s.maxSz.toNat)
  gone : s.evicted.map some = s.created.take (s.created.length - s.maxSz.toNat)

section Caches

variable {s : MemslotLRU} {m m' : MemSlotBase PUnit} {n i : Nat}

theorem Caches.holding (h : Caches s m) : Holding s (m.list 0) where
  list := h.refines.links.family.isList 0
  nodes := h.refines.links.data 0
  distinct := h.refines.wf.list_nodup 0
  slotIds := h.slotIds
  entries := h.entries
  gone := h.gone

theorem Caches.length (h : Caches s m) : (m.list 0).length ≤ s.maxSz.toNat := by
  have hlen := congrArg List.length h.entries
  rw [length_map, length_drop] at hlen
  omega

theorem Caches.grabs (h : Caches s m) : ∃ i m', m.slotGrab = some (i, m') := by
  have hlen := h.length
  cases hslots : m.slots with
  | cons i rest => exact ⟨i, _, by simp only [MemSlotBase.slotGrab, hslots]; rfl⟩
  | nil =>
      -- All slots would be in the one list.
      have hall : List.range (s.maxSz.toNat + 1) ⊆ m.list 0 := by
        intro i hi
        obtain ⟨l, hl⟩ : ∃ l, i ∈ m.list l := by
          have hmem := (h.refines.full i).mpr (mem_range.mp hi)
          rw [hslots] at hmem
          exact hmem.resolve_left not_mem_nil
        by_cases hzero : l = 0
        · rwa [hzero] at hl
        · rw [h.alone l hzero] at hl
          exact absurd hl not_mem_nil
      have hle := (subperm_of_subset nodup_range hall).length_le
      rw [length_range] at hle
      omega

theorem slotFree_head (hm : m.WF) {rest : List Nat} (hl : m.list 0 = i :: rest) :
    (m.slotFree i).list = update m.list 0 rest := by
  have hi : i ∈ m.list 0 := by simp [hl]
  rw [hm.slotFree_list hi, hl, erase_cons_head]

theorem popOver_ends (hn : n < 2 ^ 64) (limit fuel : Nat) {s : MemslotLRU}
    {m : MemSlotBase PUnit} (hr : MemSlotPool.Refines n s.memslot m)
    (hfuel : (m.list 0).length ≤ limit + fuel) :
    Ends (popOver limit fuel) s
      (fun _ t => ∃ m', MemSlotPool.Refines n t.memslot m' ∧
        m'.list = update m.list 0 ((m.list 0).drop ((m.list 0).length - limit)) ∧
        ((m.list 0).length ≤ limit → m' = m) ∧
        (∀ i ∈ m'.list 0, t.data i = s.data i) ∧
        t.evicted = s.evicted ++ ((m.list 0).take ((m.list 0).length - limit)).map s.data ∧
        t.maxSz = s.maxSz ∧ t.created = s.created)
      fun _ _ => False := by
  induction fuel generalizing s m with
  | zero =>
      have hzero : (m.list 0).length - limit = 0 := by omega
      rw [hzero, drop_zero, update_eq_self]
      exact ⟨m, hr, rfl, fun _ => rfl, fun _ _ => rfl, by simp, rfl, rfl⟩
  | succ fuel ih =>
      have hsize := hr.size_eq hn 0
      rw [Fin.val_zero] at hsize
      rw [popOver, ends_bind, ends_get, hsize]
      by_cases hover : limit < (m.list 0).length
      · obtain ⟨i, rest, hl⟩ := exists_cons_of_length_pos (Nat.zero_lt_of_lt hover)
        rw [hl, length_cons] at hover hfuel
        rw [if_pos (by rw [hl, length_cons]; exact hover), ends_bind, pool, ends_within]
        apply (hr.slotPopHead_some 0 hl).total
        intro r p hp
        obtain ⟨rfl, hp⟩ := hp
        have hfree := slotFree_head hr.wf hl
        have hrest : (m.slotFree i).list 0 = rest := by rw [hfree, update_self]
        have hnodup := hr.wf.list_nodup 0
        rw [hl, nodup_cons] at hnodup
        simp only [ends_bind, ends_modify]
        apply (ih hp (by rw [hrest]; omega)).imp
        intro _ t ht
        obtain ⟨m', href, hlist, -, hdata, hevicted, hmax, hcreated⟩ := ht
        rw [hrest, hfree, update_idem] at hlist
        have hdrop : (m.list 0).length - limit = rest.length - limit + 1 := by
          rw [hl, length_cons]
          omega
        refine ⟨m', href, ?_, ?_, ?_, ?_, hmax, hcreated⟩
        · rw [hlist, hdrop, hl, drop_succ_cons]
        · intro hle
          rw [hl, length_cons] at hle
          omega
        · intro j hj
          have hmem : j ∈ rest := by
            rw [hlist, update_self] at hj
            exact mem_of_mem_drop hj
          have hne : j ≠ i := by
            intro heq
            exact hnodup.1 (heq ▸ hmem)
          rw [hdata j hj]
          exact update_of_ne hne _ _
        · have hsame : ∀ j ∈ rest.take (rest.length - limit),
              update s.data i { s.data i with inUse := false } j = s.data j := by
            intro j hj
            apply update_of_ne
            intro heq
            exact hnodup.1 (heq ▸ mem_of_mem_take hj)
          simp only [hrest] at hevicted
          rw [hevicted, hdrop, hl, take_succ_cons, map_cons,
            map_congr_left hsame, append_assoc]
          rfl
      · have hzero : (m.list 0).length - limit = 0 := by omega
        rw [if_neg hover, ends_pure, hzero, drop_zero, update_eq_self]
        exact ⟨m, hr, rfl, fun _ => rfl, fun _ _ => rfl, by simp, rfl, rfl⟩

theorem Caches.limited (h : Caches s m) (hgrab : m.slotGrab = some (i, m')) (hn : n < 2 ^ 64)
    (hsize : n = s.maxSz.toNat + 1) {u : MemslotLRU} {entry : MemslotLRUData}
    (hr : MemSlotPool.Refines n u.memslot m') (hmax : u.maxSz = s.maxSz)
    (hdata : u.data = update s.data i entry) (hid : entry.slotId = i)
    (hcreated : u.created = s.created ++ [some entry]) (hevicted : u.evicted = s.evicted)
    {fuel : Nat} (hfuel : (m'.list 0).length ≤ s.maxSz.toNat + fuel) :
    Ends (popOver s.maxSz.toNat fuel) u
      (fun _ t => ∃ m'', Caches t m'' ∧ t.maxSz = s.maxSz ∧
        t.created.length = s.created.length + 1 ∧
        ((m.list 0).length < s.maxSz.toNat → m''.slots = m'.slots))
      fun _ _ => False := by
  have hzero : m'.list 0 = m.list 0 ++ [i] := MemSlotBase.slotGrab_list_zero hgrab
  have hfresh := h.refines.wf.slotGrab_fresh hgrab 0
  have hlen := congrArg List.length h.entries
  rw [length_map, length_drop] at hlen
  -- What is in the slots, before anything leaves.
  have hold : ∀ j ∈ m.list 0, u.data j = s.data j := by
    intro j hj
    rw [hdata]
    apply update_of_ne
    intro heq
    exact hfresh (heq ▸ hj)
  have hall : ((m'.list 0).map fun j => some (u.data j)) =
      u.created.drop (s.created.length - s.maxSz.toNat) := by
    rw [hzero, map_append, map_congr_left fun j hj => congrArg some (hold j hj),
      h.entries, hcreated, drop_append_of_le_length (by omega), hdata]
    simp
  have hover : (m'.list 0).length - s.maxSz.toNat + (s.created.length - s.maxSz.toNat) =
      u.created.length - s.maxSz.toNat := by
    rw [hzero, hcreated, length_append, length_append, length_singleton,
      length_singleton]
    omega
  apply (popOver_ends hn s.maxSz.toNat fuel hr hfuel).imp
  intro _ t ht
  obtain ⟨m'', href, hlist, hsame, hkept, hgone, htmax, htcreated⟩ := ht
  have hleft : m''.list 0 = (m'.list 0).drop ((m'.list 0).length - s.maxSz.toNat) := by
    rw [hlist, update_self]
  refine ⟨m'', ⟨?_, ?_, ?_, ?_, ?_⟩, htmax.trans hmax, ?_, ?_⟩
  · rw [htmax, hmax, ← hsize]
    exact href
  · intro l hl
    rw [hlist, update_of_ne hl, MemSlotBase.slotGrab_list_of_ne hgrab hl, h.alone l hl]
  · intro j hj
    rw [hkept j hj]
    rw [hleft] at hj
    rcases mem_append.mp (hzero ▸ mem_of_mem_drop hj) with hj | hj
    · rw [hold j hj]
      exact h.slotIds j hj
    · rw [mem_singleton.mp hj, hdata, update_self, hid]
  · rw [map_congr_left fun j hj => congrArg some (hkept j hj), hleft, map_drop, hall,
      drop_drop, Nat.add_comm, hover, htcreated, htmax, hmax]
  · have htake : ((m'.list 0).take ((m'.list 0).length - s.maxSz.toNat)).map
          (fun j => some (u.data j)) =
        (u.created.drop (s.created.length - s.maxSz.toNat)).take
          ((m'.list 0).length - s.maxSz.toNat) := by
      rw [map_take, hall]
    have hbefore : s.created.take (s.created.length - s.maxSz.toNat) =
        u.created.take (s.created.length - s.maxSz.toNat) := by
      rw [hcreated, take_append_of_le_length (by omega)]
    rw [hgone, map_append, map_map, hevicted, h.gone, hbefore]
    refine Eq.trans (congrArg _ htake) ?_
    rw [← List.take_add, Nat.add_comm, hover, htcreated, htmax, hmax]
  · rw [htcreated, hcreated, length_append]
    rfl
  · intro hroom
    rw [hsame]
    rw [hzero, length_append, length_singleton]
    omega

theorem slotGetID_ends {p : MemSlotPool} (hp : p.metadata i = MemSlotPool.sealed i 0)
    (hfit : i < MemSlotPool.canaryLimit) :
    Ends (slotGetID i) p (fun slot q => slot = i ∧ q = p) fun _ _ => False := by
  rw [slotGetID, ends_bind, ends_get, ends_bind, hp, MemSlotPool.intact_sealed hfit,
    ends_assertThat]
  simp

theorem create_ends (h : Caches s m) (hlt : s.maxSz.toNat + 1 < 2 ^ 31) (hpos : s.maxSz ≠ 0)
    (hgrab : m.slotGrab = some (i, m')) (hfit : i < MemSlotPool.canaryLimit) :
    Ends create s
      (fun _ t => ∃ m'', Caches t m'' ∧ t.maxSz = s.maxSz ∧
        t.created.length = s.created.length + 1 ∧
        ((m.list 0).length < s.maxSz.toNat → m''.slots = m'.slots))
      fun _ _ => False := by
  rw [create, ends_bind, pool, ends_within]
  apply (h.refines.slotGrab_some hgrab).total
  intro r p hp
  obtain ⟨rfl, hp, -⟩ := hp
  have hmem : i ∈ m'.list 0 := by
    rw [MemSlotBase.slotGrab_list_zero hgrab]
    exact mem_append_right _ (mem_singleton_self i)
  simp only [ends_bind, ends_modify, pool, ends_within]
  apply (slotGetID_ends (hp.live 0 i hmem).1 hfit).imp
  intro slot q hq
  obtain ⟨rfl, rfl⟩ := hq
  have hsize := hp.size_eq (by omega) 0
  rw [Fin.val_zero] at hsize
  obtain ⟨entry, hentry⟩ : ∃ entry : MemslotLRUData,
      entry = { slotId := slot, id := s.curId + 1, inUse := true } := ⟨_, rfl⟩
  rw [← hentry]
  obtain ⟨u, hu⟩ : ∃ u : MemslotLRU, u = { s with
      memslot := q
      curId := s.curId + 1
      data := update (update s.data slot {}) slot entry
      created := s.created ++ [some entry] } := ⟨_, rfl⟩
  rw [← hu]
  have hmax : u.maxSz = s.maxSz := by rw [hu]
  have hlist : (u.memslot.list 0).size.toNat = (m'.list 0).length := by
    rw [hu]
    exact hsize
  rw [checkLimit, ends_bind, ends_get, hmax, if_neg hpos, hlist]
  apply (h.limited hgrab (by omega) rfl (by rw [hu]; exact hp) hmax
    (by rw [hu]; exact update_idem _ _ _) (by rw [hentry]) (by rw [hu]) (by rw [hu])
    (Nat.le_add_left _ _)).imp
  intro _ t ht
  exact ht

theorem clear_ends (h : Caches s m) (hlt : s.maxSz.toNat + 1 < 2 ^ 31) :
    Ends clear s (fun _ t => (∃ m', Caches t m') ∧ t.maxSz = s.maxSz) fun _ _ => False := by
  have hsize := h.refines.size_eq (by omega) 0
  rw [Fin.val_zero] at hsize
  rw [clear, ends_bind, ends_get, ends_bind, hsize]
  apply (popOver_ends (by omega) 0 (m.list 0).length h.refines (by omega)).imp
  intro _ t ht
  obtain ⟨m', href, hlist, -, -, -, hmax, -⟩ := ht
  have hempty : m'.list 0 = [] := by
    rw [hlist, update_self, Nat.sub_zero, drop_length]
  rw [ends_modify]
  refine ⟨⟨m', ?_, ?_, ?_, ?_, ?_⟩, hmax⟩
  · rw [hmax]
    exact href
  · intro l hl
    rw [hlist, update_of_ne hl]
    exact h.alone l hl
  · rw [hempty]
    intro i hi
    exact absurd hi not_mem_nil
  · rw [hempty]
    simp
  · simp

theorem toNat_succ (x : UInt32) : (x + 1).toNat = (x.toNat + 1) % 2 ^ 32 := UInt32.toNat_add x 1

theorem Caches.init {maxSz : UInt32} (hlt : maxSz.toNat + 1 < 2 ^ 31) :
    Caches (init maxSz) (MemSlotBase.init PUnit.unit (maxSz.toNat + 1)) := by
  have hcount : (maxSz + 1).toNat = maxSz.toNat + 1 := by
    rw [toNat_succ]
    exact Nat.mod_eq_of_lt (by omega)
  refine ⟨?_, fun l _ => rfl, fun i hi => absurd hi not_mem_nil, ?_, ?_⟩
  rotate_left
  · simp [MemslotLRU.init, MemSlotBase.init]
  · simp [MemslotLRU.init]
  rw [MemslotLRU.init, hcount]
  exact MemSlotPool.refines_init hlt

theorem handle_ends (hpos : 0 < n) (hfit : n < MemSlotPool.canaryLimit) (op : Op) (s : MemslotLRU)
    (h : (∃ m, Caches s m) ∧ s.maxSz.toNat = n) :
    Ends (handle op) s (fun _ t => (∃ m, Caches t m) ∧ t.maxSz.toNat = n) fun _ _ => False := by
  obtain ⟨⟨m, hm⟩, hmax⟩ := h
  have hlt : s.maxSz.toNat + 1 < 2 ^ 31 := by
    have hlimit : MemSlotPool.canaryLimit = 195225786 := rfl
    omega
  cases op with
  | create =>
      obtain ⟨i, m', hgrab⟩ := hm.grabs
      have hi : i < s.maxSz.toNat + 1 := by
        apply (hm.refines.full i).mp
        rw [(MemSlotBase.slotGrab_eq_some hgrab).1]
        exact .inl mem_cons_self
      have hne : s.maxSz ≠ 0 := by
        intro hzero
        rw [hzero] at hmax
        exact absurd hmax (by simp; omega)
      rw [handle, ends_bind]
      apply (create_ends hm hlt hne hgrab (by omega)).imp
      intro _ t ht
      obtain ⟨m'', hcaches, hsame, -⟩ := ht
      exact ⟨⟨m'', hcaches⟩, by rw [hsame]; exact hmax⟩
  | clear =>
      apply (clear_ends hm hlt).imp
      intro _ t ht
      exact ⟨ht.1, by rw [ht.2]; exact hmax⟩

theorem create_aborts (h : Caches s m) (hgrab : m.slotGrab = some (i, m'))
    (hover : MemSlotPool.canaryLimit ≤ i) (hlt : i < 2 ^ 31) :
    Ends create s (fun _ _ => False) fun f _ => f = .canary := by
  rw [create, ends_bind, pool, ends_within]
  apply (h.refines.slotGrab_some hgrab).total
  intro r p hp
  obtain ⟨rfl, hp, -⟩ := hp
  have hmem : i ∈ m'.list 0 := by
    rw [MemSlotBase.slotGrab_list_zero hgrab]
    exact mem_append_right _ (mem_singleton_self i)
  simp only [ends_bind, ends_modify, pool, ends_within]
  rw [slotGetID, ends_bind, ends_get, ends_bind, (hp.live 0 i hmem).1,
    MemSlotPool.not_intact_sealed hover hlt, ends_assertThat]
  simp

/-! ## Which caches hold what was created last -/

theorem Caches.length_le_created (h : Caches s m) : (m.list 0).length ≤ s.created.length := by
  have hlen := congrArg List.length h.entries
  rw [length_map, length_drop] at hlen
  omega

theorem run_creates {maxSz : UInt32} (hlt : maxSz.toNat + 1 < 2 ^ 31) {k : Nat}
    (hk : k ≤ maxSz.toNat) (hfit : k ≤ MemSlotPool.canaryLimit) :
    Holds (fun s => ∃ m, Caches s m ∧ s.maxSz = maxSz ∧ s.created.length = k ∧
        m.slots = List.range' k (maxSz.toNat + 1 - k)) (fun _ _ => False)
      (run handle (.live (init maxSz)) (List.replicate k .create)) := by
  induction k with
  | zero => exact ⟨_, Caches.init hlt, rfl, rfl, range_eq_range'⟩
  | succ k ih =>
      rw [replicate_succ', run_append]
      apply holds_step_of (ih (by omega) (by omega)) Op.create
      intro _ hs
      obtain ⟨m, hm, hmax, hlen, hslots⟩ := hs
      rw [show maxSz.toNat + 1 - k = maxSz.toNat + 1 - (k + 1) + 1 by omega,
        range'_succ] at hslots
      obtain ⟨m', hgrab⟩ : ∃ m', m.slotGrab = some (k, m') :=
        ⟨_, by simp only [MemSlotBase.slotGrab, hslots]; rfl⟩
      have hrest := (MemSlotBase.slotGrab_eq_some hgrab).1
      rw [hslots] at hrest
      have hle := hm.length_le_created
      have hpos : maxSz ≠ 0 := by
        intro hzero
        rw [hzero] at hk
        exact absurd hk (by simp)
      rw [handle, ends_bind]
      apply (create_ends hm (by rw [hmax]; exact hlt) (by rw [hmax]; exact hpos) hgrab
        (by omega)).imp
      intro _ t ht
      obtain ⟨m'', hcaches, hsame, hcreated, hroom⟩ := ht
      rw [hmax] at hsame hroom
      exact ⟨m'', hcaches, hsame, by rw [hcreated, hlen],
        by rw [hroom (by omega), ← (List.cons.inj hrest).2]⟩

end Caches

theorem not_holding_of_canary {maxSz : UInt32} (hlt : maxSz.toNat + 1 < 2 ^ 31) {k : Nat}
    (hk : k = MemSlotPool.canaryLimit) (hle : k ≤ maxSz.toNat) :
    ¬ Holds (fun s => ∃ xs, Holding s xs) (fun _ _ => False)
      (run handle (.live (init maxSz)) (List.replicate k .create ++ [.create])) := by
  intro h
  have hfault : Holds (fun _ => False) (fun f _ => f = .canary)
      (run handle (.live (init maxSz)) (List.replicate k .create ++ [.create])) := by
    rw [run_append]
    apply holds_step_of (I := fun s => ∃ m, Caches s m ∧ s.maxSz = maxSz ∧ s.created.length = k ∧
      m.slots = List.range' k (maxSz.toNat + 1 - k)) _ Op.create
    · intro _ hs
      obtain ⟨m, hm, -, -, hslots⟩ := hs
      rw [show maxSz.toNat + 1 - k = maxSz.toNat - k + 1 by omega, range'_succ] at hslots
      obtain ⟨m', hgrab⟩ : ∃ m', m.slotGrab = some (k, m') :=
        ⟨_, by simp only [MemSlotBase.slotGrab, hslots]; rfl⟩
      rw [handle, ends_bind]
      exact (create_aborts hm hgrab (Nat.le_of_eq hk.symm) (by omega)).imp fun _ _ hfalse => hfalse
    · apply (run_creates hlt hle (Nat.le_of_eq hk)).mono
      · intro s hs
        exact hs
      · intro f s hfalse
        exact hfalse.elim
  unfold Holds at hfault
  rw [h.safe.1] at hfault
  exact hfault

theorem init_slots {maxSz : UInt32} (hover : 2 ^ 31 ≤ maxSz.toNat + 1) :
    (init maxSz).memslot.slots = .init 0 := by
  have hlt : maxSz.toNat < 2 ^ 32 := UInt32.toNat_lt maxSz
  have hnone : (int32 ((maxSz + 1).toNat : Nat)).toNat = 0 := by
    rw [toNat_succ]
    unfold int32
    rw [Int.bmod_def]
    omega
  simp only [init, MemSlotPool.init, hnone]

theorem create_none {s : MemslotLRU} (hslots : s.memslot.slots = .init 0) :
    Ends create s (fun _ t => t = { s with created := s.created ++ [none] }) fun _ _ => False := by
  rw [create, ends_bind, pool, ends_within, MemSlotPool.slotGrab, ends_bind, ends_get, hslots]
  simp [SlotQueue.grab, SlotQueue.init]

theorem not_holding_of_over {maxSz : UInt32} (hover : 2 ^ 31 ≤ maxSz.toNat + 1) :
    ¬ Holds (fun s => ∃ xs, Holding s xs) (fun _ _ => False)
      (run handle (.live (init maxSz)) [.create]) := by
  intro h
  have hone : Holds (fun s => ¬ ∃ xs, Holding s xs) (fun _ _ => False)
      (run handle (.live (init maxSz)) [.create]) := by
    apply holds_step_of (I := fun s => s = init maxSz) (c := .live (init maxSz)) rfl Op.create
    intro _ hs
    rw [handle, ends_bind, hs]
    apply (create_none (init_slots hover)).imp
    intro _ t ht
    rw [ends_pure, ht]
    intro hheld
    obtain ⟨xs, hxs⟩ := hheld
    have hentries := hxs.entries
    have hzero : 1 - maxSz.toNat = 0 := by omega
    simp only [init, nil_append, length_singleton, hzero, drop_zero] at hentries
    cases xs with
    | nil => simp at hentries
    | cons i rest => simp at hentries
  exact hone.safe.2 h.safe.2

/-- **The cache.**  Along every run of creates and clears it holds what was created last, in the
order in which it was created, and what leaves is the oldest, exactly if the canaries fit all of
its slots. -/
theorem run_holding_iff (maxSz : UInt32) (hmax : 1 ≤ maxSz.toNat) :
    (∀ ops, Holds (fun s => ∃ xs, Holding s xs) (fun _ _ => False)
        (run handle (.live (init maxSz)) ops)) ↔
      maxSz.toNat < MemSlotPool.canaryLimit := by
  have hlimit : MemSlotPool.canaryLimit = 195225786 := rfl
  constructor
  · intro hall
    by_contra hover
    by_cases hlt : maxSz.toNat + 1 < 2 ^ 31
    · obtain ⟨k, hk⟩ : ∃ k, k = MemSlotPool.canaryLimit := ⟨_, rfl⟩
      exact not_holding_of_canary hlt hk (by omega) (hall (List.replicate k .create ++ [.create]))
    · exact not_holding_of_over (by omega) (hall [.create])
  · intro hfit ops
    have hinit : Holds (fun s => (∃ m, Caches s m) ∧ s.maxSz.toNat = maxSz.toNat)
        (fun _ _ => False) (.live (init maxSz) : Config MemSlotPool.Fault MemslotLRU) :=
      ⟨⟨_, Caches.init (by omega)⟩, rfl⟩
    apply (invariant_run (handle_ends hmax hfit) hinit ops).mono
    · intro s hs
      obtain ⟨⟨m, hm⟩, -⟩ := hs
      exact ⟨_, hm.holding⟩
    · intro f s hfalse
      exact hfalse

/-- A cache of three. -/
theorem run_holding_iff_three :
    (∀ ops, Holds (fun s => ∃ xs, Holding s xs) (fun _ _ => False)
        (run handle (.live (init 3)) ops)) ↔
      (3 : UInt32).toNat < MemSlotPool.canaryLimit :=
  run_holding_iff 3 (by decide)

/-- The largest size, whose successor is zero. -/
theorem largest_cache_holds_nothing :
    ¬ Holds (fun s => ∃ xs, Holding s xs) (fun _ _ => False)
      (run handle (.live (init 4294967295)) [.create]) :=
  not_holding_of_over (by decide)

end MemslotLRU

end BrbData
