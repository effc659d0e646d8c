import BrbFramework.Lib.Linked
import BrbFramework.Data.RadixTreeRuns

/-!
# `IPv4Table`

A table of nodes by address: a `RadixTree` of prefixes as long as an address,
whose data are the table's nodes, and a list that the nodes are linked into.

`run_isMap` is what the table is for. After any operations it is the finite map
that `Spec` says, its list holds the nodes of that map, and these are the nodes
that are allocated.
-/

namespace BrbData

open Handler Runs Linked Trie Function

/-- `struct in_addr`, with its bytes in the order they have in memory. -/
abbrev InAddr := { bytes : List UInt8 // bytes.length = 4 }

/-- `INADDR_ANY` and `INADDR_NONE`. -/
def InAddr.any : InAddr := ⟨[0, 0, 0, 0], rfl⟩

def InAddr.none : InAddr := ⟨[255, 255, 255, 255], rfl⟩

structure IPv4TableNode where
  /-- The function to call before the node is freed, which a caller may set. -/
  destroyCb : Option Nat
  addr : InAddr
  deriving DecidableEq

structure IPv4Table where
  tree : RadixTree
  list : DList
  /-- The list nodes inside the table's nodes, by the addresses of those. -/
  links : Heap
  /-- The table's nodes that are allocated, by their addresses. -/
  items : Nat → Option IPv4TableNode
  /-- The table's nodes that were made, which is the next address. -/
  made : Nat
  /-- The calls of `destroy_cb`, with the node that each was given. -/
  destroyed : List (Nat × Nat)

namespace IPv4Table

abbrev M := EStateM RadixTree.Fault IPv4Table

/-- `IPv4TableNew`. -/
def new : IPv4Table where
  tree := RadixTree.new
  list := .empty
  links := fun _ => .null
  items := fun _ => none
  made := 0
  destroyed := []

def onTree {α : Type} (x : RadixTree.M α) : M α :=
  within IPv4Table.tree (fun s t => { s with tree := t }) x

/-- `RadixPrefixInit` with `/32`. -/
def prefixInit (addr : InAddr) : RadixPrefix := ⟨.inet, 32, addr.1, addr.2, by decide⟩

/-- `IPv4TableRadixLookupByInAddr`. -/
def radixLookupByInAddr (addr : InAddr) : M (Option Nat) := do
  if addr = .none ∨ addr = .any then return none
  onTree (RadixTree.searchExact (prefixInit addr))

/-- `IPv4TableItemLookupByInAddr`. -/
def itemLookupByInAddr (addr : InAddr) : M (Option Nat) := do
  match ← radixLookupByInAddr addr with
  | none => return none
  | some radixNode => return (← onTree (RadixTree.node radixNode)).data

/-- `calloc`, and the address. -/
def itemNew (addr : InAddr) : M Nat := do
  let s ← get
  set { s with
    items := Function.update s.items s.made (some { destroyCb := none, addr := addr })
    links := Function.update s.links s.made .null
    made := s.made + 1 }
  return s.made

/-- `IPv4TableItemAddByInAddr`. -/
def itemAddByInAddr (addr : InAddr) : M (Option Nat) := do
  if addr = .none ∨ addr = .any then return none
  match ← radixLookupByInAddr addr with
  | some radixNode => return (← onTree (RadixTree.node radixNode)).data
  | none =>
    let v4Node ← itemNew addr
    let radixNode ← onTree (RadixTree.lookup (prefixInit addr))
    onTree (RadixTree.modifyNode radixNode fun x => { x with data := some v4Node })
    modify fun s =>
      { s with
        list := (add s.list s.links v4Node (some v4Node)).1
        links := (add s.list s.links v4Node (some v4Node)).2 }
    return some v4Node

/-- A pointer to a node of the table is followed. -/
def item (v4Node : Nat) : M IPv4TableNode := do
  match (← get).items v4Node with
  | none => throw .freed
  | some x => return x

/-- `IPv4TableItemDelByInAddr`. -/
def itemDelByInAddr (addr : InAddr) : M Bool := do
  match ← radixLookupByInAddr addr with
  | none => return false
  | some radixNode =>
    let data := (← onTree (RadixTree.node radixNode)).data
    let v4Node ← onTree (RadixTree.follow data)
    let x ← item v4Node
    modify fun s =>
      { s with
        list := (delete s.list s.links v4Node).1
        links := (delete s.list s.links v4Node).2 }
    onTree (RadixTree.remove radixNode)
    match x.destroyCb with
    | none => pure ()
    | some cb => modify fun s => { s with destroyed := s.destroyed ++ [(cb, v4Node)] }
    modify fun s => { s with items := Function.update s.items v4Node none }
    return true

/-- A caller sets `destroy_cb` in the node of an address. -/
def setDestroyCb (addr : InAddr) (cb : Nat) : M PUnit := do
  match ← itemLookupByInAddr addr with
  | none => return
  | some v4Node =>
    let x ← item v4Node
    modify fun s =>
      { s with items := Function.update s.items v4Node (some { x with destroyCb := some cb }) }

/-- An operation on the table, or what a caller does with a node. -/
inductive Op
  | add (addr : InAddr)
  | lookup (addr : InAddr)
  | del (addr : InAddr)
  | setDestroyCb (addr : InAddr) (cb : Nat)
  deriving DecidableEq

def Op.addr : Op → InAddr
  | .add addr | .lookup addr | .del addr | .setDestroyCb addr _ => addr

/-- What an operation returns: a node, or whether there was one. -/
inductive Answer
  | node (v4Node : Option Nat)
  | done (found : Bool)
  deriving DecidableEq, Repr

def Op.exec : Op → M Answer
  | .add addr => return .node (← itemAddByInAddr addr)
  | .lookup addr => return .node (← itemLookupByInAddr addr)
  | .del addr => return .done (← itemDelByInAddr addr)
  | .setDestroyCb addr cb => do
    IPv4Table.setDestroyCb addr cb
    return .done true

def handle (o : Op) : M PUnit := do
  let _ ← o.exec

/-- What the table is for: a map from addresses to nodes, and the nodes made for it. -/
structure Spec where
  map : InAddr → Option Nat
  made : Nat

namespace Spec

def new : Spec where
  map := fun _ => none
  made := 0

/-- What an operation is to return, and to leave. -/
def exec (m : Spec) : Op → Answer × Spec
  | .add addr =>
      match m.map addr with
      | some v4Node => (.node (some v4Node), m)
      | none => (.node (some m.made), ⟨Function.update m.map addr (some m.made), m.made + 1⟩)
  | .lookup addr => (.node (m.map addr), m)
  | .del addr => (.done (m.map addr).isSome, ⟨Function.update m.map addr none, m.made⟩)
  | .setDestroyCb _ _ => (.done true, m)

def step (m : Spec) (o : Op) : Spec := (m.exec o).2

end Spec

def Valid (addr : InAddr) : Prop := addr ≠ .none ∧ addr ≠ .any

instance (addr : InAddr) : Decidable (Valid addr) := inferInstanceAs (Decidable (_ ∧ _))

/-- The tree has a prefix for each address of the map, with its node, and no other;
the list has the nodes of the map, and they are the ones that are allocated. -/
structure Models (m : Spec) (s : IPv4Table) : Prop where
  tree : ∃ key, RadixTree.Formed s.tree key
  kept : ∀ a v, m.map a = some v → ∃ n, s.tree.entry n = some (prefixInit a, some v)
  only : ∀ n p d, s.tree.entry n = some (p, d) →
    ∃ a v, p = prefixInit a ∧ d = some v ∧ m.map a = some v
  list : ∃ xs, IsList s.links s.list xs ∧ ∀ v, v ∈ xs ↔ ∃ a, m.map a = some v
  live : ∀ a v, m.map a = some v → ∃ x, s.items v = some x ∧ x.addr = a
  items : ∀ v x, s.items v = some x → m.map x.addr = some v
  made : s.made = m.made
  fresh : ∀ a v, m.map a = some v → v < m.made

section Steps

variable {m : Spec} {s : IPv4Table} {a b : InAddr} {v n : Nat}

theorem prefixInit_inj (h : (prefixInit a).key = (prefixInit b).key) : a = b := by
  have hbits := word_eq_word.mp h
  apply Subtype.ext
  have hlen : a.1.length = b.1.length := a.2.trans b.2.symm
  apply List.ext_getElem hlen
  intro i hi hi'
  have hbyte : (prefixInit a).uchar i = (prefixInit b).uchar i :=
    RadixTree.byte_eq_iff.mpr fun j hj => hbits _ (by change _ < 32; omega)
  simpa [RadixPrefix.uchar, prefixInit, hi, hi'] using hbyte

theorem Models.inj (h : Models m s) (ha : m.map a = some v) (hb : m.map b = some v) : a = b := by
  obtain ⟨x, hx, rfl⟩ := h.live a v ha
  obtain ⟨y, hy, rfl⟩ := h.live b v hb
  rw [Option.some.inj (hx.symm.trans hy)]

theorem ends_onTree {α : Type} (x : RadixTree.M α) {Q : α → IPv4Table → Prop}
    {E : RadixTree.Fault → IPv4Table → Prop} :
    Ends (onTree x) s Q E ↔
      Ends x s.tree (fun r t => Q r { s with tree := t }) fun e t => E e { s with tree := t } :=
  ends_within ..

theorem models_new : Models .new new where
  tree := ⟨fun _ => [], RadixTree.formed_new _⟩
  kept := nofun
  only _ _ _ he := by cases he
  list := ⟨[], isList_empty _, by simp [Spec.new]⟩
  live := nofun
  items := nofun
  made := rfl
  fresh := nofun

theorem radixLookup_ends (h : Models m s) (ha : Valid a) :
    Ends (radixLookupByInAddr a) s
      (fun r t => t = s ∧ match r with
        | none => m.map a = none ∧ ∀ n e, s.tree.entry n = some e → e.1.key ≠ (prefixInit a).key
        | some n => ∃ v, m.map a = some v ∧ s.tree.entry n = some (prefixInit a, some v))
      fun _ _ => False := by
  obtain ⟨key, htree⟩ := h.tree
  have hvalid : ¬(a = .none ∨ a = .any) := by
    rintro (heq | heq)
    · exact ha.1 heq
    · exact ha.2 heq
  rw [radixLookupByInAddr, if_neg hvalid, ends_onTree]
  refine (RadixTree.searchExact_ends htree (prefixInit a)).imp ?_
  rintro r t ⟨rfl, hr⟩
  refine ⟨rfl, ?_⟩
  cases r with
  | none =>
      refine ⟨?_, hr⟩
      cases hmap : m.map a with
      | none => rfl
      | some v =>
          obtain ⟨n, he⟩ := h.kept a v hmap
          have hne := hr n (prefixInit a, some v) he
          exact (hne (Eq.refl (prefixInit a).key)).elim
  | some n =>
      obtain ⟨⟨p, d⟩, he, hk⟩ := hr
      obtain ⟨b, v, rfl, rfl, hmap⟩ := h.only n p d he
      obtain rfl : b = a := prefixInit_inj hk
      exact ⟨v, hmap, he⟩

theorem ends_data {p : RadixPrefix} {d : Option Nat} (he : s.tree.entry n = some (p, d))
    {α : Type} (f : Option Nat → M α) {Q : α → IPv4Table → Prop}
    {E : RadixTree.Fault → IPv4Table → Prop} :
    Ends (do
      let x ← onTree (RadixTree.node n)
      f x.data) s Q E ↔ Ends (f d) s Q E := by
  obtain ⟨x, hx, -, rfl⟩ := RadixTree.entry_eq_some.mp he
  rw [ends_bind, ends_onTree, RadixTree.ends_node hx]

theorem itemLookup_ends (h : Models m s) (ha : Valid a) :
    Ends (itemLookupByInAddr a) s (fun r t => t = s ∧ r = m.map a) fun _ _ => False := by
  rw [itemLookupByInAddr, ends_bind]
  refine (radixLookup_ends h ha).imp ?_
  rintro r t ⟨rfl, hr⟩
  cases r with
  | none => exact ⟨rfl, hr.1.symm⟩
  | some n =>
      obtain ⟨v, hmap, he⟩ := hr
      exact (ends_data he pure).mpr ⟨rfl, hmap.symm⟩

theorem map_add_iff (h : Models m s) (hmap : m.map a = none) {w : Nat} :
    update m.map a (some m.made) b = some w ↔
      m.map b = some w ∨ b = a ∧ w = s.made := by
  by_cases hba : b = a
  · subst hba
    rw [update_self, hmap, h.made, Option.some.injEq]
    constructor
    · exact fun hw => Or.inr ⟨rfl, hw.symm⟩
    · rintro (hw | ⟨-, hw⟩)
      · cases hw
      · exact hw.symm
  · rw [update_of_ne hba]
    exact (or_iff_left fun hb => hba hb.1).symm

theorem map_del_iff (h : Models m s) (hmap : m.map a = some v) {w : Nat} :
    update m.map a none b = some w ↔ m.map b = some w ∧ w ≠ v := by
  by_cases hba : b = a
  · subst hba
    rw [update_self, hmap, Option.some.injEq]
    constructor
    · nofun
    · rintro ⟨hw, hne⟩
      exact absurd hw.symm hne
  · rw [update_of_ne hba]
    refine ⟨fun hw => ⟨hw, ?_⟩, And.left⟩
    rintro rfl
    exact hba (h.inj hw hmap)

theorem Models.add (h : Models m s) {m' : Spec}
    (hm' : ∀ b w, m'.map b = some w ↔ m.map b = some w ∨ b = a ∧ w = s.made)
    (hcount : m'.made = m.made + 1) {u : IPv4Table}
    (ht : ∃ key, RadixTree.Formed u.tree key) (hn : s.tree.entry n = none)
    (hentry : u.tree.entry = update s.tree.entry n (some (prefixInit a, some s.made)))
    {x : IPv4TableNode} (hx : x.addr = a)
    (hlist : (u.list, u.links) =
      Linked.add s.list (update s.links s.made .null) s.made (some s.made))
    (hitems : u.items = update s.items s.made (some x)) (hmade : u.made = s.made + 1) :
    Models m' u := by
  have hnew : ∀ {b v}, m.map b = some v → v ≠ s.made := by
    intro b v hb heq
    have hlt := h.fresh b v hb
    rw [heq, h.made] at hlt
    exact Nat.lt_irrefl _ hlt
  refine ⟨ht, ?_, ?_, ?_, ?_, ?_, ?_, ?_⟩
  · intro b v hb
    rw [hentry]
    rcases (hm' b v).mp hb with hb | ⟨rfl, rfl⟩
    · obtain ⟨i, hi⟩ := h.kept b v hb
      have hin : i ≠ n := by
        rintro rfl
        rw [hn] at hi
        cases hi
      exact ⟨i, by rw [update_of_ne hin, hi]⟩
    · exact ⟨n, update_self ..⟩
  · intro i p d hi
    rw [hentry] at hi
    by_cases hin : i = n
    · subst hin
      rw [update_self] at hi
      obtain ⟨rfl, rfl⟩ := Prod.mk.inj (Option.some.inj hi)
      exact ⟨a, s.made, rfl, rfl, (hm' _ _).mpr (Or.inr ⟨rfl, rfl⟩)⟩
    · rw [update_of_ne hin] at hi
      obtain ⟨b, v, hp, hd, hb⟩ := h.only i p d hi
      exact ⟨b, v, hp, hd, (hm' _ _).mpr (Or.inl hb)⟩
  · obtain ⟨xs, hxs, hmem⟩ := h.list
    have hnot : s.made ∉ xs := by
      intro hin
      obtain ⟨b, hb⟩ := (hmem _).mp hin
      exact hnew hb rfl
    have hframe : IsList (update s.links s.made .null) s.list xs := by
      refine hxs.frame fun v hv => update_of_ne ?_ ..
      rintro rfl
      exact hnot hv
    have hadd := hframe.add hnot (some s.made)
    rw [← hlist] at hadd
    refine ⟨s.made :: xs, hadd, fun v => ?_⟩
    rw [List.mem_cons, hmem]
    constructor
    · rintro (rfl | ⟨b, hb⟩)
      · exact ⟨a, (hm' _ _).mpr (Or.inr ⟨rfl, rfl⟩)⟩
      · exact ⟨b, (hm' _ _).mpr (Or.inl hb)⟩
    · rintro ⟨b, hb⟩
      rcases (hm' b v).mp hb with hb | ⟨-, hv⟩
      · exact Or.inr ⟨b, hb⟩
      · exact Or.inl hv
  · intro b v hb
    rw [hitems]
    rcases (hm' b v).mp hb with hb | ⟨rfl, rfl⟩
    · obtain ⟨y, hy, haddr⟩ := h.live b v hb
      exact ⟨y, by rw [update_of_ne (hnew hb), hy], haddr⟩
    · exact ⟨x, update_self .., hx⟩
  · intro v y hy
    rw [hitems] at hy
    by_cases hv : v = s.made
    · subst hv
      rw [update_self] at hy
      obtain rfl := Option.some.inj hy
      exact (hm' _ _).mpr (Or.inr ⟨hx, rfl⟩)
    · rw [update_of_ne hv] at hy
      exact (hm' _ _).mpr (Or.inl (h.items v y hy))
  · rw [hmade, hcount, h.made]
  · intro b v hb
    rw [hcount]
    rcases (hm' b v).mp hb with hb | ⟨-, rfl⟩
    · exact Nat.lt_succ_of_lt (h.fresh b v hb)
    · exact h.made ▸ Nat.lt_succ_self _

theorem Models.del (h : Models m s) (hmap : m.map a = some v) {m' : Spec}
    (hm' : ∀ b w, m'.map b = some w ↔ m.map b = some w ∧ w ≠ v) (hcount : m'.made = m.made)
    {u : IPv4Table} (ht : ∃ key, RadixTree.Formed u.tree key)
    (hn : s.tree.entry n = some (prefixInit a, some v))
    (hentry : u.tree.entry = update s.tree.entry n none)
    (hlist : (u.list, u.links) = Linked.delete s.list s.links v)
    (hitems : u.items = update s.items v none) (hmade : u.made = s.made) :
    Models m' u := by
  refine ⟨ht, ?_, ?_, ?_, ?_, ?_, ?_, ?_⟩
  · intro b w hb
    obtain ⟨hb, hne⟩ := (hm' b w).mp hb
    obtain ⟨i, hi⟩ := h.kept b w hb
    have hin : i ≠ n := by
      rintro rfl
      rw [hn] at hi
      exact hne (Option.some.inj (Prod.mk.inj (Option.some.inj hi)).2).symm
    exact ⟨i, by rw [hentry, update_of_ne hin, hi]⟩
  · intro i p d hi
    rw [hentry] at hi
    have hin : i ≠ n := by
      rintro rfl
      rw [update_self] at hi
      cases hi
    rw [update_of_ne hin] at hi
    obtain ⟨b, w, hp, hd, hb⟩ := h.only i p d hi
    refine ⟨b, w, hp, hd, (hm' _ _).mpr ⟨hb, ?_⟩⟩
    rintro rfl
    obtain rfl := h.inj hb hmap
    obtain ⟨key, hformed⟩ := h.tree
    exact hin (hformed.entry_inj hi hn (congrArg RadixPrefix.key hp))
  · obtain ⟨xs, hxs, hmem⟩ := h.list
    have hdelete := hxs.delete ((hmem v).mpr ⟨a, hmap⟩)
    rw [← hlist] at hdelete
    refine ⟨xs.erase v, hdelete, fun w => ?_⟩
    rw [hxs.nodup.mem_erase_iff, hmem]
    simp only [hm', exists_and_right]
    exact And.comm
  · intro b w hb
    obtain ⟨hb, hne⟩ := (hm' b w).mp hb
    obtain ⟨y, hy, haddr⟩ := h.live b w hb
    exact ⟨y, by rw [hitems, update_of_ne hne, hy], haddr⟩
  · intro w y hy
    rw [hitems] at hy
    have hne : w ≠ v := by
      rintro rfl
      rw [update_self] at hy
      cases hy
    rw [update_of_ne hne] at hy
    exact (hm' _ _).mpr ⟨h.items w y hy, hne⟩
  · rw [hmade, hcount, h.made]
  · intro b w hb
    rw [hcount]
    exact h.fresh b w ((hm' b w).mp hb).1

theorem Models.setItem (h : Models m s) {x y : IPv4TableNode} (hx : s.items v = some x)
    (hy : y.addr = x.addr) :
    Models m { s with items := update s.items v (some y) } := by
  refine ⟨h.tree, h.kept, h.only, h.list, ?_, ?_, h.made, h.fresh⟩
  · intro b w hb
    obtain ⟨z, hz, haddr⟩ := h.live b w hb
    by_cases hw : w = v
    · subst hw
      obtain rfl : x = z := Option.some.inj (hx.symm.trans hz)
      exact ⟨y, update_self .., hy.trans haddr⟩
    · exact ⟨z, (update_of_ne hw ..).trans hz, haddr⟩
  · intro w z hz
    change update s.items v (some y) w = some z at hz
    by_cases hw : w = v
    · subst hw
      rw [update_self] at hz
      obtain rfl := Option.some.inj hz
      rw [hy]
      exact h.items w x hx
    · rw [update_of_ne hw] at hz
      exact h.items w z hz

theorem itemAdd_ends (h : Models m s) (ha : Valid a) :
    Ends (Op.add a).exec s
      (fun r t => r = (m.exec (.add a)).1 ∧ Models (m.exec (.add a)).2 t) fun _ _ => False := by
  have hvalid : ¬(a = .none ∨ a = .any) := by
    rintro (heq | heq)
    · exact ha.1 heq
    · exact ha.2 heq
  rw [Op.exec, ends_bind, itemAddByInAddr, if_neg hvalid, ends_bind]
  refine (radixLookup_ends h ha).imp ?_
  rintro r t ⟨rfl, hr⟩
  cases r with
  | some n =>
      obtain ⟨v, hmap, he⟩ := hr
      refine (ends_data he pure).mpr ?_
      simp only [Spec.exec, hmap]
      exact ⟨rfl, h⟩
  | none =>
      obtain ⟨hmap, hnone⟩ := hr
      obtain ⟨key, htree⟩ := h.tree
      simp only [Spec.exec, hmap, itemNew, ends_bind, ends_get, ends_set, ends_pure, ends_onTree]
      refine (RadixTree.lookup_ends htree (prefixInit a)).imp ?_
      rintro i u ⟨⟨key', hu⟩, hinserted⟩
      rcases hinserted with ⟨-, e, he, hk⟩ | ⟨-, hi, hentry⟩
      · exact absurd hk (hnone i e he)
      have hself : u.entry i = some (prefixInit a, none) := by
        rw [hentry, update_self]
      obtain ⟨x, hx, hpfx, -⟩ := RadixTree.entry_eq_some.mp hself
      have hok := hu.node i x hx
      rw [RadixTree.ends_modifyNode hx, ends_modify]
      refine ⟨by rw [h.made], h.add (fun b w => map_add_iff h hmap) rfl ⟨key', ?_⟩ hi ?_
        (x := ⟨none, a⟩) rfl rfl rfl rfl⟩
      · refine RadixTree.setNode_formed hu hx (fun _ => rfl) rfl
          ⟨hok.bit, hok.le, hok.stored, fun hglue => ?_⟩ fun hglue => ?_
        · exact absurd (hpfx.symm.trans hglue) (Option.some_ne_none _)
        · exact absurd (hpfx.symm.trans hglue) (Option.some_ne_none _)
      · rw [RadixTree.entry_setNode, hentry, update_idem]
        simp only [hpfx, Option.map_some]

theorem itemDel_ends (h : Models m s) (ha : Valid a) :
    Ends (Op.del a).exec s
      (fun r t => r = (m.exec (.del a)).1 ∧ Models (m.exec (.del a)).2 t) fun _ _ => False := by
  rw [Op.exec, ends_bind, itemDelByInAddr, ends_bind]
  refine (radixLookup_ends h ha).imp ?_
  rintro r t ⟨rfl, hr⟩
  cases r with
  | none =>
      have hsame : update m.map a none = m.map := by
        rw [← hr.1, update_eq_self]
      simp only [Spec.exec, hr.1, hsame]
      exact ⟨rfl, h⟩
  | some n =>
      obtain ⟨v, hmap, he⟩ := hr
      obtain ⟨x, hx, -⟩ := h.live a v hmap
      obtain ⟨key, htree⟩ := h.tree
      obtain ⟨y, hy, -, hdata⟩ := RadixTree.entry_eq_some.mp he
      simp only [Spec.exec, hmap, Option.isSome_some, ends_bind, ends_onTree,
        RadixTree.ends_node hy, hdata, RadixTree.follow, ends_pure, item, ends_get, hx,
        ends_modify]
      refine (RadixTree.remove_ends htree hy).imp ?_
      rintro _ u ⟨hu, hentry⟩
      cases x.destroyCb with
      | none =>
          refine ⟨rfl, ?_⟩
          apply h.del hmap (fun b w => map_del_iff h hmap)
          case ht => exact ⟨key, hu⟩
          case hn => exact he
          case hentry => exact hentry
          all_goals rfl
      | some cb =>
          refine ⟨rfl, ?_⟩
          apply h.del hmap (fun b w => map_del_iff h hmap)
          case ht => exact ⟨key, hu⟩
          case hn => exact he
          case hentry => exact hentry
          all_goals rfl

theorem setDestroyCb_ends (h : Models m s) (ha : Valid a) (cb : Nat) :
    Ends (Op.setDestroyCb a cb).exec s (fun r t => r = .done true ∧ Models m t)
      fun _ _ => False := by
  rw [Op.exec, ends_bind, setDestroyCb, ends_bind]
  refine (itemLookup_ends h ha).imp ?_
  rintro r t ⟨rfl, rfl⟩
  cases hmap : m.map a with
  | none => exact ⟨rfl, h⟩
  | some v =>
      obtain ⟨x, hx, -⟩ := h.live a v hmap
      simp only [ends_bind, item, ends_get, hx, ends_pure, ends_modify]
      exact ⟨trivial, h.setItem hx rfl⟩

theorem exec_models (o : Op) (h : Models m s) (ho : Valid o.addr) :
    Ends o.exec s (fun r t => r = (m.exec o).1 ∧ Models (m.exec o).2 t) fun _ _ => False := by
  cases o with
  | add a => exact itemAdd_ends h ho
  | lookup a =>
      rw [Op.exec, ends_bind]
      refine (itemLookup_ends h ho).imp ?_
      rintro r t ⟨rfl, rfl⟩
      exact ⟨rfl, h⟩
  | del a => exact itemDel_ends h ho
  | setDestroyCb a cb => exact setDestroyCb_ends h ho cb

end Steps

theorem run_models (ops : List Op) (hops : ∀ o ∈ ops, Valid o.addr) :
    (run handle (.live new) ops).fault = none ∧
      Models (ops.foldl Spec.step .new) (run handle (.live new) ops).state := by
  have hrun : Holds (Models (ops.foldl Spec.step .new)) (fun _ _ => False)
      (run handle (.live new) ops) := by
    refine refines_run (P := fun _ _ o => Valid o.addr) (c := .live new) ?_ models_new ops
      (meetsAlong_of_forall hops)
    intro o m s h ho
    rw [handle, ends_bind]
    exact (exec_models o h ho).imp fun _ _ ht => ht.2
  exact hrun.safe

/-- **The table is a finite map.**  After any operations on addresses other than
`0.0.0.0` and `255.255.255.255` the next one returns what the map says, which has
no node for two addresses; the list holds just the nodes of the map; and these are
the nodes that are allocated, each with its address. -/
theorem run_isMap (ops : List Op) (hops : ∀ o ∈ ops, Valid o.addr) :
    (run handle (.live new) ops).fault = none ∧
      (∀ o : Op, Valid o.addr → Ends o.exec (run handle (.live new) ops).state
        (fun r _ => r = ((ops.foldl Spec.step .new).exec o).1) fun _ _ => False) ∧
      (∀ a b v, (ops.foldl Spec.step .new).map a = some v →
        (ops.foldl Spec.step .new).map b = some v → a = b) ∧
      (∃ xs, IsList (run handle (.live new) ops).state.links
          (run handle (.live new) ops).state.list xs ∧
        ∀ v, v ∈ xs ↔ ∃ a, (ops.foldl Spec.step .new).map a = some v) ∧
      ∀ a v, (ops.foldl Spec.step .new).map a = some v ↔
        ∃ x, (run handle (.live new) ops).state.items v = some x ∧ x.addr = a := by
  obtain ⟨hfault, h⟩ := run_models ops hops
  refine ⟨hfault, ?_, ?_, h.list, ?_⟩
  · intro o ho
    exact (exec_models o h ho).imp fun _ _ ht => ht.1
  · exact fun a b v ha hb => h.inj ha hb
  · intro a v
    refine ⟨h.live a v, ?_⟩
    rintro ⟨x, hx, rfl⟩
    exact h.items v x hx

/-- Two addresses, of which one is deleted. -/
theorem run_isMap_two :
    (run handle (.live new) [.add ⟨[10, 0, 0, 1], rfl⟩, .add ⟨[10, 0, 0, 2], rfl⟩,
        .del ⟨[10, 0, 0, 1], rfl⟩]).fault = none ∧
      Ends (Op.lookup ⟨[10, 0, 0, 2], rfl⟩).exec
        (run handle (.live new) [.add ⟨[10, 0, 0, 1], rfl⟩, .add ⟨[10, 0, 0, 2], rfl⟩,
          .del ⟨[10, 0, 0, 1], rfl⟩]).state
        (fun r _ => r = .node (some 1)) (fun _ _ => False) ∧
      Ends (Op.lookup ⟨[10, 0, 0, 1], rfl⟩).exec
        (run handle (.live new) [.add ⟨[10, 0, 0, 1], rfl⟩, .add ⟨[10, 0, 0, 2], rfl⟩,
          .del ⟨[10, 0, 0, 1], rfl⟩]).state
        (fun r _ => r = .node none) fun _ _ => False := by
  have h := run_isMap [.add ⟨[10, 0, 0, 1], rfl⟩, .add ⟨[10, 0, 0, 2], rfl⟩,
    .del ⟨[10, 0, 0, 1], rfl⟩] (by decide)
  exact ⟨h.1, h.2.1 (.lookup ⟨[10, 0, 0, 2], rfl⟩) (by decide),
    h.2.1 (.lookup ⟨[10, 0, 0, 1], rfl⟩) (by decide)⟩

end IPv4Table

end BrbData
