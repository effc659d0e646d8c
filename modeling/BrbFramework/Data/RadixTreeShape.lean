import BrbFramework.Data.RadixTreeBits

/-!
# The shape of a `RadixTree`

With a key for each node, which is the node's prefix or, in a glue node, what
the prefixes below have in common, the heap is a trie. The keys are not in the
heap: a glue node has only their length.

`Attached`, `Above` and `Excised` say of which assignments to which nodes the
changes of a trie consist.
-/

namespace BrbData

open Handler Trie Function

def RadixNode.child (x : RadixNode) (b : Bool) : Option Nat := if b then x.r else x.l

def RadixNode.setChild (x : RadixNode) (b : Bool) (new : Option Nat) : RadixNode :=
  if b then { x with r := new } else { x with l := new }

/-- The pointer to the child `n` is set to `new`. -/
def RadixNode.relink (x : RadixNode) (n : Nat) (new : Option Nat) : RadixNode :=
  if x.r = some n then { x with r := new } else { x with l := new }

/-- What a node says apart from where its neighbours are. -/
structure RadixNode.SameCore (x y : RadixNode) : Prop where
  bit : y.bit = x.bit
  pfx : y.pfx = x.pfx
  data : y.data = x.data

namespace RadixNode

variable {x y : RadixNode} {n : Nat} {b c : Bool} {new : Option Nat}

@[simp] theorem child_setChild_self : (x.setChild b new).child b = new := by
  cases b <;> rfl

theorem child_setChild_of_ne (h : c ≠ b) : (x.setChild b new).child c = x.child c := by
  cases b <;> cases c <;> first | exact absurd rfl h | rfl

@[simp] theorem setChild_parent : (x.setChild b new).parent = x.parent := by
  cases b <;> rfl

theorem sameCore_setChild : x.SameCore (x.setChild b new) := by
  cases b <;> exact ⟨rfl, rfl, rfl⟩

@[simp] theorem relink_parent : (x.relink n new).parent = x.parent := by
  unfold relink
  split <;> rfl

theorem sameCore_relink : x.SameCore (x.relink n new) := by
  unfold relink
  split <;> exact ⟨rfl, rfl, rfl⟩

theorem child_relink (hb : x.child b = some n) (honly : ∀ c, x.child c = some n → c = b) :
    (x.relink n new).child c = if x.child c = some n then new else x.child c := by
  have hset : x.relink n new = x.setChild b new := by
    cases b with
    | true => exact if_pos hb
    | false =>
        have hr : x.r ≠ some n := fun hr => absurd (honly true hr) (by decide)
        exact if_neg hr
  rw [hset]
  by_cases hc : c = b
  · subst hc
    rw [child_setChild_self, if_pos hb]
  · have hne : x.child c ≠ some n := fun hcn => hc (honly c hcn)
    rw [child_setChild_of_ne hc, if_neg hne]

end RadixNode

namespace RadixTree

/-! ### The primitives -/

def setNode (s : RadixTree) (i : Nat) (x : Option RadixNode) : RadixTree :=
  { s with nodes := Function.update s.nodes i x }

def allocated (s : RadixTree) (x : RadixNode) : RadixTree :=
  { s.setNode s.made (some x) with
    made := s.made + 1
    numActiveNode := s.numActiveNode + 1 }

def released (s : RadixTree) (i : Nat) : RadixTree :=
  { s.setNode i none with numActiveNode := s.numActiveNode - 1 }

/-- The tree with `new` in the place of `n`. -/
def relinked (s : RadixTree) (parent : Option Nat) (n : Nat) (new : Option Nat) : RadixTree :=
  { s with
    head := if parent = none then new else s.head
    nodes := fun m =>
      if parent = some m then (s.nodes m).map fun y => y.relink n new else s.nodes m }

section Primitives

variable {s : RadixTree} {ptr i m : Nat} {x : RadixNode} {o : Option RadixNode}
  {parent new : Option Nat} {Q : Nat → RadixTree → Prop}
  {R : PUnit → RadixTree → Prop} {E : Fault → RadixTree → Prop}

@[simp] theorem setNode_nodes_self : (s.setNode i o).nodes i = o := update_self ..

theorem setNode_nodes_of_ne (h : m ≠ i) : (s.setNode i o).nodes m = s.nodes m :=
  update_of_ne h ..

@[simp] theorem setNode_head : (s.setNode i o).head = s.head := rfl

@[simp] theorem allocated_nodes_self : (s.allocated x).nodes s.made = some x :=
  update_self ..

theorem allocated_nodes_of_ne (h : m ≠ s.made) : (s.allocated x).nodes m = s.nodes m :=
  update_of_ne h ..

@[simp] theorem allocated_made : (s.allocated x).made = s.made + 1 := rfl

@[simp] theorem allocated_maxbits : (s.allocated x).maxbits = s.maxbits := rfl

@[simp] theorem released_nodes_self : (s.released i).nodes i = none := update_self ..

theorem released_nodes_of_ne (h : m ≠ i) : (s.released i).nodes m = s.nodes m :=
  update_of_ne h ..

theorem relinked_nodes_parent (h : parent = some m) (hx : s.nodes m = some x) :
    (s.relinked parent i new).nodes m = some (x.relink i new) := by
  simp [relinked, h, hx]

theorem relinked_nodes_of_ne (h : parent ≠ some m) :
    (s.relinked parent i new).nodes m = s.nodes m := if_neg h

@[simp] theorem relinked_head :
    (s.relinked parent i new).head = if parent = none then new else s.head := rfl

theorem ends_node {P : RadixNode → RadixTree → Prop} (h : s.nodes ptr = some x) :
    Ends (node ptr) s P E ↔ P x s := by
  simp only [node, ends_bind, ends_get, h, ends_pure]

theorem ends_modifyNode (h : s.nodes ptr = some x) (f : RadixNode → RadixNode) :
    Ends (modifyNode ptr f) s R E ↔ R PUnit.unit (s.setNode ptr (some (f x))) := by
  simp only [modifyNode, ends_bind, ends_node h, ends_modify, setNode]

theorem ends_malloc : Ends (malloc x) s Q E ↔ Q s.made (s.allocated x) := by
  simp only [malloc, ends_bind, ends_get, ends_set, ends_pure, allocated, setNode]

theorem ends_free : Ends (free ptr) s R E ↔ R PUnit.unit (s.released ptr) := by
  simp only [free, ends_modify, released, setNode]

theorem ends_relink (h : ∀ p, parent = some p → ∃ y, s.nodes p = some y) :
    Ends (relink parent ptr new) s R E ↔ R PUnit.unit (s.relinked parent ptr new) := by
  cases parent with
  | none => simp [relink, relinked]
  | some p =>
      obtain ⟨y, hy⟩ := h p rfl
      have hnodes : update s.nodes p (some (y.relink ptr new)) =
          (s.relinked (some p) ptr new).nodes := by
        funext m
        by_cases hm : m = p
        · subst hm
          rw [update_self, relinked_nodes_parent rfl hy]
        · rw [update_of_ne hm, relinked_nodes_of_ne (by simpa using Ne.symm hm)]
      have hstate : s.setNode p (some (y.relink ptr new)) = s.relinked (some p) ptr new := by
        simp [setNode, relinked, hnodes]
      simp only [relink]
      rw [ends_modifyNode hy, ← hstate]
      rfl

end Primitives

/-! ### The tree as a trie -/

/-- The trie of the heap, for the keys of its nodes. -/
def trie (s : RadixTree) (key : Nat → List Bool) : PTrie Nat Bool where
  root := s.head
  live := fun n => (s.nodes n).isSome
  key := key
  child := fun n b => (s.nodes n).bind fun x => x.child b
  parent := fun n => (s.nodes n).bind RadixNode.parent

section Trie

variable {s t : RadixTree} {key : Nat → List Bool} {n m g c : Nat} {x y : RadixNode} {b : Bool}

theorem trie_live (h : s.nodes n = some x) : (s.trie key).live n := by
  simp [trie, h]

theorem exists_node (h : (s.trie key).live n) : ∃ x, s.nodes n = some x :=
  Option.isSome_iff_exists.mp h

theorem trie_child (h : s.nodes n = some x) : (s.trie key).child n b = x.child b := by
  simp [trie, h]

theorem trie_parent (h : s.nodes n = some x) : (s.trie key).parent n = x.parent := by
  simp [trie, h]

theorem exists_parent (h : (s.trie key).Formed) (hx : s.nodes n = some x) {p : Nat}
    (hp : x.parent = some p) :
    ∃ y, s.nodes p = some y ∧ (∃ b, y.child b = some n) ∧
      ∀ new c, (y.relink n new).child c = if y.child c = some n then new else y.child c := by
  obtain ⟨hlive, b, hc⟩ := h.parent (trie_live hx) ((trie_parent hx).trans hp)
  obtain ⟨y, hy⟩ := exists_node hlive
  rw [trie_child hy] at hc
  refine ⟨y, hy, ⟨b, hc⟩, ?_⟩
  intro new c
  apply RadixNode.child_relink hc
  intro c' hc'
  exact (h.child_inj hlive hlive ((trie_child hy).trans hc') ((trie_child hy).trans hc)).2

theorem child_eq_iff (h : (s.trie key).Formed) (hm : s.nodes m = some y) (hx : s.nodes n = some x)
    (hc : y.child b = some n) : x.parent = some m := by
  have hpar := (h.child (trie_live hm) ((trie_child hm).trans hc)).2.1
  rwa [trie_parent hx] at hpar

theorem head_eq_iff (h : (s.trie key).Formed) (hx : s.nodes n = some x) :
    s.head = some n ↔ x.parent = none := by
  constructor
  · intro hroot
    exact (trie_parent hx).symm.trans (h.root hroot).2
  · intro hp
    exact h.parentless (trie_live hx) ((trie_parent hx).trans hp)

theorem parent_ne_self (h : (s.trie key).Formed) (hx : s.nodes n = some x) : x.parent ≠ some n := by
  intro hp
  exact absurd (h.length_parent_lt (trie_live hx) ((trie_parent hx).trans hp)) (Nat.lt_irrefl _)

theorem child_ne_self (h : (s.trie key).Formed) (hx : s.nodes n = some x) : x.child b ≠ some n := by
  intro hc
  exact absurd (h.length_lt_child (trie_live hx) ((trie_child hx).trans hc)) (Nat.lt_irrefl _)

variable {k : List Bool} {fresh : RadixNode}

/-- A new node without children, to which one child pointer of `n` is set. -/
structure Attached (s t : RadixTree) (n g : Nat) (x fresh : RadixNode) (b : Bool) : Prop where
  old : s.nodes n = some x
  unused : s.nodes g = none
  new : t.nodes g = some fresh
  leaf : ∀ c, fresh.child c = none
  parent : fresh.parent = some n
  linked : t.nodes n = some (x.setChild b (some g))
  rest : ∀ m, m ≠ g → m ≠ n → t.nodes m = s.nodes m
  head : t.head = s.head

theorem Attached.trie_eq (ha : Attached s t n g x fresh b) :
    t.trie (update key g k) = (s.trie key).attach g k b n := by
  obtain ⟨hx, hg, htg, hleaf, hpar, htn, hrest, hhead⟩ := ha
  have hng : n ≠ g := by
    rintro rfl
    rw [hx] at hg
    cases hg
  apply PTrie.ext
  · exact hhead
  · funext m
    by_cases hmg : m = g
    · simp [trie, PTrie.attach, hmg, htg]
    · by_cases hmn : m = n
      · simp [trie, PTrie.attach, hmn, hx, htn]
      · simp [trie, PTrie.attach, hmg, hrest m hmg hmn]
  · rfl
  · funext m c
    by_cases hmg : m = g
    · subst hmg
      rw [PTrie.attach_child_self, trie_child htg, hleaf]
    · by_cases hplace : m = n ∧ c = b
      · obtain ⟨rfl, rfl⟩ := hplace
        rw [PTrie.attach_child_parent hng, trie_child htn, RadixNode.child_setChild_self]
      · rw [PTrie.attach_child_of_ne hmg hplace]
        by_cases hmn : m = n
        · subst hmn
          have hcb : c ≠ b := fun hcb => hplace ⟨rfl, hcb⟩
          rw [trie_child htn, trie_child hx, RadixNode.child_setChild_of_ne hcb]
        · simp only [trie, hrest m hmg hmn]
  · funext m
    by_cases hmg : m = g
    · subst hmg
      rw [PTrie.attach_parent_self, trie_parent htg, hpar]
    · rw [PTrie.attach_parent_of_ne hmg]
      by_cases hmn : m = n
      · subst hmn
        rw [trie_parent htn, trie_parent hx, RadixNode.setChild_parent]
      · simp only [trie, hrest m hmg hmn]

/-- A new node that has `n` as its only child, takes the parent of `n`, and is
linked in the place of `n`. -/
structure Above (s t : RadixTree) (n g : Nat) (x fresh : RadixNode) (b : Bool) : Prop where
  old : s.nodes n = some x
  unused : s.nodes g = none
  new : t.nodes g = some fresh
  only : ∀ c, fresh.child c = if c = b then some n else none
  parent : fresh.parent = x.parent
  child : t.nodes n = some { x with parent := some g }
  linked : ∀ p y, x.parent = some p → s.nodes p = some y → t.nodes p = some (y.relink n (some g))
  rest : ∀ m, m ≠ g → m ≠ n → x.parent ≠ some m → t.nodes m = s.nodes m
  head : t.head = if x.parent = none then some g else s.head

theorem Above.cases (ha : Above s t n g x fresh b) (h : (s.trie key).Formed) (hmg : m ≠ g)
    (hmn : m ≠ n) :
    t.nodes m = s.nodes m ∧ x.parent ≠ some m ∨
      ∃ y, x.parent = some m ∧ s.nodes m = some y ∧ t.nodes m = some (y.relink n (some g)) ∧
        ∀ new c, (y.relink n new).child c = if y.child c = some n then new else y.child c := by
  by_cases hxm : x.parent = some m
  · obtain ⟨y, hy, -, hrelink⟩ := exists_parent h ha.old hxm
    exact Or.inr ⟨y, hxm, hy, ha.linked m y hxm hy, hrelink⟩
  · exact Or.inl ⟨ha.rest m hmg hmn hxm, hxm⟩

theorem Above.trie_eq (ha : Above s t n g x fresh b) (h : (s.trie key).Formed) :
    t.trie (update key g k) = (s.trie key).above g k b n := by
  have hcases := fun m => ha.cases (m := m) h
  obtain ⟨hx, hg, htg, honly, hpar, htn, hp, hrest, hhead⟩ := ha
  have hng : n ≠ g := by
    rintro rfl
    rw [hx] at hg
    cases hg
  apply PTrie.ext
  · simp only [PTrie.above, trie_parent hx]
    exact hhead
  · funext m
    by_cases hmg : m = g
    · simp [trie, PTrie.above, hmg, htg]
    · by_cases hmn : m = n
      · simp [trie, PTrie.above, hmn, hx, htn]
      · rcases hcases m hmg hmn with ⟨hsame, -⟩ | ⟨y, -, hy, hty, -⟩
        · simp [trie, PTrie.above, hmg, hsame]
        · simp [trie, PTrie.above, hy, hty]
  · rfl
  · funext m c
    by_cases hmg : m = g
    · subst hmg
      rw [trie_child htg, honly]
      by_cases hcb : c = b
      · rw [if_pos hcb, hcb, PTrie.above_child_self]
      · simp [PTrie.above, hcb]
    · by_cases hmn : m = n
      · subst hmn
        have hne : (s.trie key).child m c ≠ some m := by
          rw [trie_child hx]
          exact child_ne_self h hx
        rw [PTrie.above_child_of_ne hmg hne, trie_child htn, trie_child hx]
        rfl
      · rcases hcases m hmg hmn with ⟨hsame, hxm⟩ | ⟨y, -, hy, hty, hrelink⟩
        · have hne : (s.trie key).child m c ≠ some n := by
            intro hc
            obtain ⟨y, hy, hyc⟩ := Option.bind_eq_some_iff.mp hc
            exact hxm (child_eq_iff h hy hx hyc)
          rw [PTrie.above_child_of_ne hmg hne]
          simp only [trie, hsame]
        · rw [trie_child hty, hrelink]
          by_cases hc : y.child c = some n
          · rw [if_pos hc, PTrie.above_child_of_eq hmg ((trie_child hy).trans hc)]
          · rw [if_neg hc, PTrie.above_child_of_ne hmg (by rwa [trie_child hy]), trie_child hy]
  · funext m
    by_cases hmg : m = g
    · subst hmg
      rw [PTrie.above_parent_self, trie_parent htg, trie_parent hx, hpar]
    · by_cases hmn : m = n
      · subst hmn
        rw [PTrie.above_parent_child hmg, trie_parent htn]
      · rw [PTrie.above_parent_of_ne hmg hmn]
        rcases hcases m hmg hmn with ⟨hsame, -⟩ | ⟨y, -, hy, hty, -⟩
        · simp only [trie, hsame]
        · rw [trie_parent hy, trie_parent hty, RadixNode.relink_parent]

/-- The node `n` is freed, and `o`, its only child if it has one, takes its
parent and is linked in its place. -/
structure Excised (s t : RadixTree) (n : Nat) (x : RadixNode) (o : Option Nat) : Prop where
  old : s.nodes n = some x
  child : ∀ c, o = some c → ∃ b, x.child b = some c
  freed : t.nodes n = none
  lifted : ∀ c y, o = some c → s.nodes c = some y → t.nodes c = some { y with parent := x.parent }
  linked : ∀ p y, x.parent = some p → s.nodes p = some y → t.nodes p = some (y.relink n o)
  rest : ∀ m, m ≠ n → o ≠ some m → x.parent ≠ some m → t.nodes m = s.nodes m
  head : t.head = if x.parent = none then o else s.head

theorem Excised.cases {o : Option Nat} (he : Excised s t n x o) (h : (s.trie key).Formed)
    (hmn : m ≠ n) :
    (t.nodes m = s.nodes m ∧ o ≠ some m ∧ x.parent ≠ some m) ∨
      (∃ y, o = some m ∧ x.parent ≠ some m ∧ s.nodes m = some y ∧
        t.nodes m = some { y with parent := x.parent }) ∨
      ∃ y, o ≠ some m ∧ x.parent = some m ∧ s.nodes m = some y ∧
        t.nodes m = some (y.relink n o) ∧
        ∀ new c, (y.relink n new).child c = if y.child c = some n then new else y.child c := by
  by_cases hxm : x.parent = some m
  · obtain ⟨y, hy, -, hrelink⟩ := exists_parent h he.old hxm
    refine Or.inr (Or.inr ⟨y, ?_, hxm, hy, he.linked m y hxm hy, hrelink⟩)
    -- A child that is the parent too would have a shorter and a longer key.
    intro hom
    obtain ⟨b, hb⟩ := he.child m hom
    have hlt := h.length_lt_child (trie_live he.old) ((trie_child he.old).trans hb)
    have hgt := h.length_parent_lt (trie_live he.old) ((trie_parent he.old).trans hxm)
    omega
  · by_cases hom : o = some m
    · obtain ⟨b, hb⟩ := he.child m hom
      obtain ⟨y, hy⟩ := exists_node (h.child (trie_live he.old) ((trie_child he.old).trans hb)).1
      exact Or.inr (Or.inl ⟨y, hom, hxm, hy, he.lifted m y hom hy⟩)
    · exact Or.inl ⟨he.rest m hmn hom hxm, hom, hxm⟩

theorem Excised.trie_eq {o : Option Nat} (he : Excised s t n x o) (h : (s.trie key).Formed) :
    t.trie key = (s.trie key).excise n o := by
  have hcases := fun m => he.cases (m := m) h
  obtain ⟨hx, ho, htn, hto, hp, hrest, hhead⟩ := he
  -- Only the parent points to the node.
  have hchild : ∀ {m c}, x.parent ≠ some m → (s.trie key).child m c ≠ some n := by
    intro m c hxm hc
    obtain ⟨y, hy, hyc⟩ := Option.bind_eq_some_iff.mp hc
    exact hxm (child_eq_iff h hy hx hyc)
  apply PTrie.ext
  · simp only [PTrie.excise]
    have hroot := head_eq_iff h hx
    by_cases hnone : x.parent = none
    · rw [if_pos (show (s.trie key).root = some n from hroot.mpr hnone)]
      exact hhead.trans (if_pos hnone)
    · rw [if_neg (show (s.trie key).root ≠ some n from mt hroot.mp hnone)]
      exact hhead.trans (if_neg hnone)
  · funext m
    by_cases hmn : m = n
    · simp [trie, PTrie.excise, hmn, htn]
    · rcases hcases m hmn with ⟨hsame, -, -⟩ | ⟨y, -, -, hy, hty⟩ | ⟨y, -, -, hy, hty, -⟩
      · simp [trie, PTrie.excise, hmn, hsame]
      · simp [trie, PTrie.excise, hmn, hy, hty]
      · simp [trie, PTrie.excise, hmn, hy, hty]
  · rfl
  · funext m c
    by_cases hmn : m = n
    · simp [trie, PTrie.excise, hmn, htn]
    · rcases hcases m hmn with ⟨hsame, -, hxm⟩ | ⟨y, -, hxm, hy, hty⟩ | ⟨y, -, -, hy, hty, hrelink⟩
      · rw [PTrie.excise_child_of_ne hmn (hchild hxm)]
        simp only [trie, hsame]
      · rw [PTrie.excise_child_of_ne hmn (hchild hxm), trie_child hy, trie_child hty]
        rfl
      · rw [trie_child hty, hrelink]
        by_cases hc : y.child c = some n
        · rw [if_pos hc, PTrie.excise_child_of_eq hmn ((trie_child hy).trans hc)]
        · rw [if_neg hc, PTrie.excise_child_of_ne hmn (by rwa [trie_child hy]), trie_child hy]
  · funext m
    by_cases hmn : m = n
    · simp [trie, PTrie.excise, hmn, htn]
    · rcases hcases m hmn with ⟨hsame, hom, -⟩ | ⟨y, hom, -, hy, hty⟩ | ⟨y, hom, -, hy, hty, -⟩
      · rw [PTrie.excise_parent_of_ne hmn hom]
        simp only [trie, hsame]
      · rw [PTrie.excise_parent_of_eq hmn hom, trie_parent hty, trie_parent hx]
      · rw [PTrie.excise_parent_of_ne hmn hom, trie_parent hty, trie_parent hy,
          RadixNode.relink_parent]

end Trie

end RadixTree

end BrbData
