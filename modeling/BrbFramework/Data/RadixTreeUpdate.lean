import BrbFramework.Data.RadixTreeSearch

/-!
# Insertion and removal in a `RadixTree`

`lookup` hangs a new leaf where there is no child, or puts its node above
another, or makes a glue node above the other and hangs the new leaf from that;
`remove` takes one node out, or a leaf and the glue node that it leaves with one
child. Each of these is one or two changes of the trie, and what the other
nodes keep is as before.
-/

namespace BrbData

open Handler Trie Function RadixNode

namespace RadixTree

section Kept

variable {s t : RadixTree} {key : Nat → List Bool} {k : List Bool} {n m g : Nat}
  {x y fresh : RadixNode} {b : Bool}

theorem NodeOk.of_sameCore (h : NodeOk k x) (hcore : x.SameCore y) : NodeOk k y where
  bit := hcore.bit.trans h.bit
  le := h.le
  stored p hp := h.stored p (hcore.pfx.symm.trans hp)
  glue hp := hcore.data.trans (h.glue (hcore.pfx.symm.trans hp))

/-- Only the neighbours of a node may have changed. -/
def KeptAt (s t : RadixTree) (m : Nat) : Prop :=
  t.nodes m = s.nodes m ∨ ∃ x y, s.nodes m = some x ∧ t.nodes m = some y ∧ x.SameCore y

theorem KeptAt.entry_eq (h : KeptAt s t m) : t.entry m = s.entry m := by
  rcases h with hsame | ⟨x, y, hx, hy, hcore⟩
  · simp only [entry, hsame]
  · simp only [entry, hx, hy, Option.bind_some, hcore.pfx, hcore.data]

theorem Attached.kept (ha : Attached s t n g x fresh b) (hm : m ≠ g) : KeptAt s t m := by
  by_cases hmn : m = n
  · subst hmn
    exact Or.inr ⟨x, _, ha.old, ha.linked, sameCore_setChild⟩
  · exact Or.inl (ha.rest m hm hmn)

theorem Above.kept (ha : Above s t n g x fresh b) (h : (s.trie key).Formed) (hm : m ≠ g) :
    KeptAt s t m := by
  by_cases hmn : m = n
  · subst hmn
    exact Or.inr ⟨x, _, ha.old, ha.child, rfl, rfl, rfl⟩
  rcases ha.cases h hm hmn with ⟨hsame, -⟩ | ⟨y, -, hy, hty, -⟩
  · exact Or.inl hsame
  · exact Or.inr ⟨y, _, hy, hty, sameCore_relink⟩

theorem Excised.kept {o : Option Nat} (he : Excised s t n x o) (h : (s.trie key).Formed)
    (hm : m ≠ n) : KeptAt s t m := by
  rcases he.cases h hm with ⟨hsame, -⟩ | ⟨y, -, -, hy, hty⟩ | ⟨y, -, -, hy, hty, -⟩
  · exact Or.inl hsame
  · exact Or.inr ⟨y, _, hy, hty, rfl, rfl, rfl⟩
  · exact Or.inr ⟨y, _, hy, hty, sameCore_relink⟩

theorem Shaped.of_kept (h : Shaped s key) {key' : Nat → List Bool}
    (htrie : (t.trie key').Formed) (hkept : ∀ m, m ≠ g → KeptAt s t m)
    (hkey : ∀ m, m ≠ g → key' m = key m)
    (hg : ∀ y, t.nodes g = some y → NodeOk (key' g) y ∧ g < t.made) (hmade : s.made ≤ t.made)
    (hmax : t.maxbits = s.maxbits) : Shaped t key' := by
  have hold : ∀ m y, m ≠ g → t.nodes m = some y → NodeOk (key' m) y ∧ m < t.made := by
    intro m y hm hy
    rw [hkey m hm]
    rcases hkept m hm with hsame | ⟨x, y', hx, hy', hcore⟩
    · rw [hsame] at hy
      exact ⟨h.node m y hy, (h.fresh m y hy).trans_le hmade⟩
    · obtain rfl : y' = y := Option.some.inj (hy'.symm.trans hy)
      exact ⟨(h.node m x hx).of_sameCore hcore, (h.fresh m x hx).trans_le hmade⟩
  have hall : ∀ m y, t.nodes m = some y → NodeOk (key' m) y ∧ m < t.made := by
    intro m y hy
    by_cases hm : m = g
    · subst hm
      exact hg y hy
    · exact hold m y hm hy
  exact ⟨htrie, fun m y hy => (hall m y hy).1, fun m y hy => (hall m y hy).2,
    hmax.trans h.maxbits⟩

theorem entry_of_kept (hkept : ∀ m, m ≠ g → KeptAt s t m) :
    t.entry = update s.entry g (t.entry g) := by
  funext m
  by_cases hm : m = g
  · rw [hm, update_self]
  · rw [update_of_ne hm]
    exact (hkept m hm).entry_eq

theorem Attached.shaped (ha : Attached s t n g x fresh b) (h : Shaped s key)
    (hfree : x.child b = none) (hk : key n ++ [b] <+: k) (hok : NodeOk k fresh)
    (hmade : s.made ≤ t.made) (hg : g < t.made) (hmax : t.maxbits = s.maxbits) :
    Shaped t (update key g k) := by
  have hdead : ¬ (s.trie key).live g := by simp [trie, ha.unused]
  apply h.of_kept (g := g)
  · rw [ha.trie_eq]
    exact h.trie.attach (trie_live ha.old) hdead ((trie_child ha.old).trans hfree) hk
  · exact fun m hm => ha.kept hm
  · exact fun m hm => update_of_ne hm ..
  · intro y hy
    obtain rfl : fresh = y := Option.some.inj (ha.new.symm.trans hy)
    exact ⟨by rwa [update_self], hg⟩
  · exact hmade
  · exact hmax

theorem Above.shaped (ha : Above s t n g x fresh b) (h : Shaped s key)
    (hk : k ++ [b] <+: key n) (hp : ∀ p, x.parent = some p → (key p).length < k.length)
    (hok : NodeOk k fresh) (hmade : s.made ≤ t.made) (hg : g < t.made)
    (hmax : t.maxbits = s.maxbits) : Shaped t (update key g k) := by
  have hdead : ¬ (s.trie key).live g := by simp [trie, ha.unused]
  apply h.of_kept (g := g)
  · rw [ha.trie_eq h.trie]
    apply h.trie.above (trie_live ha.old) hdead hk
    intro p hpar
    exact hp p ((trie_parent ha.old).symm.trans hpar)
  · exact fun m hm => ha.kept h.trie hm
  · exact fun m hm => update_of_ne hm ..
  · intro y hy
    obtain rfl : fresh = y := Option.some.inj (ha.new.symm.trans hy)
    exact ⟨by rwa [update_self], hg⟩
  · exact hmade
  · exact hmax

theorem Excised.shaped {o : Option Nat} (he : Excised s t n x o) (h : Shaped s key)
    (honly : ∀ b c, x.child b = some c → o = some c) (hmade : s.made ≤ t.made)
    (hmax : t.maxbits = s.maxbits) : Shaped t key := by
  apply h.of_kept (g := n)
  · rw [he.trie_eq h.trie]
    apply h.trie.excise (trie_live he.old)
    · intro b c hc
      exact honly b c ((trie_child he.old).symm.trans hc)
    · intro c hc
      obtain ⟨b, hb⟩ := he.child c hc
      exact ⟨b, (trie_child he.old).trans hb⟩
  · exact fun m hm => he.kept h.trie hm
  · exact fun m _ => rfl
  · intro y hy
    rw [he.freed] at hy
    cases hy
  · exact hmade
  · exact hmax

end Kept

/-! ### The way down and the way up -/

section Ways

variable {s : RadixTree} {key : Nat → List Bool} {vs : List Nat} {n : Nat}
  {addr : Nat → UInt8} {bitlen d fuel : Nat}

theorem lookupLoop_ends (h : Formed s key) (w : (s.trie key).Walk (addrBit addr) vs n)
    (hlen : bitlen ≤ 128) (hfuel : 129 ≤ fuel + (key n).length) :
    Ends (lookupLoop addr bitlen fuel n) s
      (fun n t => t = s ∧ ∃ us x p, (s.trie key).Walk (addrBit addr) us n ∧ s.nodes n = some x ∧
        x.pfx = some p ∧ ((key n).length < bitlen →
          (s.trie key).child n (addrBit addr (key n).length) = none)) fun _ _ => False := by
  induction fuel generalizing vs n with
  | zero =>
      have hle := h.length_le w
      omega
  | succ fuel ih =>
      obtain ⟨x, hx, hbit, hchild⟩ := h.at_node w
      have hstay : ∀ p, x.pfx = some p → ((key n).length < bitlen →
          (s.trie key).child n (addrBit addr (key n).length) = none) →
          ∃ us x p, (s.trie key).Walk (addrBit addr) us n ∧ s.nodes n = some x ∧
            x.pfx = some p ∧ ((key n).length < bitlen →
              (s.trie key).child n (addrBit addr (key n).length) = none) :=
        fun p hp hstuck => ⟨vs, x, p, w, hx, hp, hstuck⟩
      rw [lookupLoop, ends_bind, ends_node hx, ends_ite]
      refine ⟨fun hmore => ?_, fun hdone => ?_⟩
      · -- A glue node has a child with a longer key.
        have hroom : x.bit < 128 := by
          rcases hmore with hlt | hglue
          · omega
          · obtain ⟨c, hc⟩ := Option.isSome_iff_exists.mp
              (h.full n x hx hglue (addrBit addr (key n).length))
            have hc : (s.trie key).child n _ = some c := (trie_child hx).trans hc
            have hlt := h.trie.length_lt_child (w.live h.trie) hc
            have hle : (key c).length ≤ 128 := h.length_le (w.down hc)
            have hkeys : (s.trie key).key = key := rfl
            rw [hkeys] at hlt
            omega
        have hside : (if x.bit < s.maxbits ∧ bitTest addr x.bit = true then x.r else x.l) =
            (s.trie key).child n (addrBit addr (key n).length) := by
          rw [hchild, h.maxbits]
          simp only [hroom, true_and]
        rw [ends_bind, ends_get, hside]
        split
        case h_1 hnone =>
          obtain ⟨p, hp⟩ : ∃ p, x.pfx = some p := by
            rw [← Option.ne_none_iff_exists']
            intro hglue
            have hsome := h.full n x hx hglue (addrBit addr (key n).length)
            have hnone : x.child _ = none := (trie_child hx).symm.trans hnone
            rw [hnone] at hsome
            cases hsome
          exact ⟨rfl, hstay p hp fun _ => hnone⟩
        case h_2 c hc => exact ih (w.down hc) (h.fuel_down w hc hfuel)
      · obtain ⟨p, hp⟩ : ∃ p, x.pfx = some p :=
          Option.ne_none_iff_exists'.mp fun hglue => hdone (Or.inr hglue)
        refine ⟨rfl, hstay p hp fun hlt => absurd (Or.inl ?_) hdone⟩
        rwa [hbit]

theorem climb_ends (h : Formed s key) (w : (s.trie key).Walk (addrBit addr) vs n)
    (hd : d ≤ (key n).length) (hfuel : (key n).length < fuel) :
    Ends (climb d fuel n) s (fun r t => t = s ∧ (s.trie key).Place vs n d r) fun _ _ => False := by
  induction fuel generalizing vs n with
  | zero => exact absurd hfuel (Nat.not_lt_zero _)
  | succ fuel ih =>
      obtain ⟨x, hx, -, -⟩ := h.at_node w
      have hpar : x.parent = vs.head? := (trie_parent hx).symm.trans (w.parent_eq h.trie)
      rw [climb, ends_bind, ends_node hx]
      split
      case h_1 hnone =>
        refine ⟨rfl, List.mem_cons_self, hd, ?_⟩
        intro p hp
        rw [trie_parent hx, hnone] at hp
        cases hp
      case h_2 v hv =>
        obtain ⟨us, rfl⟩ : ∃ us, vs = v :: us := by
          rw [hpar] at hv
          exact List.head?_eq_some_iff.mp hv
        obtain ⟨y, hy, hbit, -⟩ := h.at_node w.up
        rw [ends_bind, ends_node hy, ends_ite, hbit]
        have hlt : (key v).length < (key n).length :=
          h.trie.length_parent_lt (trie_live hx) ((trie_parent hx).trans hv)
        refine ⟨fun hge => ?_, fun hge => ?_⟩
        · refine (ih w.up hge (by omega)).imp ?_
          rintro r t ⟨rfl, hplace⟩
          exact ⟨rfl, List.mem_cons_of_mem _ hplace.mem, hplace.le, hplace.parent_lt⟩
        · refine ⟨rfl, List.mem_cons_self, hd, ?_⟩
          intro p hp
          rw [trie_parent hx, hv] at hp
          obtain rfl : v = p := Option.some.inj hp
          exact Nat.lt_of_not_le hge

end Ways

/-! ### The three places of a new node -/

section Places

variable {s : RadixTree} {key : Nat → List Bool} {n d : Nat} {x leaf : RadixNode}
  {p : RadixPrefix} {b : Bool}

theorem Shaped.unused (h : Shaped s key) {m : Nat} (hm : s.made ≤ m) : s.nodes m = none := by
  by_contra hne
  obtain ⟨x, hx⟩ := Option.ne_none_iff_exists'.mp hne
  exact absurd (h.fresh m x hx) (Nat.not_lt.mpr hm)

theorem ne_of_unused {g : Nat} (hx : s.nodes n = some x) (hg : s.nodes g = none) : n ≠ g := by
  rintro rfl
  rw [hx] at hg
  cases hg

theorem Shaped.exists_parent (h : Shaped s key) (hx : s.nodes n = some x) {q : Nat}
    (hq : x.parent = some q) : ∃ y, s.nodes q = some y := by
  obtain ⟨y, hy, -, -⟩ := RadixTree.exists_parent h.trie hx hq
  exact ⟨y, hy⟩

theorem Shaped.ne_parent (h : Shaped s key) (hx : s.nodes n = some x) {q : Nat}
    (hq : x.parent = some q) : q ≠ n := by
  rintro rfl
  exact parent_ne_self h.trie hx hq

theorem lookupBelow_ends (h : Shaped s key) (hx : s.nodes n = some x) (hbit : x.bit < 128)
    (hb : addrBit p.uchar x.bit = b) (hleaf : ∀ c, leaf.child c = none) :
    Ends (lookupBelow p n s.made) (s.allocated leaf)
      (fun _ t => Attached s t n s.made x { leaf with parent := some n } b ∧
        t.made = s.made + 1 ∧ t.maxbits = s.maxbits) fun _ _ => False := by
  have hunused : s.nodes s.made = none := h.unused (Nat.le_refl _)
  have hng : n ≠ s.made := ne_of_unused hx hunused
  have hx₁ : ((s.allocated leaf).setNode s.made
      (some { leaf with parent := some n })).nodes n = some x := by
    rw [setNode_nodes_of_ne hng, allocated_nodes_of_ne hng, hx]
  have hside : (if x.bit < (s.allocated leaf).maxbits ∧ bitTest p.uchar x.bit = true
      then { x with r := some s.made } else { x with l := some s.made }) =
        x.setChild b (some s.made) := by
    rw [allocated_maxbits, h.maxbits, bitTest_eq, hb]
    simp only [hbit, true_and]
    rfl
  simp only [lookupBelow, ends_bind, ends_get]
  rw [ends_modifyNode allocated_nodes_self, ends_modifyNode hx₁, hside]
  refine ⟨⟨hx, hunused, ?_, hleaf, rfl, setNode_nodes_self, ?_, rfl⟩, rfl, rfl⟩
  · rw [setNode_nodes_of_ne (Ne.symm hng), setNode_nodes_self]
  · intro m hm hmn
    rw [setNode_nodes_of_ne hmn, setNode_nodes_of_ne hm, allocated_nodes_of_ne hm]

theorem linkAbove_ends (h : Shaped s key) (hx : s.nodes n = some x) {u : RadixTree} {g : Nat}
    {fresh : RadixNode} (hg : s.nodes g = none) (hug : u.nodes g = some fresh)
    (hold : ∀ m y, s.nodes m = some y → u.nodes m = some y) (hhead : u.head = s.head) :
    Ends (do
        relink x.parent n (some g)
        modifyNode n fun x => { x with parent := some g }) u
      (fun _ t => t.nodes g = some fresh ∧ t.nodes n = some { x with parent := some g } ∧
        (∀ q y, x.parent = some q → s.nodes q = some y → t.nodes q = some (y.relink n (some g))) ∧
        (∀ m, m ≠ n → x.parent ≠ some m → t.nodes m = u.nodes m) ∧
        (t.head = if x.parent = none then some g else s.head) ∧
        t.made = u.made ∧ t.maxbits = u.maxbits) fun _ _ => False := by
  have hng : n ≠ g := ne_of_unused hx hg
  have hnp : x.parent ≠ some n := fun hq => h.ne_parent hx hq rfl
  have hgp : x.parent ≠ some g := by
    intro hq
    obtain ⟨y, hy⟩ := h.exists_parent hx hq
    exact ne_of_unused hy hg rfl
  have hx₁ : (u.relinked x.parent n (some g)).nodes n = some x := by
    rw [relinked_nodes_of_ne hnp, hold n x hx]
  rw [ends_bind, ends_relink fun q hq => (h.exists_parent hx hq).imp fun y hy => hold q y hy,
    ends_modifyNode hx₁]
  refine ⟨?_, setNode_nodes_self, ?_, ?_, ?_, rfl, rfl⟩
  · rw [setNode_nodes_of_ne (Ne.symm hng), relinked_nodes_of_ne hgp, hug]
  · intro q y hq hy
    rw [setNode_nodes_of_ne (h.ne_parent hx hq), relinked_nodes_parent hq (hold q y hy)]
  · intro m hmn hmp
    rw [setNode_nodes_of_ne hmn, relinked_nodes_of_ne hmp]
  · rw [setNode_head, relinked_head, hhead]

theorem lookupAbove_ends (h : Shaped s key) (hx : s.nodes n = some x) (hlen : p.bitlen < 128)
    {test : Nat → UInt8} (hb : addrBit test p.bitlen = b) (hleaf : ∀ c, leaf.child c = none) :
    Ends (lookupAbove p test n s.made) (s.allocated leaf)
      (fun _ t => Above s t n s.made x { leaf.setChild b (some n) with parent := x.parent } b ∧
        t.made = s.made + 1 ∧ t.maxbits = s.maxbits) fun _ _ => False := by
  have hunused : s.nodes s.made = none := h.unused (Nat.le_refl _)
  have hng : n ≠ s.made := ne_of_unused hx hunused
  have hx₁ : (s.allocated leaf).nodes n = some x := by
    rw [allocated_nodes_of_ne hng, hx]
  have hside : (if p.bitlen < (s.allocated leaf).maxbits ∧ bitTest test p.bitlen = true
      then { leaf with r := some n } else { leaf with l := some n }) =
        leaf.setChild b (some n) := by
    rw [allocated_maxbits, h.maxbits, bitTest_eq, hb]
    simp only [hlen, true_and]
    rfl
  simp only [lookupAbove]
  rw [ends_bind, ends_get, ends_bind, ends_node hx₁, ends_bind,
    ends_modifyNode allocated_nodes_self, hside, ends_bind, ends_modifyNode setNode_nodes_self]
  generalize hu : ((s.allocated leaf).setNode s.made (some (leaf.setChild b (some n)))).setNode
    s.made (some { leaf.setChild b (some n) with parent := x.parent }) = u
  have hsame : ∀ m, m ≠ s.made → u.nodes m = s.nodes m := by
    intro m hm
    rw [← hu, setNode_nodes_of_ne hm, setNode_nodes_of_ne hm, allocated_nodes_of_ne hm]
  refine (linkAbove_ends h hx hunused (hu ▸ setNode_nodes_self) ?_ (hu ▸ rfl)).imp ?_
  · intro m y hy
    rw [hsame m (ne_of_unused hy hunused), hy]
  · rintro _ t ⟨hnew, hchild, hlinked, hrest, hhead, hmade, hmax⟩
    refine ⟨⟨hx, hunused, hnew, ?_, rfl, hchild, hlinked, ?_, hhead⟩, ?_, ?_⟩
    · intro c
      by_cases hc : c = b
      · subst hc
        exact child_setChild_self.trans (if_pos rfl).symm
      · exact (child_setChild_of_ne hc).trans ((hleaf c).trans (if_neg hc).symm)
    · intro m hm hmn hmp
      rw [hrest m hmn hmp, hsame m hm]
    · rw [hmade, ← hu]
      rfl
    · rw [hmax, ← hu]
      rfl

theorem lookupBeside_ends (h : Shaped s key) (hx : s.nodes n = some x) (hd : d < 128)
    (hb : addrBit p.uchar d = b) (hleaf : ∀ c, leaf.child c = none) :
    Ends (lookupBeside p d n s.made) (s.allocated leaf)
      (fun _ t => ∃ mid glue, glue = (⟨d, none, none, none, x.parent, none⟩ :
          RadixNode).setChild (!b) (some n) ∧
        Above s mid n (s.made + 1) x glue (!b) ∧
        Attached mid t (s.made + 1) s.made glue { leaf with parent := some (s.made + 1) } b ∧
        (mid.made = s.made + 2 ∧ mid.maxbits = s.maxbits) ∧
        t.made = s.made + 2 ∧ t.maxbits = s.maxbits) fun _ _ => False := by
  obtain ⟨glue, hglue⟩ : ∃ glue, glue = (⟨d, none, none, none, x.parent, none⟩ :
    RadixNode).setChild (!b) (some n) := ⟨_, rfl⟩
  have hunused : ∀ m, s.made ≤ m → s.nodes m = none := fun m hm => h.unused hm
  have hng : n ≠ s.made := ne_of_unused hx (hunused _ (Nat.le_refl _))
  have hng' : n ≠ s.made + 1 := ne_of_unused hx (hunused _ (Nat.le_succ _))
  have hgg : s.made ≠ s.made + 1 := by omega
  have hx₁ : (s.allocated leaf).nodes n = some x := by
    rw [allocated_nodes_of_ne hng, hx]
  have hside : (if d < (s.allocated leaf).maxbits ∧ bitTest p.uchar d = true
      then (⟨d, none, some n, some s.made, x.parent, none⟩ : RadixNode)
      else ⟨d, none, some s.made, some n, x.parent, none⟩) =
        glue.setChild b (some s.made) := by
    rw [allocated_maxbits, h.maxbits, bitTest_eq, hb, hglue]
    simp only [hd, true_and]
    cases b <;> rfl
  simp only [lookupBeside]
  rw [ends_bind, ends_get, ends_bind, ends_node hx₁, ends_bind, ends_malloc, ends_bind,
    ends_modifyNode allocated_nodes_self, hside, allocated_made, ends_bind]
  generalize hv : (((s.allocated leaf).allocated ⟨d, none, none, none, x.parent, none⟩).setNode
    (s.made + 1) (some (glue.setChild b (some s.made)))) = v
  have hvleaf : v.nodes s.made = some leaf := by
    rw [← hv, setNode_nodes_of_ne hgg, allocated_nodes_of_ne hgg, allocated_nodes_self]
  have hvglue : v.nodes (s.made + 1) = some (glue.setChild b (some s.made)) := by
    rw [← hv, setNode_nodes_self]
  have hvold : ∀ m, m ≠ s.made → m ≠ s.made + 1 → v.nodes m = s.nodes m := by
    intro m hm hm'
    rw [← hv, setNode_nodes_of_ne hm', allocated_nodes_of_ne hm', allocated_nodes_of_ne hm]
  have hmades : v.made = s.made + 2 ∧ v.maxbits = s.maxbits ∧ v.head = s.head :=
    ⟨hv ▸ rfl, hv ▸ rfl, hv ▸ rfl⟩
  rw [ends_modifyNode hvleaf]
  have hug : (v.setNode s.made (some { leaf with parent := some (s.made + 1) })).nodes
      (s.made + 1) = some (glue.setChild b (some s.made)) := by
    rw [setNode_nodes_of_ne (Ne.symm hgg), hvglue]
  refine (linkAbove_ends h hx (hunused _ (Nat.le_succ _)) hug ?_ hmades.2.2).imp ?_
  · intro m y hy
    have hm := ne_of_unused hy (hunused _ (Nat.le_refl _))
    rw [setNode_nodes_of_ne hm, hvold m hm (ne_of_unused hy (hunused _ (Nat.le_succ _))), hy]
  rintro _ t ⟨hnew, hchild, hlinked, hrest, hhead, hmade, hmax⟩
  have hpar : ∀ {q}, x.parent = some q → q ≠ s.made ∧ q ≠ s.made + 1 := by
    intro q hq
    obtain ⟨y, hy⟩ := h.exists_parent hx hq
    exact ⟨ne_of_unused hy (hunused _ (Nat.le_refl _)), ne_of_unused hy (hunused _ (Nat.le_succ _))⟩
  have hleafp : x.parent ≠ some s.made := fun hq => (hpar hq).1 rfl
  -- Between the two changes the glue node has one child, and the leaf is not there.
  obtain ⟨mid, hmid⟩ : ∃ mid, mid = (t.setNode s.made none).setNode (s.made + 1) (some glue) :=
    ⟨_, rfl⟩
  have hmidold : ∀ m, m ≠ s.made → m ≠ s.made + 1 → mid.nodes m = t.nodes m := by
    intro m hm hm'
    rw [hmid, setNode_nodes_of_ne hm', setNode_nodes_of_ne hm]
  have hmidglue : mid.nodes (s.made + 1) = some glue := by
    rw [hmid, setNode_nodes_self]
  have hmidleaf : mid.nodes s.made = none := by
    rw [hmid, setNode_nodes_of_ne hgg, setNode_nodes_self]
  refine ⟨mid, glue, hglue, ⟨hx, hunused _ (Nat.le_succ _), hmidglue, ?_, ?_, ?_, ?_, ?_, ?_⟩,
    ⟨hmidglue, hmidleaf, ?_, hleaf, rfl, hnew, ?_, ?_⟩, ⟨?_, ?_⟩, ?_, ?_⟩
  · intro c
    rw [hglue]
    cases b <;> cases c <;> rfl
  · rw [hglue, setChild_parent]
  · rw [hmidold n hng hng', hchild]
  · intro q y hq hy
    rw [hmidold q (hpar hq).1 (hpar hq).2, hlinked q y hq hy]
  · intro m hm hmn hmp
    by_cases hm' : m = s.made
    · rw [hm', hmidleaf, hunused _ (Nat.le_refl _)]
    · rw [hmidold m hm' hm, hrest m hmn hmp, setNode_nodes_of_ne hm', hvold m hm' hm]
  · rw [hmid]
    exact hhead
  · rw [hrest _ (Ne.symm hng) hleafp, setNode_nodes_self]
  · intro m hm hm'
    rw [hmidold m hm hm']
  · rw [hmid]
    rfl
  · rw [hmid]
    exact hmade.trans hmades.1
  · rw [hmid]
    exact hmax.trans hmades.2.1
  · exact hmade.trans hmades.1
  · exact hmax.trans hmades.2.1

end Places

/-! ### Insertion -/

section Insertion

variable {s t mid : RadixTree} {key key' : Nat → List Bool} {vs : List Nat} {n g d : Nat}
  {x y fresh : RadixNode} {p test : RadixPrefix} {b : Bool}

theorem Attached.full (ha : Attached s t n g x fresh b)
    (hfull : ∀ m y, m ≠ n → s.nodes m = some y → y.pfx = none → ∀ c, (y.child c).isSome)
    (hn : x.pfx = none → ∀ c, c ≠ b → (x.child c).isSome) (hfresh : fresh.pfx.isSome) :
    ∀ m y, t.nodes m = some y → y.pfx = none → ∀ c, (y.child c).isSome := by
  intro m y hy hglue c
  by_cases hm : m = g
  · subst hm
    obtain rfl : fresh = y := Option.some.inj (ha.new.symm.trans hy)
    rw [hglue] at hfresh
    cases hfresh
  by_cases hmn : m = n
  · subst hmn
    obtain rfl : x.setChild b (some g) = y := Option.some.inj (ha.linked.symm.trans hy)
    by_cases hc : c = b
    · subst hc
      rw [child_setChild_self]
      rfl
    · rw [child_setChild_of_ne hc]
      exact hn (sameCore_setChild.pfx.symm.trans hglue) c hc
  · rw [ha.rest m hm hmn] at hy
    exact hfull m y hmn hy hglue c

theorem Above.full (ha : Above s t n g x fresh b) (h : Formed s key) :
    ∀ m y, m ≠ g → t.nodes m = some y → y.pfx = none → ∀ c, (y.child c).isSome := by
  intro m y hm hy hglue c
  by_cases hmn : m = n
  · subst hmn
    obtain rfl := Option.some.inj (ha.child.symm.trans hy)
    exact h.full m x ha.old hglue c
  rcases ha.cases h.trie hm hmn with ⟨hsame, -⟩ | ⟨z, -, hz, htz, hrelink⟩
  · rw [hsame] at hy
    exact h.full m y hy hglue c
  · obtain rfl := Option.some.inj (htz.symm.trans hy)
    rw [hrelink]
    split
    · rfl
    · exact h.full m z hz (sameCore_relink.pfx.symm.trans hglue) c

/-- What an insertion leaves: the prefix was kept by the node before, or is now
and nothing else has changed. -/
def Inserted (s t : RadixTree) (p : RadixPrefix) (r : Nat) : Prop :=
  (t = s ∧ ∃ e, s.entry r = some e ∧ e.1.key = p.key) ∨
    (∀ m e, s.entry m = some e → e.1.key ≠ p.key) ∧ s.entry r = none ∧
      t.entry = Function.update s.entry r (some (p, none))

theorem inserted_new (ht : Formed t key') {r : Nat} (hr : s.entry r = none)
    (he : t.entry = update s.entry r (some (p, none))) : Inserted s t p r := by
  refine Or.inr ⟨?_, hr, he⟩
  intro m e hm hk
  have hmr : m ≠ r := by
    rintro rfl
    rw [hr] at hm
    cases hm
  have hm' : t.entry m = some e := by rw [he, update_of_ne hmr, hm]
  have hr' : t.entry r = some (p, none) := by rw [he, update_self]
  exact hmr (ht.entry_inj hm' hr' hk)

theorem leaf_ok (hbit : y.bit = p.bitlen) (hpfx : y.pfx = some p) : NodeOk p.key y where
  bit := hbit.trans p.length_key.symm
  le := p.length_key.trans_le p.bitlen_le_maxbits
  stored q hq := by
    rw [hpfx] at hq
    rw [Option.some.inj hq]
  glue hnone := by
    rw [hpfx] at hnone
    cases hnone

theorem setNode_formed (h : Formed s key) (hx : s.nodes n = some x)
    (hchild : ∀ c, y.child c = x.child c) (hpar : y.parent = x.parent) (hok : NodeOk (key n) y)
    (hfull : y.pfx = none → ∀ c, (x.child c).isSome) : Formed (s.setNode n (some y)) key := by
  have hnodes : ∀ {m z}, (s.setNode n (some y)).nodes m = some z →
      (m = n ∧ z = y) ∨ m ≠ n ∧ s.nodes m = some z := by
    intro m z hz
    by_cases hm : m = n
    · subst hm
      rw [setNode_nodes_self] at hz
      exact Or.inl ⟨rfl, (Option.some.inj hz).symm⟩
    · rw [setNode_nodes_of_ne hm] at hz
      exact Or.inr ⟨hm, hz⟩
  have htrie : (s.setNode n (some y)).trie key = s.trie key := by
    apply PTrie.ext
    · rfl
    · funext m
      by_cases hm : m = n
      · simp [trie, hm, hx]
      · simp only [trie, setNode_nodes_of_ne hm]
    · rfl
    · funext m c
      by_cases hm : m = n
      · simp [trie, hm, hx, hchild]
      · simp only [trie, setNode_nodes_of_ne hm]
    · funext m
      by_cases hm : m = n
      · simp [trie, hm, hx, hpar]
      · simp only [trie, setNode_nodes_of_ne hm]
  refine ⟨⟨htrie ▸ h.trie, ?_, ?_, h.maxbits⟩, ?_⟩
  · intro m z hz
    rcases hnodes hz with ⟨rfl, rfl⟩ | ⟨-, hz⟩
    · exact hok
    · exact h.node m z hz
  · intro m z hz
    rcases hnodes hz with ⟨rfl, -⟩ | ⟨-, hz⟩
    · exact h.fresh m x hx
    · exact h.fresh m z hz
  · intro m z hz hglue c
    rcases hnodes hz with ⟨rfl, rfl⟩ | ⟨-, hz⟩
    · rw [hchild]
      exact hfull hglue c
    · exact h.full m z hz hglue c

theorem entry_setNode : (s.setNode n (some y)).entry =
    update s.entry n (y.pfx.map fun p => (p, y.data)) := by
  have hkept : ∀ m, m ≠ n → KeptAt s (s.setNode n (some y)) m :=
    fun m hm => Or.inl (setNode_nodes_of_ne hm)
  rw [entry_of_kept hkept]
  simp [entry]

/-- The descent has ended at `n`, where the prefix `test` is kept. -/
structure Descended (s : RadixTree) (key : Nat → List Bool) (p test : RadixPrefix)
    (vs : List Nat) (n d : Nat) : Prop where
  walk : (s.trie key).Walk p.bits vs n
  key_eq : test.key = key n
  stuck : (key n).length < p.bitlen → (s.trie key).child n (p.bits (key n).length) = none
  differ : Differ p.uchar test.uchar (min (key n).length p.bitlen) d

theorem Descended.next (hd : Descended s key p test vs n d) (hlt : d < (key n).length) :
    word p.bits d ++ [test.bits d] <+: key n := by
  have hlen : (key n).length = test.bitlen := by rw [← hd.key_eq, RadixPrefix.length_key]
  have hsame : word p.bits d = word test.bits d := word_eq_word.mpr hd.differ.same
  rw [hsame, ← word_succ, ← hd.key_eq]
  exact word_prefix_word (by omega)

theorem Descended.parts (hd : Descended s key p test vs n d) :
    PTrie.Parts p.bits p.bitlen (key n) d where
  common := by
    have hle := hd.differ.le
    have hlen : (key n).length = test.bitlen := by rw [← hd.key_eq, RadixPrefix.length_key]
    have hsame : word p.bits d = word test.bits d := word_eq_word.mpr hd.differ.same
    rw [hsame, ← hd.key_eq]
    exact word_prefix_word (by omega)
  le := hd.differ.le.trans (Nat.min_le_right _ _)
  differ hlt hlt' :=
    ⟨test.bits d, fun heq => hd.differ.differ (by omega) heq.symm, hd.next hlt'⟩

theorem Shaped.entry_unused (h : Shaped s key) {m : Nat} (hm : s.made ≤ m) :
    s.entry m = none := by
  simp [entry, h.unused hm]

theorem entry_of_new (hnew : t.nodes g = some fresh) (hpfx : fresh.pfx = some p)
    (hdata : fresh.data = none) : t.entry g = some (p, none) :=
  entry_eq_some.mpr ⟨fresh, hnew, hpfx, hdata⟩

theorem Attached.inserts (ha : Attached s t n s.made x fresh b) (h : Formed s key)
    (hfree : x.child b = none) (hk : key n ++ [b] <+: p.key) (hbit : fresh.bit = p.bitlen)
    (hpfx : fresh.pfx = some p) (hdata : fresh.data = none) (hmade : t.made = s.made + 1)
    (hmax : t.maxbits = s.maxbits) : (∃ key', Formed t key') ∧ Inserted s t p s.made := by
  have hshaped := ha.shaped h.toShaped hfree hk (leaf_ok hbit hpfx) (by omega) (by omega) hmax
  have hformed : Formed t (update key s.made p.key) := by
    refine ⟨hshaped, ha.full (fun i y _ => h.full i y) ?_ (by rw [hpfx]; rfl)⟩
    exact fun hglue c _ => h.full n x ha.old hglue c
  refine ⟨⟨_, hformed⟩, inserted_new hformed (h.entry_unused (Nat.le_refl _)) ?_⟩
  rw [entry_of_kept fun i hi => ha.kept hi, entry_of_new ha.new hpfx hdata]

theorem Above.inserts (ha : Above s t n s.made x fresh b) (h : Formed s key)
    (hk : p.key ++ [b] <+: key n) (hp : ∀ q, x.parent = some q → (key q).length < p.bitlen)
    (hbit : fresh.bit = p.bitlen) (hpfx : fresh.pfx = some p) (hdata : fresh.data = none)
    (hmade : t.made = s.made + 1) (hmax : t.maxbits = s.maxbits) :
    (∃ key', Formed t key') ∧ Inserted s t p s.made := by
  have hp' : ∀ q, x.parent = some q → (key q).length < p.key.length := by
    intro q hq
    rw [RadixPrefix.length_key]
    exact hp q hq
  have hshaped := ha.shaped h.toShaped hk hp' (leaf_ok hbit hpfx) (by omega) (by omega) hmax
  have hformed : Formed t (update key s.made p.key) := by
    refine ⟨hshaped, ?_⟩
    intro i y hy hglue
    by_cases hi : i = s.made
    · subst hi
      obtain rfl : fresh = y := Option.some.inj (ha.new.symm.trans hy)
      rw [hpfx] at hglue
      cases hglue
    · exact ha.full h i y hi hy hglue
  refine ⟨⟨_, hformed⟩, inserted_new hformed (h.entry_unused (Nat.le_refl _)) ?_⟩
  rw [entry_of_kept fun i hi => ha.kept h.trie hi, entry_of_new ha.new hpfx hdata]

theorem beside_inserts {glue : RadixNode} {c : Bool} (h : Formed s key)
    (habove : Above s mid n (s.made + 1) x glue c)
    (hattach : Attached mid t (s.made + 1) s.made glue fresh b) (hne : c = !b)
    (hglue : glue.bit = d ∧ glue.pfx = none ∧ glue.data = none) (hd : d < p.bitlen)
    (hb : p.bits d = b) (hk : word p.bits d ++ [c] <+: key n)
    (hp : ∀ q, x.parent = some q → (key q).length < d) (hbit : fresh.bit = p.bitlen)
    (hpfx : fresh.pfx = some p) (hdata : fresh.data = none) (hmid : mid.made = s.made + 2)
    (hmax : mid.maxbits = s.maxbits) (hmade : t.made = s.made + 2)
    (hmax' : t.maxbits = s.maxbits) : (∃ key', Formed t key') ∧ Inserted s t p s.made := by
  obtain ⟨hgbit, hgpfx, hgdata⟩ := hglue
  have hlen := p.bitlen_le_maxbits
  have hok : NodeOk (word p.bits d) glue := by
    refine ⟨hgbit.trans (length_word ..).symm, ?_, ?_, fun _ => hgdata⟩
    · rw [length_word]
      omega
    · intro q hq
      rw [hgpfx] at hq
      cases hq
  have hp' : ∀ q, x.parent = some q → (key q).length < (word p.bits d).length := by
    intro q hq
    rw [length_word]
    exact hp q hq
  have hshaped := habove.shaped h.toShaped hk hp' hok (by omega) (by omega) hmax
  have hchild : ∀ c', c' ≠ b → (glue.child c').isSome := by
    intro c' hc'
    rw [habove.only, if_pos ((Bool.eq_not_of_ne hc').trans hne.symm)]
    rfl
  have hfree : glue.child b = none := by
    rw [habove.only, if_neg (by simp [hne])]
  have hk' : update key (s.made + 1) (word p.bits d) (s.made + 1) ++ [b] <+: p.key := by
    rw [update_self, ← hb, ← word_succ]
    exact word_prefix_word hd
  have hshaped' := hattach.shaped hshaped hfree hk' (leaf_ok hbit hpfx) (by omega) (by omega)
    (hmax'.trans hmax.symm)
  have hformed : Formed t _ :=
    ⟨hshaped', hattach.full (habove.full h) (fun _ => hchild) (by rw [hpfx]; rfl)⟩
  refine ⟨⟨_, hformed⟩, inserted_new hformed (h.entry_unused (Nat.le_refl _)) ?_⟩
  -- The glue node keeps nothing.
  have hmidglue : mid.entry (s.made + 1) = s.entry (s.made + 1) := by
    rw [h.entry_unused (Nat.le_succ _)]
    simp [entry, habove.new, hgpfx]
  have hmidentry : mid.entry = s.entry := by
    rw [entry_of_kept fun i hi => habove.kept h.trie hi, hmidglue, update_eq_self]
  rw [entry_of_kept fun i hi => hattach.kept hi, hmidentry, entry_of_new hattach.new hpfx hdata]

section Lookup

variable (h : Formed s key) (hd : Descended s key p test vs n d) {m : Nat}
  (hplace : (s.trie key).Place vs n d m) (hx : s.nodes m = some x)

include h hd hplace hx in
theorem lookupAt_ends :
    Ends (lookupAt p test.uchar d m) s (fun r t => (∃ key', Formed t key') ∧ Inserted s t p r)
      fun _ _ => False := by
  have hbit : x.bit = (key m).length := (h.node m x hx).bit
  have hdm : d ≤ (key m).length := hplace.le
  have hdp : d ≤ p.bitlen := hd.parts.le
  have hp128 := p.bitlen_le_maxbits
  have hleaf : ∀ c, child { bit := p.bitlen, pfx := some (refPrefix p) } c = none :=
    fun c => by cases c <;> rfl
  have hparent : ∀ q, x.parent = some q → (key q).length < d := by
    intro q hq
    exact hplace.parent_lt q ((trie_parent hx).trans hq)
  have hmn : (key m).length ≤ (key n).length :=
    (hd.walk.prefix_of_mem_cons h.trie hplace.mem).length_le
  have hkey : x.bit = d → key m = word p.bits d := fun hat =>
    hplace.key_eq h.trie hd.walk hd.parts (hbit.symm.trans hat)
  have hnext : d < (key m).length → word p.bits d ++ [test.bits d] <+: key m := fun hlt =>
    hplace.next h.trie hd.walk hlt (hd.next (by omega))
  simp only [lookupAt, ends_bind, ends_node hx, ends_ite, ends_malloc]
  refine ⟨fun hfound => ⟨fun hglue => ?_, fun hpfx => ?_⟩, fun hnew => ⟨fun hat => ?_, fun hlong =>
    ⟨fun hend => ?_, fun hmore => ?_⟩⟩⟩
  · -- A glue node has these bits.
    have hk : key m = p.key := by
      rw [hkey (hfound.2.trans hfound.1.symm), hfound.1]
      rfl
    have hok : NodeOk (key m) { x with pfx := some p } := by
      rw [hk]
      exact leaf_ok hfound.2 rfl
    have hformed : Formed (s.setNode m (some { x with pfx := some p })) key :=
      setNode_formed h hx (fun _ => rfl) rfl hok (by simp)
    rw [ends_modifyNode hx]
    refine ⟨⟨key, hformed⟩, inserted_new hformed (by simp [entry, hx, hglue]) ?_⟩
    rw [entry_setNode, ← (h.node m x hx).glue hglue]
    rfl
  · -- The prefix is in the tree.
    obtain ⟨q, hq⟩ := Option.ne_none_iff_exists'.mp hpfx
    refine ⟨⟨key, h⟩, Or.inl ⟨rfl, _, entry_eq_some.mpr ⟨x, hx, hq, rfl⟩, ?_⟩⟩
    rw [(h.node m x hx).stored q hq, hkey (hfound.2.trans hfound.1.symm), hfound.1]
    rfl
  · -- The node ends where the bits differ.
    have hlt : d < p.bitlen := by omega
    have hfree := hplace.free h.trie hd.walk hd.parts (hbit.symm.trans hat) hlt hd.stuck
    rw [trie_child hx] at hfree
    refine (lookupBelow_ends h.toShaped hx (by omega) (congrArg _ hat) hleaf).imp ?_
    rintro _ t ⟨ha, hmade, hmax⟩
    have hk : key m ++ [p.bits d] <+: p.key := by
      rw [hkey hat, ← word_succ]
      exact word_prefix_word hlt
    exact ha.inserts h hfree hk rfl rfl rfl hmade hmax
  · -- The prefix ends inside the key of the node.
    have hlt : d < (key m).length := by omega
    have hle := (h.node m x hx).le
    refine (lookupAbove_ends h.toShaped hx (by omega) rfl hleaf).imp ?_
    rintro _ t ⟨ha, hmade, hmax⟩
    have hk : p.key ++ [test.bits p.bitlen] <+: key m := by
      rw [RadixPrefix.key, hend]
      exact hnext hlt
    have hcore := @sameCore_setChild { bit := p.bitlen, pfx := some (refPrefix p) }
      (test.bits p.bitlen) (some m)
    exact ha.inserts h hk (fun q hq => hend ▸ hparent q hq) hcore.bit hcore.pfx hcore.data hmade
      hmax
  · -- The two go on differently.
    have hlt : d < (key m).length := by omega
    have hother : test.bits d = !p.bits d :=
      Bool.eq_not_of_ne (Ne.symm (hd.differ.differ (by omega)))
    refine (lookupBeside_ends h.toShaped hx (by omega) rfl hleaf).imp ?_
    rintro _ t ⟨mid, glue, hglue, habove, hattach, ⟨hmid, hmax⟩, hmade, hmax'⟩
    have hcore := @sameCore_setChild ⟨d, none, none, none, x.parent, none⟩
      (!p.bits d) (some m)
    exact beside_inserts h habove hattach rfl (hglue ▸ ⟨hcore.bit, hcore.pfx, hcore.data⟩)
      (by omega) rfl (hother ▸ hnext hlt) hparent rfl rfl rfl hmid hmax hmade hmax'

end Lookup

theorem plant_inserts (h : Formed s key) (hhead : s.head = none) (ht : t.head = some s.made)
    (hnew : t.nodes s.made = some fresh) (hrest : ∀ m, m ≠ s.made → t.nodes m = s.nodes m)
    (hleaf : ∀ c, fresh.child c = none) (hpar : fresh.parent = none)
    (hbit : fresh.bit = p.bitlen) (hpfx : fresh.pfx = some p) (hdata : fresh.data = none)
    (hmade : t.made = s.made + 1) (hmax : t.maxbits = s.maxbits) :
    (∃ key', Formed t key') ∧ Inserted s t p s.made := by
  have htrie : t.trie (update key s.made p.key) = (s.trie key).plant s.made p.key := by
    apply PTrie.ext
    · exact ht
    · funext m
      by_cases hm : m = s.made
      · simp [trie, PTrie.plant, hm, hnew]
      · simp [trie, PTrie.plant, hm, hrest m hm]
    · rfl
    · funext m c
      by_cases hm : m = s.made
      · simp [trie, PTrie.plant, hm, hnew, hleaf]
      · simp [trie, PTrie.plant, hm, hrest m hm]
    · funext m
      by_cases hm : m = s.made
      · simp [trie, PTrie.plant, hm, hnew, hpar]
      · simp [trie, PTrie.plant, hm, hrest m hm]
  have hkept : ∀ m, m ≠ s.made → KeptAt s t m := fun m hm => Or.inl (hrest m hm)
  have hshaped : Shaped t (update key s.made p.key) := by
    apply h.toShaped.of_kept (g := s.made)
    · rw [htrie]
      exact h.trie.plant hhead
    · exact hkept
    · exact fun m hm => update_of_ne hm ..
    · intro y hy
      obtain rfl : fresh = y := Option.some.inj (hnew.symm.trans hy)
      rw [update_self]
      exact ⟨leaf_ok hbit hpfx, by omega⟩
    · omega
    · exact hmax
  have hformed : Formed t (update key s.made p.key) := by
    refine ⟨hshaped, ?_⟩
    intro m y hy hglue
    by_cases hm : m = s.made
    · subst hm
      obtain rfl : fresh = y := Option.some.inj (hnew.symm.trans hy)
      rw [hpfx] at hglue
      cases hglue
    · rw [hrest m hm] at hy
      exact h.full m y hy hglue
  refine ⟨⟨_, hformed⟩, inserted_new hformed (h.entry_unused (Nat.le_refl _)) ?_⟩
  rw [entry_of_kept hkept, entry_of_new hnew hpfx hdata]

/-- **Insertion.**  `lookup` returns the node that keeps the prefix, which it makes
if there is none, and everything else is as before. -/
theorem lookup_ends (h : Formed s key) (p : RadixPrefix) :
    Ends (lookup p) s (fun r t => (∃ key', Formed t key') ∧ Inserted s t p r)
      fun _ _ => False := by
  rw [lookup, ends_bind, ends_get]
  split
  case h_1 hhead =>
    simp only [ends_bind, ends_malloc, ends_modify, ends_pure]
    exact plant_inserts h hhead rfl allocated_nodes_self (fun m hm => allocated_nodes_of_ne hm)
      (fun c => by cases c <;> rfl) rfl rfl rfl rfl rfl rfl
  case h_2 head hhead =>
    have w : (s.trie key).Walk p.bits [] head := .root hhead
    rw [ends_bind]
    refine (lookupLoop_ends h w p.bitlen_le_maxbits (Nat.le_add_right _ _)).imp ?_
    rintro n t ⟨rfl, us, x, test, w', hx, htest, hstuck⟩
    have hbit := (h.node n x hx).bit
    have hcheck : (if x.bit < p.bitlen then x.bit else p.bitlen) =
        min (key n).length p.bitlen := by
      rw [hbit]
      split <;> omega
    simp only [ends_bind, ends_node hx, htest, hcheck]
    have hd : Descended t key p test us n
        (differBit p.uchar test.uchar (min (key n).length p.bitlen)) :=
      ⟨w', (h.node n x hx).stored test htest, hstuck, differBit_spec _ _ _⟩
    have hle := hd.differ.le
    have h128 := h.length_le w'
    refine (climb_ends h w' (by omega) (Nat.lt_succ_of_le h128)).imp ?_
    rintro m t' ⟨rfl, hplace⟩
    obtain ⟨y, hy⟩ := exists_node (w'.live_of_mem_cons h.trie hplace.mem)
    exact lookupAt_ends h hd hplace hy

end Insertion

/-! ### Removal -/

section Removal

variable {s t : RadixTree} {key : Nat → List Bool} {n m q c : Nat} {x y : RadixNode}
  {o : Option Nat} {b : Bool}

theorem Excised.full (he : Excised s t n x o) (h : (s.trie key).Formed)
    (hfull : ∀ m y, m ≠ n → s.nodes m = some y → y.pfx = none → ∀ c, (y.child c).isSome)
    (hm : o = none → x.parent ≠ some m) (hy : t.nodes m = some y) (hglue : y.pfx = none)
    (d : Bool) : (y.child d).isSome := by
  have hmn : m ≠ n := by
    rintro rfl
    rw [he.freed] at hy
    cases hy
  rcases he.cases h hmn with ⟨hsame, -⟩ | ⟨z, -, -, hz, htz⟩ | ⟨z, -, hp, hz, htz, hrelink⟩
  · rw [hsame] at hy
    exact hfull m y hmn hy hglue d
  · obtain rfl := Option.some.inj (htz.symm.trans hy)
    exact hfull m z hmn hz hglue d
  · obtain rfl := Option.some.inj (htz.symm.trans hy)
    rw [hrelink]
    split
    · exact Option.isSome_iff_ne_none.mpr fun hnone => hm hnone hp
    · exact hfull m z hmn hz (sameCore_relink.pfx.symm.trans hglue) d

theorem Excised.entry_eq (he : Excised s t n x o) (h : (s.trie key).Formed) :
    t.entry = update s.entry n none := by
  have hfreed : t.entry n = none := by simp [entry, he.freed]
  rw [entry_of_kept fun i hi => he.kept h hi, hfreed]

theorem unlinkLeaf_ends (hy : s.nodes q = some y) (hb : y.child b = some n)
    (honly : ∀ c, y.child c = some n → c = b) :
    Ends (unlinkLeaf q n) s
      (fun r t => t = s.setNode q (some (y.relink n none)) ∧ r = y.child (!b))
      fun _ _ => False := by
  rw [unlinkLeaf, ends_bind, ends_node hy, ends_ite]
  refine ⟨fun hr => ?_, fun hr => ?_⟩
  · obtain rfl : true = b := honly true hr
    rw [ends_bind, ends_modifyNode hy]
    exact ⟨by rw [RadixNode.relink, if_pos hr], rfl⟩
  · obtain rfl : b = false := by
      cases b with
      | true => exact absurd hb hr
      | false => rfl
    rw [ends_bind, ends_modifyNode hy]
    exact ⟨by rw [RadixNode.relink, if_neg hr], rfl⟩

theorem Shaped.neighbours (h : Shaped s key) (hx : s.nodes n = some x)
    (hc : x.child b = some c) : c ≠ n ∧ (∃ z, s.nodes c = some z) ∧
      ∀ p, x.parent = some p → p ≠ n ∧ p ≠ c ∧ ∃ w, s.nodes p = some w := by
  refine ⟨?_, ?_, fun p hp => ⟨h.ne_parent hx hp, ?_, h.exists_parent hx hp⟩⟩
  · rintro rfl
    exact child_ne_self h.trie hx hc
  · exact exists_node (h.trie.child (trie_live hx) ((trie_child hx).trans hc)).1
  · rintro rfl
    have hlt := h.trie.length_lt_child (trie_live hx) ((trie_child hx).trans hc)
    have hgt := h.trie.length_parent_lt (trie_live hx) ((trie_parent hx).trans hp)
    omega

theorem relinkFree_ends (h : Shaped s key) (hx : s.nodes n = some x) (hc : x.child b = some c) :
    Ends (do
        relink x.parent n (some c)
        modifyNode c fun z => { z with parent := x.parent }
        free n) s
      (fun _ t => Excised s t n x (some c) ∧ t.made = s.made ∧ t.maxbits = s.maxbits)
      fun _ _ => False := by
  obtain ⟨hcn, ⟨z, hz⟩, hpar⟩ := h.neighbours hx hc
  have hcp : x.parent ≠ some c := fun hp => (hpar c hp).2.1 rfl
  have hz₁ : (s.relinked x.parent n (some c)).nodes c = some z := by
    rw [relinked_nodes_of_ne hcp, hz]
  rw [ends_bind, ends_relink fun p hp => (hpar p hp).2.2, ends_bind, ends_modifyNode hz₁, ends_free]
  refine ⟨⟨hx, ?_, released_nodes_self, ?_, ?_, ?_, rfl⟩, rfl, rfl⟩
  · rintro c' hc'
    exact ⟨b, hc.trans hc'⟩
  · intro c' z' hc' hz'
    obtain rfl : c = c' := Option.some.inj hc'
    obtain rfl : z = z' := Option.some.inj (hz.symm.trans hz')
    rw [released_nodes_of_ne hcn, setNode_nodes_self]
  · intro p w hp hw
    rw [released_nodes_of_ne (hpar p hp).1, setNode_nodes_of_ne (hpar p hp).2.1,
      relinked_nodes_parent hp hw]
  · intro m hm hmc hmp
    have hmc' : m ≠ c := fun heq => hmc (congrArg some heq.symm)
    rw [released_nodes_of_ne hm, setNode_nodes_of_ne hmc', relinked_nodes_of_ne hmp]

theorem freeRelink_ends (h : Shaped s key) (hx : s.nodes n = some x) (hc : x.child b = some c) :
    Ends (do
        modifyNode c fun z => { z with parent := x.parent }
        free n
        relink x.parent n (some c)) s
      (fun _ t => Excised s t n x (some c) ∧ t.made = s.made ∧ t.maxbits = s.maxbits)
      fun _ _ => False := by
  obtain ⟨hcn, ⟨z, hz⟩, hpar⟩ := h.neighbours hx hc
  have hcp : x.parent ≠ some c := fun hp => (hpar c hp).2.1 rfl
  have hnp : x.parent ≠ some n := fun hp => (hpar n hp).1 rfl
  have hold : ∀ m w, m ≠ n → m ≠ c → s.nodes m = some w →
      ((s.setNode c (some { z with parent := x.parent })).released n).nodes m = some w := by
    intro m w hm hmc hw
    rw [released_nodes_of_ne hm, setNode_nodes_of_ne hmc, hw]
  rw [ends_bind, ends_modifyNode hz, ends_bind, ends_free, ends_relink fun p hp =>
    (hpar p hp).2.2.imp fun w hw => hold p w (hpar p hp).1 (hpar p hp).2.1 hw]
  refine ⟨⟨hx, ?_, ?_, ?_, ?_, ?_, rfl⟩, rfl, rfl⟩
  · rintro c' hc'
    exact ⟨b, hc.trans hc'⟩
  · rw [relinked_nodes_of_ne hnp, released_nodes_self]
  · intro c' z' hc' hz'
    obtain rfl : c = c' := Option.some.inj hc'
    obtain rfl : z = z' := Option.some.inj (hz.symm.trans hz')
    rw [relinked_nodes_of_ne hcp, released_nodes_of_ne hcn, setNode_nodes_self]
  · intro p w hp hw
    rw [relinked_nodes_parent hp (hold p w (hpar p hp).1 (hpar p hp).2.1 hw)]
  · intro m hm hmc hmp
    have hmc' : m ≠ c := fun heq => hmc (congrArg some heq.symm)
    rw [relinked_nodes_of_ne hmp, released_nodes_of_ne hm, setNode_nodes_of_ne hmc']

theorem removeLeaf_ends (h : Formed s key) (hx : s.nodes n = some x)
    (hleaf : ∀ c, x.child c = none) :
    Ends (removeLeaf n x) s
      (fun _ t => Formed t key ∧ t.entry = update s.entry n none) fun _ _ => False := by
  have hnochild : ∀ b c, x.child b = some c → (none : Option Nat) = some c := by
    intro b c hc
    rw [hleaf] at hc
    cases hc
  rw [removeLeaf, ends_bind, ends_free]
  split
  case h_1 hp =>
    rw [ends_modify]
    have he : Excised s { s.released n with head := none } n x none := by
      refine ⟨hx, (by simp), released_nodes_self, (by simp), ?_, ?_, ?_⟩
      · intro q y hq
        rw [hp] at hq
        cases hq
      · exact fun m hm _ _ => released_nodes_of_ne hm
      · rw [if_pos hp]
    have hshaped := he.shaped h.toShaped hnochild (Nat.le_refl _) rfl
    refine ⟨⟨hshaped, fun m y hy hglue d => ?_⟩, he.entry_eq h.trie⟩
    exact he.full h.trie (fun m y _ => h.full m y) (fun _ hq => by rw [hp] at hq; cases hq) hy
      hglue d
  case h_2 q hq =>
    obtain ⟨y, hy, ⟨b, hb⟩, -⟩ := exists_parent h.trie hx hq
    have hqn : q ≠ n := h.toShaped.ne_parent hx hq
    have honly : ∀ c, y.child c = some n → c = b := by
      intro c hc
      have hlive : (s.trie key).live q := trie_live hy
      exact (h.trie.child_inj hlive hlive ((trie_child hy).trans hc) ((trie_child hy).trans hb)).2
    have hy₁ : (s.released n).nodes q = some y := by
      rw [released_nodes_of_ne hqn, hy]
    rw [ends_bind]
    refine (unlinkLeaf_ends hy₁ hb honly).imp ?_
    rintro r u ⟨hu, rfl⟩
    have hyu : u.nodes q = some (y.relink n none) := by
      rw [hu, setNode_nodes_self]
    have he : Excised s u n x none := by
      refine ⟨hx, (by simp), ?_, (by simp), ?_, ?_, ?_⟩
      · rw [hu, setNode_nodes_of_ne (Ne.symm hqn), released_nodes_self]
      · intro q' y' hq' hy'
        obtain rfl : q = q' := Option.some.inj (hq.symm.trans hq')
        obtain rfl : y = y' := Option.some.inj (hy.symm.trans hy')
        exact hyu
      · intro m hm _ hmp
        have hmq : m ≠ q := fun heq => hmp (heq ▸ hq)
        rw [hu, setNode_nodes_of_ne hmq, released_nodes_of_ne hm]
      · rw [hu, hq]
        rfl
    have hshaped : Shaped u key :=
      he.shaped h.toShaped hnochild (by rw [hu]; exact Nat.le_refl _) (by rw [hu]; rfl)
    have hfull : ∀ m z, m ≠ q → u.nodes m = some z → z.pfx = none → ∀ d, (z.child d).isSome := by
      intro m z hm hz hglue d
      refine he.full h.trie (fun m y _ => h.full m y) (fun _ hmp => ?_) hz hglue d
      exact hm (Option.some.inj (hmp.symm.trans hq))
    simp only [ends_bind, ends_node hyu, sameCore_relink.pfx, relink_parent]
    rw [ends_ite]
    refine ⟨fun hglue => ?_, fun hpfx => ⟨⟨hshaped, ?_⟩, he.entry_eq h.trie⟩⟩
    · -- The parent is a glue node, and its other child takes its place.
      obtain ⟨c, hc⟩ := Option.isSome_iff_exists.mp (h.full q y hy hglue (!b))
      have hrelinked : ∀ d, (y.relink n none).child d = if d = b then none else y.child d := by
        intro d
        rw [child_relink hb honly]
        by_cases hd : d = b
        · rw [if_pos hd, if_pos (hd ▸ hb)]
        · rw [if_neg hd, if_neg fun hdn => hd (honly d hdn)]
      have hcu : (y.relink n none).child (!b) = some c := by
        rw [hrelinked, if_neg (by simp), hc]
      have hends := relinkFree_ends hshaped hyu hcu
      simp only [relink_parent] at hends
      simp only [hc, follow, pure_bind]
      refine hends.imp ?_
      rintro _ t ⟨he', hmade, hmax⟩
      have honly' : ∀ d c', (y.relink n none).child d = some c' → some c = some c' := by
        intro d c' hd
        rw [hrelinked] at hd
        by_cases hdb : d = b
        · rw [if_pos hdb] at hd
          cases hd
        · rw [if_neg hdb, Bool.eq_not_of_ne hdb, hc] at hd
          exact hd
      have hshaped' : Shaped t key := he'.shaped hshaped honly' hmade.ge hmax
      refine ⟨⟨hshaped', fun m w hw hwg d => he'.full hshaped.trie hfull (by simp) hw hwg d⟩, ?_⟩
      have hqe : u.entry q = none := by
        simp [entry, hyu, sameCore_relink.pfx, hglue]
      have hsame : update u.entry q none = u.entry := by
        rw [← hqe, update_eq_self]
      rw [he'.entry_eq hshaped.trie, hsame, he.entry_eq h.trie]
    · intro m z hz hglue d
      by_cases hm : m = q
      · subst hm
        obtain rfl := Option.some.inj (hyu.symm.trans hz)
        exact absurd (sameCore_relink.pfx.symm.trans hglue) hpfx
      · exact hfull m z hm hz hglue d

/-- **Removal.**  What the node keeps goes, and everything else is as before. -/
theorem remove_ends (h : Formed s key) (hx : s.nodes n = some x) :
    Ends (remove n) s
      (fun _ t => Formed t key ∧ t.entry = update s.entry n none) fun _ _ => False := by
  have hsides : ∀ {P : Option Nat → Prop}, P x.r → P x.l → ∀ c, P (x.child c) := by
    intro P hr hl c
    cases c
    · exact hl
    · exact hr
  simp only [remove, ends_bind, ends_node hx, ends_ite]
  refine ⟨fun hboth => ?_, fun hnot => ⟨fun hnone => ?_, fun hone => ?_⟩⟩
  · -- The node becomes a glue node.
    rw [ends_modifyNode hx]
    refine ⟨setNode_formed h hx (fun _ => rfl) rfl ?_ fun _ =>
      hsides (P := fun o => o.isSome = true) hboth.1 hboth.2, ?_⟩
    · exact ⟨(h.node n x hx).bit, (h.node n x hx).le, (by simp), fun _ => rfl⟩
    · rw [entry_setNode]
      rfl
  · exact removeLeaf_ends h hx (hsides (P := fun o => o = none) hnone.1 hnone.2)
  · -- The only child takes the node's place.
    obtain ⟨b, c, hside, hc, hother⟩ : ∃ b c, (if x.r.isSome = true then x.r else x.l) = some c ∧
        x.child b = some c ∧ x.child (!b) = none := by
      cases hr : x.r with
      | some c =>
          have hl : x.l = none := by
            cases hl : x.l with
            | none => rfl
            | some _ => simp [hr, hl] at hnot
          exact ⟨true, c, rfl, hr, hl⟩
      | none =>
          cases hl : x.l with
          | none => exact absurd ⟨hr, hl⟩ hone
          | some c => exact ⟨false, c, rfl, hl, hr⟩
    rw [hside]
    simp only [follow, ends_pure]
    simp only [← ends_bind]
    refine (freeRelink_ends h.toShaped hx hc).imp ?_
    rintro _ t ⟨he, hmade, hmax⟩
    have honly : ∀ d c', x.child d = some c' → some c = some c' := by
      intro d c' hd
      by_cases hdb : d = b
      · rw [← hc, ← hdb, hd]
      · rw [Bool.eq_not_of_ne hdb, hother] at hd
        cases hd
    have hshaped := he.shaped h.toShaped honly hmade.ge hmax
    refine ⟨⟨hshaped, fun m y hy hglue d => ?_⟩, he.entry_eq h.trie⟩
    exact he.full h.trie (fun m y _ => h.full m y) (by simp) hy hglue d

end Removal

end RadixTree

end BrbData
