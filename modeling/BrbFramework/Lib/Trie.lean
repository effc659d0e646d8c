import Mathlib.Data.List.Infix
import Mathlib.Logic.Function.Basic

/-!
# Path-compressed tries

A node of a trie stands for a word, its *key*, and has for each symbol at most
one child, whose key continues the node's key with that symbol and then with as
many symbols more as the nodes below have in common. The nodes are addressed
by pointers, and each one points back to its parent.

`Formed` is the shape as facts about single nodes and pairs of them, with no
recursion over the tree, so that an operation that changes four pointers is
checked at four pointers. `plant`, `attach`, `above` and `excise` are the four
changes; `Walk` is the descent along a word, and `Walk.covers` what such a
descent cannot miss.
-/

namespace Trie

open List Function

variable {ν β : Type}

/-- A trie whose nodes are pointers `ν` and whose keys are words over `β`. -/
@[ext]
structure PTrie (ν β : Type) where
  root : Option ν
  live : ν → Prop
  key : ν → List β
  child : ν → β → Option ν
  parent : ν → Option ν

section Words

variable {k m : List β} {b b' : β}

/-- A proper prefix can be continued. -/
theorem exists_prefix_concat (h : k <+: m) (hne : k ≠ m) : ∃ b, k ++ [b] <+: m := by
  obtain ⟨rest, rfl⟩ := h
  cases rest with
  | nil => exact absurd (append_nil k).symm hne
  | cons b rest => exact ⟨b, rest, by simp⟩

/-- There is one way to continue a word inside another. -/
theorem concat_prefix_inj (h : k ++ [b] <+: m) (h' : k ++ [b'] <+: m) : b = b' := by
  obtain ⟨rest, rfl⟩ := h
  obtain ⟨rest', heq⟩ := h'
  have hcons : b' :: rest' = b :: rest := by simpa using heq
  exact (List.cons.inj hcons).1.symm

theorem length_lt_of_prefix_concat (h : k ++ [b] <+: m) : k.length < m.length := by
  have hle := h.length_le
  rw [length_append, length_singleton] at hle
  omega

theorem prefix_of_prefix_concat (h : k ++ [b] <+: m) : k <+: m :=
  (prefix_append k [b]).trans h

/-- Of two beginnings of a word the shorter, with its next symbol, is in the longer. -/
theorem concat_prefix_of_length_lt {k' : List β} (h : k ++ [b] <+: m) (h' : k' <+: m)
    (hlt : k.length < k'.length) : k ++ [b] <+: k' := by
  apply prefix_of_prefix_length_le h h'
  rw [length_append, length_singleton]
  exact hlt

/-- The first `n` symbols of an infinite word. -/
def word (a : Nat → β) (n : Nat) : List β := (List.range n).map a

@[simp] theorem length_word (a : Nat → β) (n : Nat) : (word a n).length = n := by
  simp [word]

theorem word_succ (a : Nat → β) (n : Nat) : word a (n + 1) = word a n ++ [a n] := by
  simp [word, range_succ]

theorem word_prefix_word {a : Nat → β} {n n' : Nat} (h : n ≤ n') : word a n <+: word a n' := by
  induction h with
  | refl => exact prefix_rfl
  | step _ ih =>
      rw [word_succ]
      exact ih.trans (prefix_append _ _)

theorem word_eq_word {a c : Nat → β} {n : Nat} : word a n = word c n ↔ ∀ i < n, a i = c i := by
  simp [word]

/-- The prefixes of a word are its beginnings. -/
theorem prefix_word_iff {a : Nat → β} {n : Nat} :
    k <+: word a n ↔ k.length ≤ n ∧ k = word a k.length := by
  constructor
  · intro h
    have hle : k.length ≤ n := by simpa using h.length_le
    have hpre := prefix_of_prefix_length_le h (word_prefix_word (a := a) hle) (by simp)
    exact ⟨hle, hpre.eq_of_length (by simp)⟩
  · rintro ⟨hle, heq⟩
    rw [heq]
    exact word_prefix_word hle

/-- A beginning that is not all of `k` is continued in `k`, by the next symbol
where `k` is a beginning too. -/
theorem prefix_word_concat {a : Nat → β} {n : Nat} (hk : k = word a n) (h : m <+: k)
    (hlt : m.length < n) : m ++ [a m.length] <+: k := by
  rw [hk] at h ⊢
  obtain ⟨-, hm⟩ := prefix_word_iff.mp h
  have heq : m ++ [a m.length] = word a (m.length + 1) := by rw [word_succ, ← hm]
  rw [heq]
  exact word_prefix_word hlt

end Words

namespace PTrie

variable {t : PTrie ν β}

/-- The shape of a trie. -/
structure Formed (t : PTrie ν β) : Prop where
  /-- The root has no parent, -/
  root : ∀ {r}, t.root = some r → t.live r ∧ t.parent r = none
  /-- and every key begins with the root's. -/
  root_le : ∀ {r m}, t.root = some r → t.live m → t.key r <+: t.key m
  rooted : ∀ {m}, t.live m → t.root.isSome
  /-- A child continues its parent's key with its own symbol. -/
  child : ∀ {n b c}, t.live n → t.child n b = some c →
    t.live c ∧ t.parent c = some n ∧ t.key n ++ [b] <+: t.key c
  /-- The node's keys that continue it are below the child of that symbol. -/
  below : ∀ {n b m}, t.live n → t.live m → t.key n ++ [b] <+: t.key m →
    ∃ c, t.child n b = some c ∧ t.key c <+: t.key m
  inj : ∀ {n m}, t.live n → t.live m → t.key n = t.key m → n = m
  /-- Only the root has no parent. -/
  parentless : ∀ {n}, t.live n → t.parent n = none → t.root = some n
  parent : ∀ {n p}, t.live n → t.parent n = some p → t.live p ∧ ∃ b, t.child p b = some n

section Facts

variable {n m p x : ν} {b : β}

theorem Formed.length_lt_child (h : t.Formed) (hn : t.live n) (hc : t.child n b = some m) :
    (t.key n).length < (t.key m).length :=
  length_lt_of_prefix_concat (h.child hn hc).2.2

theorem Formed.length_parent_lt (h : t.Formed) (hn : t.live n) (hp : t.parent n = some p) :
    (t.key p).length < (t.key n).length := by
  obtain ⟨hlive, b, hc⟩ := h.parent hn hp
  exact h.length_lt_child hlive hc

/-- A child of two nodes, or under two symbols, would have two parents or two
symbols in one place. -/
theorem Formed.child_inj (h : t.Formed) {b' : β} (hn : t.live n) (hm : t.live m)
    (hc : t.child n b = some x) (hc' : t.child m b' = some x) : n = m ∧ b = b' := by
  obtain ⟨-, hp, hk⟩ := h.child hn hc
  obtain ⟨-, hp', hk'⟩ := h.child hm hc'
  obtain rfl : n = m := Option.some.inj (hp.symm.trans hp')
  exact ⟨rfl, concat_prefix_inj hk hk'⟩

/-- A node whose key is a proper beginning of another's is above the other's
parent or is it. -/
theorem Formed.prefix_parent (h : t.Formed) (hm : t.live m) (hx : t.live x)
    (hpre : t.key m <+: t.key x) (hne : m ≠ x) :
    ∃ p, t.parent x = some p ∧ t.key m <+: t.key p := by
  cases hp : t.parent x with
  | none =>
      have hle := h.root_le (h.parentless hx hp) hm
      exact absurd (h.inj hm hx (hpre.eq_of_length_le hle.length_le)) hne
  | some p =>
      obtain ⟨hlive, b, hc⟩ := h.parent hx hp
      obtain ⟨-, -, hk⟩ := h.child hlive hc
      refine ⟨p, rfl, ?_⟩
      by_contra hnot
      have hpm : t.key p <+: t.key m :=
        ( prefix_or_prefix_of_prefix hpre (prefix_of_prefix_concat hk)).resolve_left hnot
      obtain ⟨b', hb'⟩ := exists_prefix_concat hpm fun heq => hnot (heq ▸ prefix_rfl)
      obtain rfl : b = b' := concat_prefix_inj hk (hb'.trans hpre)
      obtain ⟨c, hc', hcm⟩ := h.below hlive hm hb'
      obtain rfl : x = c := Option.some.inj (hc.symm.trans hc')
      exact hne (h.inj hm hx (hpre.eq_of_length_le hcm.length_le))

end Facts

section Changes

variable [DecidableEq ν] [DecidableEq β] {g x n : ν} {k : List β} {b : β}

/-- The first node. -/
def plant (t : PTrie ν β) (g : ν) (k : List β) : PTrie ν β where
  root := some g
  live := fun m => m = g ∨ t.live m
  key := Function.update t.key g k
  child := Function.update t.child g fun _ => none
  parent := Function.update t.parent g none

/-- A new leaf `g` under `x`. -/
def attach (t : PTrie ν β) (g : ν) (k : List β) (b : β) (x : ν) : PTrie ν β where
  root := t.root
  live := fun m => m = g ∨ t.live m
  key := Function.update t.key g k
  child := Function.update (Function.update t.child x (Function.update (t.child x) b (some g)))
    g fun _ => none
  parent := Function.update t.parent g (some x)

/-- A new node `g` in the place of `x`, with `x` as its only child. -/
def above (t : PTrie ν β) (g : ν) (k : List β) (b : β) (x : ν) : PTrie ν β where
  root := if t.parent x = none then some g else t.root
  live := fun m => m = g ∨ t.live m
  key := Function.update t.key g k
  child := Function.update (fun n b' => if t.child n b' = some x then some g else t.child n b')
    g (Function.update (fun _ => none) b (some x))
  parent := Function.update (Function.update t.parent x (some g)) g (t.parent x)

/-- The node `n` is taken out, and its place goes to `o`, its only child if it
has one. -/
def excise (t : PTrie ν β) (n : ν) (o : Option ν) : PTrie ν β where
  root := if t.root = some n then o else t.root
  live := fun m => m ≠ n ∧ t.live m
  key := t.key
  child := Function.update (fun p b => if t.child p b = some n then o else t.child p b)
    n fun _ => none
  parent := Function.update (fun m => if o = some m then t.parent n else t.parent m) n none

end Changes

section Plant

variable [DecidableEq ν] {g : ν} {k : List β}

theorem Formed.plant (h : t.Formed) (hroot : t.root = none) : (t.plant g k).Formed := by
  have hdead : ∀ m, ¬ t.live m := by
    intro m hm
    have hsome := h.rooted hm
    rw [hroot] at hsome
    exact absurd hsome (by simp)
  have hlive : ∀ {m}, (t.plant g k).live m → m = g := fun hm => hm.resolve_right (hdead _)
  have hchild : (t.plant g k).child g = fun _ => none := update_self ..
  have hparent : (t.plant g k).parent g = none := update_self ..
  constructor
  case root =>
    intro r hr
    obtain rfl : g = r := Option.some.inj hr
    exact ⟨Or.inl rfl, hparent⟩
  case root_le =>
    intro r m hr hm
    obtain rfl : g = r := Option.some.inj hr
    rw [hlive hm]
  case rooted => exact fun _ => rfl
  case child =>
    intro n b c hn hc
    rw [hlive hn, hchild] at hc
    cases hc
  case below =>
    intro n b m hn hm hpre
    rw [hlive hn, hlive hm] at hpre
    exact absurd (length_lt_of_prefix_concat hpre) (Nat.lt_irrefl _)
  case inj =>
    intro n m hn hm _
    rw [hlive hn, hlive hm]
  case parentless =>
    intro n hn _
    rw [hlive hn]
    rfl
  case parent =>
    intro n p hn hp
    rw [hlive hn, hparent] at hp
    cases hp

end Plant

section Attach

variable [DecidableEq ν] [DecidableEq β] {g x n m : ν} {k : List β} {b b' : β}

theorem attach_key_self : (t.attach g k b x).key g = k := update_self ..

theorem attach_key_of_ne (hne : n ≠ g) : (t.attach g k b x).key n = t.key n :=
  update_of_ne hne ..

theorem attach_child_self : (t.attach g k b x).child g b' = none := by
  simp [attach]

theorem attach_child_parent (hne : x ≠ g) : (t.attach g k b x).child x b = some g := by
  simp [attach, hne]

/-- The other pointers to children stay. -/
theorem attach_child_of_ne (hne : n ≠ g) (hother : ¬(n = x ∧ b' = b)) :
    (t.attach g k b x).child n b' = t.child n b' := by
  by_cases hx : n = x
  · have hb : b' ≠ b := fun hb => hother ⟨hx, hb⟩
    subst hx
    simp [attach, hne, hb]
  · simp [attach, hne, hx]

theorem attach_parent_self : (t.attach g k b x).parent g = some x := update_self ..

theorem attach_parent_of_ne (hne : n ≠ g) : (t.attach g k b x).parent n = t.parent n :=
  update_of_ne hne ..

/-- A leaf goes where there is no child, below a beginning of its key. -/
theorem Formed.attach (h : t.Formed) (hx : t.live x) (hg : ¬ t.live g)
    (hfree : t.child x b = none) (hk : t.key x ++ [b] <+: k) : (t.attach g k b x).Formed := by
  have hne : ∀ {m}, t.live m → m ≠ g := fun hm heq => hg (heq ▸ hm)
  -- No key of the trie is behind the free place.
  have hnone : ∀ {m}, t.live m → ¬ t.key x ++ [b] <+: t.key m := by
    intro m hm hpre
    obtain ⟨c, hc, -⟩ := h.below hx hm hpre
    rw [hfree] at hc
    cases hc
  constructor
  case root =>
    intro r hr
    obtain ⟨hlive, hp⟩ := h.root hr
    exact ⟨Or.inr hlive, (attach_parent_of_ne (hne hlive)).trans hp⟩
  case root_le =>
    intro r m hr hm
    obtain ⟨hlive, -⟩ := h.root hr
    rw [attach_key_of_ne (hne hlive)]
    rcases hm with rfl | hm
    · rw [attach_key_self]
      exact (h.root_le hr hx).trans (prefix_of_prefix_concat hk)
    · rw [attach_key_of_ne (hne hm)]
      exact h.root_le hr hm
  case rooted => exact fun _ => h.rooted hx
  case child =>
    intro n b' c hn hc
    rcases hn with rfl | hn
    · rw [attach_child_self] at hc
      cases hc
    · rw [attach_key_of_ne (hne hn)]
      by_cases hplace : n = x ∧ b' = b
      · obtain ⟨rfl, rfl⟩ := hplace
        rw [attach_child_parent (hne hn)] at hc
        obtain rfl : g = c := Option.some.inj hc
        rw [attach_key_self]
        exact ⟨Or.inl rfl, attach_parent_self, hk⟩
      · rw [attach_child_of_ne (hne hn) hplace] at hc
        obtain ⟨hlive, hp, hpre⟩ := h.child hn hc
        rw [attach_key_of_ne (hne hlive), attach_parent_of_ne (hne hlive)]
        exact ⟨Or.inr hlive, hp, hpre⟩
  case below =>
    intro n b' m hn hm hpre
    rcases hn with rfl | hn
    · rw [attach_key_self] at hpre
      rcases hm with rfl | hm
      · rw [attach_key_self] at hpre
        exact absurd (length_lt_of_prefix_concat hpre) (Nat.lt_irrefl _)
      · rw [attach_key_of_ne (hne hm)] at hpre
        exact absurd (hk.trans (prefix_of_prefix_concat hpre)) (hnone hm)
    · rw [attach_key_of_ne (hne hn)] at hpre
      rcases hm with rfl | hm
      · rw [attach_key_self] at hpre ⊢
        by_cases heq : n = x
        · subst heq
          obtain rfl : b' = b := concat_prefix_inj hpre hk
          refine ⟨m, attach_child_parent (hne hn), ?_⟩
          rw [attach_key_self]
        -- The way to the new key parts from the way to `x` at neither of the two.
        have hplace : ¬(n = x ∧ b' = b) := fun hboth => heq hboth.1
        have hnk := prefix_of_prefix_concat hpre
        have hxk := prefix_of_prefix_concat hk
        rcases prefix_or_prefix_of_prefix hnk hxk with hle | hle
        · obtain ⟨b₁, hb₁⟩ := exists_prefix_concat hle fun hkey => heq (h.inj hn hx hkey)
          obtain rfl : b' = b₁ := concat_prefix_inj hpre (hb₁.trans hxk)
          obtain ⟨c, hc, hcx⟩ := h.below hn hx hb₁
          obtain ⟨hlive, -, -⟩ := h.child hn hc
          refine ⟨c, (attach_child_of_ne (hne hn) hplace).trans hc, ?_⟩
          rw [attach_key_of_ne (hne hlive)]
          exact hcx.trans hxk
        · obtain ⟨b₁, hb₁⟩ := exists_prefix_concat hle fun hkey => heq (h.inj hn hx hkey.symm)
          obtain rfl : b = b₁ := concat_prefix_inj hk (hb₁.trans hnk)
          exact absurd hb₁ (hnone hn)
      · rw [attach_key_of_ne (hne hm)] at hpre ⊢
        have hplace : ¬(n = x ∧ b' = b) := by
          rintro ⟨rfl, rfl⟩
          exact hnone hm hpre
        obtain ⟨c, hc, hcm⟩ := h.below hn hm hpre
        obtain ⟨hlive, -, -⟩ := h.child hn hc
        refine ⟨c, (attach_child_of_ne (hne hn) hplace).trans hc, ?_⟩
        rw [attach_key_of_ne (hne hlive)]
        exact hcm
  case inj =>
    intro n m hn hm heq
    rcases hn with rfl | hn <;> rcases hm with rfl | hm
    · rfl
    · rw [attach_key_self, attach_key_of_ne (hne hm)] at heq
      exact absurd (heq ▸ hk) (hnone hm)
    · rw [attach_key_self, attach_key_of_ne (hne hn)] at heq
      exact absurd (heq ▸ hk) (hnone hn)
    · rw [attach_key_of_ne (hne hm), attach_key_of_ne (hne hn)] at heq
      exact h.inj hn hm heq
  case parentless =>
    intro n hn hp
    rcases hn with rfl | hn
    · rw [attach_parent_self] at hp
      cases hp
    · rw [attach_parent_of_ne (hne hn)] at hp
      exact h.parentless hn hp
  case parent =>
    intro n p hn hp
    rcases hn with rfl | hn
    · rw [attach_parent_self] at hp
      obtain rfl : x = p := Option.some.inj hp
      exact ⟨Or.inr hx, b, attach_child_parent (hne hx)⟩
    · rw [attach_parent_of_ne (hne hn)] at hp
      obtain ⟨hlive, b', hc⟩ := h.parent hn hp
      have hplace : ¬(p = x ∧ b' = b) := by
        rintro ⟨rfl, rfl⟩
        rw [hfree] at hc
        cases hc
      exact ⟨Or.inr hlive, b', (attach_child_of_ne (hne hlive) hplace).trans hc⟩

end Attach

section Above

variable [DecidableEq ν] [DecidableEq β] {g x n c : ν} {k : List β} {b b' : β}

theorem above_key_self : (t.above g k b x).key g = k := update_self ..

theorem above_key_of_ne (hne : n ≠ g) : (t.above g k b x).key n = t.key n :=
  update_of_ne hne ..

theorem above_child_self : (t.above g k b x).child g b = some x := by
  simp [above]

/-- The new node has one child. -/
theorem above_child_self_iff : (t.above g k b x).child g b' = some c ↔ b' = b ∧ c = x := by
  by_cases hb : b' = b
  · subst hb
    simp [above, eq_comm]
  · simp [above, hb]

theorem above_child_of_eq (hne : n ≠ g) (hc : t.child n b' = some x) :
    (t.above g k b x).child n b' = some g := by
  simp [above, hne, hc]

theorem above_child_of_ne (hne : n ≠ g) (hc : t.child n b' ≠ some x) :
    (t.above g k b x).child n b' = t.child n b' := by
  simp [above, hne, hc]

theorem above_parent_self : (t.above g k b x).parent g = t.parent x := update_self ..

theorem above_parent_child (hne : x ≠ g) : (t.above g k b x).parent x = some g := by
  simp [above, hne]

theorem above_parent_of_ne (hne : n ≠ g) (hx : n ≠ x) :
    (t.above g k b x).parent n = t.parent n := by
  simp [above, hne, hx]

/-- A node goes above another when its key is a beginning of the other's that
the other's parent does not reach. -/
theorem Formed.above (h : t.Formed) (hx : t.live x) (hg : ¬ t.live g)
    (hk : k ++ [b] <+: t.key x) (hp : ∀ p, t.parent x = some p → (t.key p).length < k.length) :
    (t.above g k b x).Formed := by
  have hne : ∀ {m}, t.live m → m ≠ g := fun hm heq => hg (heq ▸ hm)
  have hkx : k <+: t.key x := prefix_of_prefix_concat hk
  -- A key above `x` is a proper beginning of the new one.
  have habove : ∀ {m}, t.live m → m ≠ x → t.key m <+: t.key x → (t.key m).length < k.length := by
    intro m hm hmx hle
    obtain ⟨p, hpar, hpre⟩ := h.prefix_parent hm hx hle hmx
    exact Nat.lt_of_le_of_lt hpre.length_le (hp p hpar)
  have hbefore : ∀ {m}, t.live m → m ≠ x → t.key m <+: t.key x → t.key m <+: k := by
    intro m hm hmx hle
    exact prefix_of_prefix_length_le hle hkx (Nat.le_of_lt (habove hm hmx hle))
  -- What continues the new key continues the key of `x`.
  have hunder : ∀ {m}, t.live m → k <+: t.key m → t.key x <+: t.key m := by
    intro m hm hle
    cases hpar : t.parent x with
    | none => exact h.root_le (h.parentless hx hpar) hm
    | some p =>
        obtain ⟨hlive, b₁, hc⟩ := h.parent hx hpar
        obtain ⟨-, -, hpx⟩ := h.child hlive hc
        have hpk : t.key p ++ [b₁] <+: k :=
          concat_prefix_of_length_lt hpx hkx (hp p hpar)
        obtain ⟨c, hc', hcm⟩ := h.below hlive hm (hpk.trans hle)
        obtain rfl : x = c := Option.some.inj (hc.symm.trans hc')
        exact hcm
  constructor
  case root =>
    intro r hr
    cases hpar : t.parent x with
    | none =>
        have hroot : (t.above g k b x).root = some g := if_pos hpar
        obtain rfl : g = r := Option.some.inj (hroot.symm.trans hr)
        exact ⟨Or.inl rfl, above_parent_self.trans hpar⟩
    | some p =>
        have hroot : (t.above g k b x).root = t.root := if_neg (by simp [hpar])
        obtain ⟨hlive, hnone⟩ := h.root (hroot.symm.trans hr)
        have hrx : r ≠ x := by
          rintro rfl
          rw [hpar] at hnone
          cases hnone
        exact ⟨Or.inr hlive, (above_parent_of_ne (hne hlive) hrx).trans hnone⟩
  case root_le =>
    intro r m hr hm
    cases hpar : t.parent x with
    | none =>
        have hroot : (t.above g k b x).root = some g := if_pos hpar
        obtain rfl : g = r := Option.some.inj (hroot.symm.trans hr)
        rw [above_key_self]
        rcases hm with rfl | hm
        · rw [above_key_self]
        · rw [above_key_of_ne (hne hm)]
          exact hkx.trans (h.root_le (h.parentless hx hpar) hm)
    | some p =>
        have hroot : (t.above g k b x).root = t.root := if_neg (by simp [hpar])
        obtain ⟨hlive, hnone⟩ := h.root (hroot.symm.trans hr)
        have hrx : r ≠ x := by
          rintro rfl
          rw [hpar] at hnone
          cases hnone
        have hle : ∀ {m}, t.live m → t.key r <+: t.key m := h.root_le (hroot.symm.trans hr)
        rw [above_key_of_ne (hne hlive)]
        rcases hm with rfl | hm
        · rw [above_key_self]
          exact hbefore hlive hrx (hle hx)
        · rw [above_key_of_ne (hne hm)]
          exact hle hm
  case rooted =>
    intro m _
    by_cases hpar : t.parent x = none
    · simp [PTrie.above, hpar]
    · have hroot : (t.above g k b x).root = t.root := if_neg hpar
      rw [hroot]
      exact h.rooted hx
  case child =>
    intro n b' c hn hc
    rcases hn with rfl | hn
    · obtain ⟨rfl, rfl⟩ := above_child_self_iff.mp hc
      rw [above_key_self, above_key_of_ne (hne hx)]
      exact ⟨Or.inr hx, above_parent_child (hne hx), hk⟩
    · rw [above_key_of_ne (hne hn)]
      by_cases hcx : t.child n b' = some x
      · obtain rfl : g = c := Option.some.inj ((above_child_of_eq (hne hn) hcx).symm.trans hc)
        obtain ⟨-, hpar, hpre⟩ := h.child hn hcx
        rw [above_key_self]
        exact ⟨Or.inl rfl, above_parent_self.trans hpar,
          concat_prefix_of_length_lt hpre hkx (hp n hpar)⟩
      · rw [above_child_of_ne (hne hn) hcx] at hc
        obtain ⟨hlive, hpar, hpre⟩ := h.child hn hc
        have hne' : c ≠ x := fun heq => hcx (heq ▸ hc)
        rw [above_key_of_ne (hne hlive), above_parent_of_ne (hne hlive) hne']
        exact ⟨Or.inr hlive, hpar, hpre⟩
  case below =>
    intro n b' m hn hm hpre
    rcases hn with rfl | hn
    · rw [above_key_self] at hpre
      rcases hm with rfl | hm
      · rw [above_key_self] at hpre
        exact absurd (length_lt_of_prefix_concat hpre) (Nat.lt_irrefl _)
      · rw [above_key_of_ne (hne hm)] at hpre ⊢
        have hxm := hunder hm (prefix_of_prefix_concat hpre)
        obtain rfl : b = b' := concat_prefix_inj (hk.trans hxm) hpre
        exact ⟨x, above_child_self, by rwa [above_key_of_ne (hne hx)]⟩
    · rw [above_key_of_ne (hne hn)] at hpre
      rcases hm with rfl | hm
      · rw [above_key_self] at hpre ⊢
        obtain ⟨c, hc, hcx⟩ := h.below hn hx (hpre.trans hkx)
        obtain ⟨hlive, -, -⟩ := h.child hn hc
        by_cases heq : c = x
        · refine ⟨m, above_child_of_eq (hne hn) (heq ▸ hc), ?_⟩
          rw [above_key_self]
        · refine ⟨c, ?_, ?_⟩
          · rw [above_child_of_ne (hne hn) (by simpa [hc] using heq), hc]
          · rw [above_key_of_ne (hne hlive)]
            exact hbefore hlive heq hcx
      · rw [above_key_of_ne (hne hm)] at hpre ⊢
        obtain ⟨c, hc, hcm⟩ := h.below hn hm hpre
        obtain ⟨hlive, -, -⟩ := h.child hn hc
        by_cases heq : c = x
        · refine ⟨g, above_child_of_eq (hne hn) (heq ▸ hc), ?_⟩
          rw [above_key_self]
          exact hkx.trans (heq ▸ hcm)
        · refine ⟨c, ?_, ?_⟩
          · rw [above_child_of_ne (hne hn) (by simpa [hc] using heq), hc]
          · rw [above_key_of_ne (hne hlive)]
            exact hcm
  case inj =>
    -- A node with the new key would be above `x`, and its key shorter.
    have hnew : ∀ {m}, t.live m → t.key m ≠ k := by
      rintro m hm rfl
      have hmx : m ≠ x := by
        rintro rfl
        exact absurd (length_lt_of_prefix_concat hk) (Nat.lt_irrefl _)
      exact absurd (habove hm hmx hkx) (Nat.lt_irrefl _)
    intro n m hn hm heq
    rcases hn with rfl | hn <;> rcases hm with rfl | hm
    · rfl
    · rw [above_key_self, above_key_of_ne (hne hm)] at heq
      exact absurd heq.symm (hnew hm)
    · rw [above_key_self, above_key_of_ne (hne hn)] at heq
      exact absurd heq (hnew hn)
    · rw [above_key_of_ne (hne hm), above_key_of_ne (hne hn)] at heq
      exact h.inj hn hm heq
  case parentless =>
    intro n hn hnone
    rcases hn with rfl | hn
    · exact if_pos (above_parent_self.symm.trans hnone)
    · have hnx : n ≠ x := by
        rintro rfl
        rw [above_parent_child (hne hn)] at hnone
        cases hnone
      rw [above_parent_of_ne (hne hn) hnx] at hnone
      have hroot := h.parentless hn hnone
      have hpar : t.parent x ≠ none := by
        intro hpar
        exact hnx (Option.some.inj (hroot.symm.trans (h.parentless hx hpar)))
      exact (if_neg hpar).trans hroot
  case parent =>
    intro n p hn hpar
    rcases hn with rfl | hn
    · rw [above_parent_self] at hpar
      obtain ⟨hlive, b', hc⟩ := h.parent hx hpar
      exact ⟨Or.inr hlive, b', above_child_of_eq (hne hlive) hc⟩
    · by_cases hnx : n = x
      · subst hnx
        rw [above_parent_child (hne hn)] at hpar
        obtain rfl : g = p := Option.some.inj hpar
        exact ⟨Or.inl rfl, b, above_child_self⟩
      · rw [above_parent_of_ne (hne hn) hnx] at hpar
        obtain ⟨hlive, b', hc⟩ := h.parent hn hpar
        refine ⟨Or.inr hlive, b', ?_⟩
        rw [above_child_of_ne (hne hlive) (by simpa [hc] using hnx), hc]

end Above

section Excise

variable [DecidableEq ν] {n m p c : ν} {o : Option ν} {b : β}

theorem excise_child_of_eq (hne : p ≠ n) (hc : t.child p b = some n) :
    (t.excise n o).child p b = o := by
  simp [excise, hne, hc]

theorem excise_child_of_ne (hne : p ≠ n) (hc : t.child p b ≠ some n) :
    (t.excise n o).child p b = t.child p b := by
  simp [excise, hne, hc]

theorem excise_parent_of_eq (hne : m ≠ n) (ho : o = some m) :
    (t.excise n o).parent m = t.parent n := by
  simp [excise, hne, ho]

theorem excise_parent_of_ne (hne : m ≠ n) (ho : o ≠ some m) :
    (t.excise n o).parent m = t.parent m := by
  simp [excise, hne, ho]

/-- A node without two children can go, and its child takes its place. -/
theorem Formed.excise (h : t.Formed) (hn : t.live n)
    (honly : ∀ b c, t.child n b = some c → o = some c)
    (ho : ∀ c, o = some c → ∃ b, t.child n b = some c) : (t.excise n o).Formed := by
  -- What was below the node is below the child.
  have hunder : ∀ {m}, t.live m → m ≠ n → t.key n <+: t.key m →
      ∃ c, o = some c ∧ t.key c <+: t.key m := by
    intro m hm hmn hle
    obtain ⟨b, hb⟩ := exists_prefix_concat hle fun heq => hmn (h.inj hm hn heq.symm)
    obtain ⟨c, hc, hcm⟩ := h.below hn hm hb
    exact ⟨c, honly b c hc, hcm⟩
  have hkept : ∀ {c}, o = some c →
      t.live c ∧ c ≠ n ∧ t.parent c = some n ∧ t.key n <+: t.key c := by
    intro c hoc
    obtain ⟨b, hc⟩ := ho c hoc
    obtain ⟨hlive, hpar, hpre⟩ := h.child hn hc
    refine ⟨hlive, ?_, hpar, prefix_of_prefix_concat hpre⟩
    rintro rfl
    exact absurd (length_lt_of_prefix_concat hpre) (Nat.lt_irrefl _)
  constructor
  case root =>
    intro r hr
    by_cases hroot : t.root = some n
    · have hor : o = some r := (if_pos hroot).symm.trans hr
      obtain ⟨hlive, hrn, -, -⟩ := hkept hor
      exact ⟨⟨hrn, hlive⟩, (excise_parent_of_eq hrn hor).trans (h.root hroot).2⟩
    · have hr' : t.root = some r := (if_neg hroot).symm.trans hr
      obtain ⟨hlive, hnone⟩ := h.root hr'
      have hrn : r ≠ n := fun heq => hroot (heq ▸ hr')
      have hor : o ≠ some r := by
        intro hor
        rw [(hkept hor).2.2.1] at hnone
        cases hnone
      exact ⟨⟨hrn, hlive⟩, (excise_parent_of_ne hrn hor).trans hnone⟩
  case root_le =>
    intro r m hr hm
    by_cases hroot : t.root = some n
    · have hor : o = some r := (if_pos hroot).symm.trans hr
      obtain ⟨c, hoc, hcm⟩ := hunder hm.2 hm.1 (h.root_le hroot hm.2)
      obtain rfl : r = c := Option.some.inj (hor.symm.trans hoc)
      exact hcm
    · exact h.root_le ((if_neg hroot).symm.trans hr) hm.2
  case rooted =>
    intro m hm
    by_cases hroot : t.root = some n
    · obtain ⟨c, hoc, -⟩ := hunder hm.2 hm.1 (h.root_le hroot hm.2)
      have heq : (t.excise n o).root = o := if_pos hroot
      rw [heq, hoc]
      rfl
    · have heq : (t.excise n o).root = t.root := if_neg hroot
      rw [heq]
      exact h.rooted hm.2
  case child =>
    rintro p b c ⟨hpn, hp⟩ hc
    by_cases hplace : t.child p b = some n
    · have hoc : o = some c := (excise_child_of_eq hpn hplace).symm.trans hc
      obtain ⟨hlive, hcn, -, hnc⟩ := hkept hoc
      obtain ⟨-, hpar, hpre⟩ := h.child hp hplace
      exact ⟨⟨hcn, hlive⟩, (excise_parent_of_eq hcn hoc).trans hpar, hpre.trans hnc⟩
    · rw [excise_child_of_ne hpn hplace] at hc
      obtain ⟨hlive, hpar, hpre⟩ := h.child hp hc
      have hcn : c ≠ n := fun heq => hplace (heq ▸ hc)
      have hoc : o ≠ some c := by
        intro hoc
        exact hpn (Option.some.inj (hpar.symm.trans (hkept hoc).2.2.1))
      exact ⟨⟨hcn, hlive⟩, (excise_parent_of_ne hcn hoc).trans hpar, hpre⟩
  case below =>
    rintro p b m ⟨hpn, hp⟩ ⟨hmn, hm⟩ hpre
    obtain ⟨c, hc, hcm⟩ := h.below hp hm hpre
    by_cases hcn : c = n
    · subst hcn
      obtain ⟨c', hoc, hcm'⟩ := hunder hm hmn hcm
      exact ⟨c', (excise_child_of_eq hpn hc).trans hoc, hcm'⟩
    · refine ⟨c, ?_, hcm⟩
      rw [excise_child_of_ne hpn (by simpa [hc] using hcn), hc]
  case inj => exact fun hm hm' heq => h.inj hm.2 hm'.2 heq
  case parentless =>
    rintro m ⟨hmn, hm⟩ hnone
    by_cases hom : o = some m
    · rw [excise_parent_of_eq hmn hom] at hnone
      exact (if_pos (h.parentless hn hnone)).trans hom
    · rw [excise_parent_of_ne hmn hom] at hnone
      have hroot := h.parentless hm hnone
      exact (if_neg (by simpa [hroot] using hmn)).trans hroot
  case parent =>
    rintro m p ⟨hmn, hm⟩ hpar
    by_cases hom : o = some m
    · rw [excise_parent_of_eq hmn hom] at hpar
      obtain ⟨hlive, b, hc⟩ := h.parent hn hpar
      have hpn : p ≠ n := by
        rintro rfl
        exact absurd (h.length_lt_child hlive hc) (Nat.lt_irrefl _)
      exact ⟨⟨hpn, hlive⟩, b, (excise_child_of_eq hpn hc).trans hom⟩
    · rw [excise_parent_of_ne hmn hom] at hpar
      obtain ⟨hlive, b, hc⟩ := h.parent hm hpar
      have hpn : p ≠ n := by
        rintro rfl
        exact hom (honly b m hc)
      refine ⟨⟨hpn, hlive⟩, b, ?_⟩
      rw [excise_child_of_ne hpn (by simpa [hc] using hmn), hc]

end Excise

section Descent

variable {a : Nat → β} {vs : List ν} {n m v c : ν}

/-- The descent along the infinite word `a`: the nodes it has passed, the last
one first, and the node it has come to. -/
inductive Walk (t : PTrie ν β) (a : Nat → β) : List ν → ν → Prop
  | root {r : ν} (hr : t.root = some r) : Walk t a [] r
  | down {vs : List ν} {n c : ν} (w : Walk t a vs n)
      (hc : t.child n (a (t.key n).length) = some c) : Walk t a (n :: vs) c

theorem Walk.live (h : t.Formed) (w : t.Walk a vs n) : t.live n := by
  induction w with
  | root hr => exact (h.root hr).1
  | down w hc ih => exact (h.child ih hc).1

/-- The way up is the way down. -/
theorem Walk.parent_eq (h : t.Formed) (w : t.Walk a vs n) : t.parent n = vs.head? := by
  cases w with
  | root hr => exact (h.root hr).2
  | down w hc => exact (h.child (w.live h) hc).2.1

theorem Walk.up (w : t.Walk a (v :: vs) n) : t.Walk a vs v := by
  cases w with
  | down w _ => exact w

theorem Walk.live_of_mem (h : t.Formed) (w : t.Walk a vs n) (hv : v ∈ vs) : t.live v := by
  induction w with
  | root hr => cases hv
  | down w hc ih =>
      rcases mem_cons.mp hv with rfl | hv
      · exact w.live h
      · exact ih hv

/-- A descent turns as the word says. -/
theorem Walk.turn (h : t.Formed) (w : t.Walk a vs n) (hv : v ∈ vs) :
    t.key v ++ [a (t.key v).length] <+: t.key n := by
  induction w with
  | root hr => cases hv
  | down w hc ih =>
      obtain ⟨-, -, hpre⟩ := h.child (w.live h) hc
      rcases mem_cons.mp hv with rfl | hv
      · exact hpre
      · exact (ih hv).trans (prefix_of_prefix_concat hpre)

/-- The keys grow on the way down. -/
theorem Walk.pairwise (h : t.Formed) (w : t.Walk a vs n) :
    (n :: vs).Pairwise fun u v => (t.key v).length < (t.key u).length := by
  induction w with
  | root hr => exact pairwise_singleton _ _
  | down w hc ih =>
      apply pairwise_cons.mpr
      refine ⟨?_, ih⟩
      intro v hv
      exact length_lt_of_prefix_concat ((w.down hc).turn h hv)

/-- A descent passes no more nodes than the key it comes to has symbols. -/
theorem Walk.length_le (h : t.Formed) (w : t.Walk a vs n) : vs.length ≤ (t.key n).length := by
  induction w with
  | root hr => exact Nat.zero_le _
  | down w hc ih =>
      have hlt := h.length_lt_child (w.live h) hc
      rw [length_cons]
      omega

/-- **A descent misses nothing.**  A node whose key begins the word has been
passed, or is not above the node the descent has come to. -/
theorem Walk.covers (h : t.Formed) (w : t.Walk a vs n) (hm : t.live m)
    (hword : t.key m = word a (t.key m).length) : m ∈ vs ∨ t.key n <+: t.key m := by
  induction w with
  | root hr => exact Or.inr (h.root_le hr hm)
  | @down vs n c w hc ih =>
      rcases ih with hmem | hle
      · exact Or.inl (mem_cons_of_mem _ hmem)
      by_cases heq : m = n
      · exact Or.inl (heq ▸ mem_cons_self)
      -- The key goes on as the word does, and so below the child.
      have hlen : (t.key n).length < (t.key m).length := by
        by_contra hnot
        exact heq (h.inj hm (w.live h) (hle.eq_of_length_le (Nat.le_of_not_lt hnot)).symm)
      obtain ⟨c', hc', hcm⟩ := h.below (w.live h) hm (prefix_word_concat hword hle hlen)
      obtain rfl : c = c' := Option.some.inj (hc.symm.trans hc')
      exact Or.inr hcm

/-- A descent that cannot go on has found every key that begins the word. -/
theorem Walk.covers_of_stuck (h : t.Formed) (w : t.Walk a vs n)
    (hstuck : t.child n (a (t.key n).length) = none) (hm : t.live m)
    (hword : t.key m = word a (t.key m).length) : m ∈ vs ∨ m = n := by
  rcases w.covers h hm hword with hmem | hle
  · exact Or.inl hmem
  by_cases heq : m = n
  · exact Or.inr heq
  have hlen : (t.key n).length < (t.key m).length := by
    by_contra hnot
    exact heq (h.inj hm (w.live h) (hle.eq_of_length_le (Nat.le_of_not_lt hnot)).symm)
  obtain ⟨c, hc, -⟩ := h.below (w.live h) hm (prefix_word_concat hword hle hlen)
  rw [hstuck] at hc
  cases hc

/-- A descent that has come far enough has found every key up to that length. -/
theorem Walk.covers_of_length_le (h : t.Formed) (w : t.Walk a vs n) (hm : t.live m)
    (hword : t.key m = word a (t.key m).length)
    (hlen : (t.key m).length ≤ (t.key n).length) : m ∈ vs ∨ m = n := by
  rcases w.covers h hm hword with hmem | hle
  · exact Or.inl hmem
  · exact Or.inr (h.inj hm (w.live h) (hle.eq_of_length_le hlen).symm)

end Descent

section Insertion

variable {a : Nat → β} {vs : List ν} {n x : ν} {d len : Nat}

/-- The key `k` and the word `a` up to `len` have `d` symbols in common: one of
them ends there, or their next symbols differ. -/
structure Parts (a : Nat → β) (len : Nat) (k : List β) (d : Nat) : Prop where
  common : word a d <+: k
  le : d ≤ len
  differ : d < len → d < k.length → ∃ b, b ≠ a d ∧ word a d ++ [b] <+: k

/-- Where the climb from the end `n` of a descent stops: at the last node that
has at least `d` symbols. -/
structure Place (t : PTrie ν β) (vs : List ν) (n : ν) (d : Nat) (x : ν) : Prop where
  mem : x ∈ n :: vs
  le : d ≤ (t.key x).length
  parent_lt : ∀ p, t.parent x = some p → (t.key p).length < d

variable (h : t.Formed) (w : t.Walk a vs n) (hparts : Parts a len (t.key n) d)
  (hplace : t.Place vs n d x)

include h w in
theorem Walk.live_of_mem_cons (hx : x ∈ n :: vs) : t.live x := by
  rcases mem_cons.mp hx with rfl | hx
  · exact w.live h
  · exact w.live_of_mem h hx

include h w in
theorem Walk.prefix_of_mem_cons (hx : x ∈ n :: vs) : t.key x <+: t.key n := by
  rcases mem_cons.mp hx with rfl | hx
  · exact prefix_rfl
  · exact prefix_of_prefix_concat (w.turn h hx)

include h w hplace

/-- Beyond the common part the node goes on as the end of the descent does. -/
theorem Place.next (hd : d < (t.key x).length) {b : β} (hb : word a d ++ [b] <+: t.key n) :
    word a d ++ [b] <+: t.key x :=
  concat_prefix_of_length_lt hb (w.prefix_of_mem_cons h hplace.mem) (by simpa using hd)

include hparts

theorem Place.common : word a d <+: t.key x :=
  prefix_of_prefix_length_le hparts.common (w.prefix_of_mem_cons h hplace.mem)
    (by simpa using hplace.le)

/-- The key is in the trie already. -/
theorem Place.key_eq (hd : (t.key x).length = d) : t.key x = word a d :=
  ((hplace.common h w hparts).eq_of_length (by simpa using hd.symm)).symm

/-- The climb stops at the end of the common part: the place below is free. -/
theorem Place.free (hd : (t.key x).length = d) (hlt : d < len)
    (hstuck : (t.key n).length < len → t.child n (a (t.key n).length) = none) :
    t.child x (a d) = none := by
  rcases mem_cons.mp hplace.mem with rfl | hx
  · rw [← hd] at hlt ⊢
    exact hstuck hlt
  · -- The descent passed `x` and turned there as the word does.
    have hturn := w.turn h hx
    rw [hplace.key_eq h w hparts hd, length_word] at hturn
    have hlen : d < (t.key n).length := by simpa using length_lt_of_prefix_concat hturn
    obtain ⟨b, hb, hpre⟩ := hparts.differ hlt hlen
    exact absurd (concat_prefix_inj hpre hturn) hb

end Insertion

end PTrie

end Trie
