import BrbFramework.Data.RadixTreeUpdate
import Mathlib.Data.List.Induction

/-!
# Runs of a `RadixTree`

A tree is for a set of prefixes: `stored` says what an insertion and a removal
do to it. `run_refines` is that the tree keeps just this set, whatever the
operations were, and what both searches find in it follows.

Two prefixes with the same length and leading bits are one to the tree, which
never compares families. `run_lookups` says what that comes to in a tree with
prefixes of both.
-/

namespace BrbData

open Handler Runs Trie List Function

namespace RadixTree

/-- An insertion, or a search for a prefix and the removal of its node. -/
inductive Op
  | lookup (pfx : RadixPrefix)
  | remove (pfx : RadixPrefix)
  deriving DecidableEq, Repr

def Op.pfx : Op → RadixPrefix
  | .lookup pfx | .remove pfx => pfx

def handle : Op → M PUnit
  | .lookup pfx => do
    let _ ← lookup pfx
  | .remove pfx => do
    match ← searchExact pfx with
    | none => return
    | some ptr => remove ptr

/-- What an operation is for: it adds a prefix, unless there is one with these
bits, or takes away the one with these bits. -/
def stored (kept : List RadixPrefix) : Op → List RadixPrefix
  | .lookup pfx => if ∃ p ∈ kept, p.SameBits pfx then kept else pfx :: kept
  | .remove pfx => kept.filter fun p => ¬ p.SameBits pfx

def Keeps (s : RadixTree) (n : Nat) (p : RadixPrefix) : Prop := ∃ d, s.entry n = some (p, d)

def Refines (kept : List RadixPrefix) (s : RadixTree) : Prop :=
  (∃ key, Formed s key) ∧ ∀ p, p ∈ kept ↔ ∃ n, s.Keeps n p

section Steps

variable {s t : RadixTree} {kept : List RadixPrefix} {p : RadixPrefix} {n r : Nat}

theorem refines_new : Refines [] new := by
  refine ⟨⟨fun _ => [], formed_new _⟩, ?_⟩
  intro p
  constructor
  · nofun
  · rintro ⟨n, d, he⟩
    cases he

theorem Inserted.refines (h : Refines kept s) {key : Nat → List Bool} (ht : Formed t key)
    (hi : Inserted s t p r) : Refines (stored kept (.lookup p)) t := by
  rcases hi with ⟨rfl, e, he, hk⟩ | ⟨hnone, hr, hentry⟩
  · have hmem : ∃ q ∈ kept, q.SameBits p :=
      ⟨e.1, (h.2 e.1).mpr ⟨r, e.2, he⟩, RadixPrefix.sameBits_iff.mpr hk⟩
    rw [stored, if_pos hmem]
    exact h
  · have hnot : ¬ ∃ q ∈ kept, q.SameBits p := by
      rintro ⟨q, hq, hsame⟩
      obtain ⟨m, d, hm⟩ := (h.2 q).mp hq
      exact hnone m _ hm (RadixPrefix.sameBits_iff.mp hsame)
    rw [stored, if_neg hnot]
    refine ⟨⟨key, ht⟩, fun q => ?_⟩
    rw [mem_cons, h.2]
    constructor
    · rintro (rfl | ⟨m, d, hm⟩)
      · exact ⟨r, none, by rw [hentry, update_self]⟩
      · have hmr : m ≠ r := by
          rintro rfl
          rw [hr] at hm
          cases hm
        exact ⟨m, d, by rw [hentry, update_of_ne hmr, hm]⟩
    · rintro ⟨m, d, hm⟩
      rw [hentry] at hm
      by_cases hmr : m = r
      · rw [hmr, update_self] at hm
        exact Or.inl (Prod.mk.inj (Option.some.inj hm)).1.symm
      · rw [update_of_ne hmr] at hm
        exact Or.inr ⟨m, d, hm⟩

theorem refines_remove (h : Refines kept s) {key : Nat → List Bool} (hs : Formed s key)
    (ht : Formed t key) {e : RadixPrefix × Option Nat} (hn : s.entry n = some e)
    (hk : e.1.key = p.key) (hentry : t.entry = update s.entry n none) :
    Refines (stored kept (.remove p)) t := by
  refine ⟨⟨key, ht⟩, fun q => ?_⟩
  simp only [stored, mem_filter, h.2, decide_not, Bool.not_eq_true',
    decide_eq_false_iff_not, RadixPrefix.sameBits_iff]
  constructor
  · rintro ⟨⟨m, d, hm⟩, hne⟩
    have hmn : m ≠ n := by
      rintro rfl
      obtain rfl : (q, d) = e := Option.some.inj (hm.symm.trans hn)
      exact hne hk
    exact ⟨m, d, by rw [hentry, update_of_ne hmn, hm]⟩
  · rintro ⟨m, d, hm⟩
    rw [hentry] at hm
    by_cases hmn : m = n
    · rw [hmn, update_self] at hm
      cases hm
    · rw [update_of_ne hmn] at hm
      refine ⟨⟨m, d, hm⟩, fun hkq => hmn ?_⟩
      exact hs.entry_inj hm hn (hkq.trans hk.symm)

theorem lookup_refines (h : Refines kept s) (p : RadixPrefix) :
    Ends (lookup p) s (fun r t => Refines (stored kept (.lookup p)) t ∧ Inserted s t p r)
      fun _ _ => False := by
  obtain ⟨key, hs⟩ := h.1
  refine (lookup_ends hs p).imp ?_
  rintro r t ⟨⟨key', ht⟩, hi⟩
  exact ⟨hi.refines h ht, hi⟩

theorem handle_refines (o : Op) (h : Refines kept s) :
    Ends (handle o) s (fun _ t => Refines (stored kept o) t) fun _ _ => False := by
  cases o with
  | lookup p =>
      rw [handle, ends_bind]
      exact (lookup_refines h p).imp fun _ _ ht => ht.1
  | remove p =>
      obtain ⟨key, hs⟩ := h.1
      rw [handle, ends_bind]
      refine (searchExact_ends hs p).imp ?_
      rintro r t ⟨rfl, hr⟩
      cases r with
      | none =>
          have hall : stored kept (.remove p) = kept := by
            apply filter_eq_self.mpr
            intro q hq
            obtain ⟨m, d, hm⟩ := (h.2 q).mp hq
            simpa [RadixPrefix.sameBits_iff] using hr m _ hm
          rw [hall]
          exact h
      | some n =>
          obtain ⟨e, he, hk⟩ := hr
          obtain ⟨x, hx, -, -⟩ := entry_eq_some.mp he
          refine (remove_ends hs hx).imp ?_
          rintro _ u ⟨hu, hentry⟩
          exact refines_remove h hs hu he hk hentry

end Steps

theorem run_refines (ops : List Op) :
    (run handle (.live new) ops).fault = none ∧
      Refines (ops.foldl stored []) (run handle (.live new) ops).state := by
  have hrun : Holds (Refines (ops.foldl stored [])) (fun _ _ => False)
      (run handle (.live new) ops) :=
    refines_run (P := fun _ _ _ => True) (c := .live new)
      (fun e _ _ hr _ => handle_refines e hr) refines_new ops
      (meetsAlong_of_forall fun _ _ => trivial)
  exact hrun.safe

/-- What `searchBest` is to find: the longest prefix that contains the address. -/
def IsBest (s : RadixTree) (kept : List RadixPrefix) (q : RadixPrefix) : Option Nat → Prop
  | none => ∀ p ∈ kept, ¬ p.Contains q
  | some n => ∃ p ∈ kept, s.Keeps n p ∧ p.Contains q ∧
      ∀ p' ∈ kept, p'.Contains q → p'.bitlen ≤ p.bitlen

/-- What `searchExact` is to find: the prefix with these bits. -/
def IsExact (s : RadixTree) (kept : List RadixPrefix) (q : RadixPrefix) : Option Nat → Prop
  | none => ∀ p ∈ kept, ¬ p.SameBits q
  | some n => ∃ p ∈ kept, s.Keeps n p ∧ p.SameBits q

section Searches

variable {s : RadixTree} {kept : List RadixPrefix}

theorem searchExact_refines (h : Refines kept s) (q : RadixPrefix) :
    Ends (searchExact q) s (fun r t => t = s ∧ IsExact s kept q r) fun _ _ => False := by
  obtain ⟨⟨key, hs⟩, hmem⟩ := h
  refine (searchExact_ends hs q).imp ?_
  rintro r t ⟨rfl, hr⟩
  refine ⟨rfl, ?_⟩
  cases r with
  | none =>
      intro p hp hsame
      obtain ⟨n, d, hn⟩ := (hmem p).mp hp
      exact hr n _ hn (RadixPrefix.sameBits_iff.mp hsame)
  | some n =>
      obtain ⟨e, he, hk⟩ := hr
      exact ⟨e.1, (hmem e.1).mpr ⟨n, e.2, he⟩, ⟨e.2, he⟩, RadixPrefix.sameBits_iff.mpr hk⟩

theorem searchBest_refines (h : Refines kept s) (q : RadixPrefix)
    (hlen : ∀ p ∈ kept, p.bitlen ≤ q.bitlen) :
    Ends (searchBest q) s (fun r t => t = s ∧ IsBest s kept q r) fun _ _ => False := by
  obtain ⟨⟨key, hs⟩, hmem⟩ := h
  refine (searchBest_ends hs q).imp ?_
  rintro r t ⟨rfl, hr⟩
  refine ⟨rfl, ?_⟩
  cases r with
  | none =>
      intro p hp hcont
      obtain ⟨n, d, hn⟩ := (hmem p).mp hp
      exact hr n _ hn (hlen p hp) hcont
  | some n =>
      obtain ⟨e, he, hcont, hmax⟩ := hr
      refine ⟨e.1, (hmem e.1).mpr ⟨n, e.2, he⟩, ⟨e.2, he⟩, hcont, ?_⟩
      intro p hp hcont'
      obtain ⟨m, d, hm⟩ := (hmem p).mp hp
      exact hmax m _ hm (hlen p hp) hcont'

end Searches

theorem mem_of_mem_stored {kept : List RadixPrefix} {o : Op} {p : RadixPrefix}
    (h : p ∈ stored kept o) : p ∈ kept ∨ p = o.pfx := by
  cases o with
  | lookup q =>
      rw [stored] at h
      split at h
      · exact Or.inl h
      · exact (mem_cons.mp h).symm
  | remove q => exact Or.inl (mem_filter.mp h).1

theorem mem_of_mem_foldl {ops : List Op} {p : RadixPrefix} (h : p ∈ ops.foldl stored []) :
    ∃ o ∈ ops, o.pfx = p := by
  induction ops using List.reverseRecOn with
  | nil => cases h
  | append_singleton ops o ih =>
      rw [foldl_append] at h
      rcases mem_of_mem_stored h with hmem | heq
      · obtain ⟨o', ho', hp⟩ := ih hmem
        exact ⟨o', mem_append_left _ ho', hp⟩
      · exact ⟨o, by simp, heq.symm⟩

/-- **The tree of one family.**  After any insertions and removals of prefixes of
one family `searchBest` finds the longest prefix that contains the address, and
`searchExact` finds the node of a prefix exactly if it is kept. -/
theorem run_searches (family : Family) (ops : List Op)
    (hfamily : ∀ o ∈ ops, o.pfx.family = family) :
    (run handle (.live new) ops).fault = none ∧
      (∀ q : RadixPrefix, q.family = family → q.bitlen = family.maxprefix →
        Ends (searchBest q) (run handle (.live new) ops).state
          (fun r t => t = (run handle (.live new) ops).state ∧
            IsBest t (ops.foldl stored []) q r) fun _ _ => False) ∧
      ∀ q : RadixPrefix, q.family = family →
        Ends (searchExact q) (run handle (.live new) ops).state
          (fun r t => t = (run handle (.live new) ops).state ∧
            IsExact t (ops.foldl stored []) q r) fun _ _ => False := by
  obtain ⟨hfault, hrefines⟩ := run_refines ops
  refine ⟨hfault, ?_, ?_⟩
  · intro q _ haddr
    refine (searchBest_refines hrefines q ?_).imp ?_
    · intro p hp
      obtain ⟨o, ho, rfl⟩ := mem_of_mem_foldl hp
      rw [haddr, ← hfamily o ho]
      exact o.pfx.bitlen_le
    · rintro r t ⟨rfl, hr⟩
      exact ⟨rfl, hr⟩
  · intro q _
    refine (searchExact_refines hrefines q).imp ?_
    rintro r t ⟨rfl, hr⟩
    exact ⟨rfl, hr⟩

/-- A net inside another, and an address in both. -/
theorem run_searches_nested :
    (run handle (.live new) [.lookup ⟨.inet, 8, [10, 0, 0, 0], rfl, by decide⟩,
        .lookup ⟨.inet, 16, [10, 1, 0, 0], rfl, by decide⟩]).fault = none ∧
      Ends (searchBest ⟨.inet, 32, [10, 1, 2, 3], rfl, by decide⟩)
        (run handle (.live new) [.lookup ⟨.inet, 8, [10, 0, 0, 0], rfl, by decide⟩,
          .lookup ⟨.inet, 16, [10, 1, 0, 0], rfl, by decide⟩]).state
        (fun r t => IsBest t [⟨.inet, 16, [10, 1, 0, 0], rfl, by decide⟩,
          ⟨.inet, 8, [10, 0, 0, 0], rfl, by decide⟩] ⟨.inet, 32, [10, 1, 2, 3], rfl, by decide⟩ r)
        (fun _ _ => False) ∧
      Ends (searchExact ⟨.inet, 8, [10, 9, 0, 0], rfl, by decide⟩)
        (run handle (.live new) [.lookup ⟨.inet, 8, [10, 0, 0, 0], rfl, by decide⟩,
          .lookup ⟨.inet, 16, [10, 1, 0, 0], rfl, by decide⟩]).state
        (fun r t => IsExact t [⟨.inet, 16, [10, 1, 0, 0], rfl, by decide⟩,
          ⟨.inet, 8, [10, 0, 0, 0], rfl, by decide⟩] ⟨.inet, 8, [10, 9, 0, 0], rfl, by decide⟩ r)
        fun _ _ => False := by
  have hkept : [Op.lookup ⟨.inet, 8, [10, 0, 0, 0], rfl, by decide⟩,
      .lookup ⟨.inet, 16, [10, 1, 0, 0], rfl, by decide⟩].foldl stored [] =
        [⟨.inet, 16, [10, 1, 0, 0], rfl, by decide⟩,
          ⟨.inet, 8, [10, 0, 0, 0], rfl, by decide⟩] := by
    decide
  have h := run_searches .inet [.lookup ⟨.inet, 8, [10, 0, 0, 0], rfl, by decide⟩,
    .lookup ⟨.inet, 16, [10, 1, 0, 0], rfl, by decide⟩] (by decide)
  rw [hkept] at h
  refine ⟨h.1, ?_, ?_⟩
  · exact (h.2.1 ⟨.inet, 32, [10, 1, 2, 3], rfl, by decide⟩ rfl rfl).imp
      (fun _ _ hr => hr.2)
  · exact (h.2.2 ⟨.inet, 8, [10, 9, 0, 0], rfl, by decide⟩ rfl).imp
      (fun _ _ hr => hr.2)

/-! ### A tree of both families -/

section Mixed

variable {ps : List RadixPrefix} {p q : RadixPrefix}

/-- The first of the prefixes with the bits of `q`. -/
def firstLike (ps : List RadixPrefix) (q : RadixPrefix) : Option RadixPrefix :=
  ps.find? fun p => p.SameBits q

theorem firstLike_congr (h : p.SameBits q) : firstLike ps p = firstLike ps q := by
  unfold firstLike
  congr 1
  funext p'
  simp only [RadixPrefix.sameBits_iff] at h ⊢
  rw [h]

theorem sameBits_of_firstLike (h : firstLike ps q = some p) : p.SameBits q := by
  simpa using find?_some h

theorem firstLike_concat (ps : List RadixPrefix) (q r : RadixPrefix) :
    firstLike (ps ++ [r]) q = (firstLike ps q).or (if r.SameBits q then some r else none) := by
  rw [firstLike, find?_append]
  by_cases h : r.SameBits q <;> simp [firstLike, h]

theorem mem_lookups_iff :
    p ∈ (ps.map Op.lookup).foldl stored [] ↔ firstLike ps p = some p := by
  induction ps using List.reverseRecOn generalizing p with
  | nil => simp [firstLike]
  | append_singleton ps r ih =>
      rw [map_append, foldl_append, firstLike_concat]
      change p ∈ stored ((ps.map Op.lookup).foldl stored []) (.lookup r) ↔ _
      have hexists : (∃ y ∈ (ps.map Op.lookup).foldl stored [], y.SameBits r) ↔
          (firstLike ps r).isSome := by
        constructor
        · rintro ⟨y, hy, hsame⟩
          rw [← firstLike_congr hsame, ih.mp hy]
          rfl
        · intro hsome
          obtain ⟨y, hy⟩ := Option.isSome_iff_exists.mp hsome
          have hsame := sameBits_of_firstLike hy
          exact ⟨y, ih.mpr ((firstLike_congr hsame).trans hy), hsame⟩
      rw [stored]
      cases hp : firstLike ps p with
      | some y =>
          have hmem : p ∈ (ps.map Op.lookup).foldl stored [] ↔ y = p := by
            rw [ih, hp, Option.some.injEq]
          rw [Option.some_or, Option.some.injEq]
          split
          · exact hmem
          · rename_i hnot
            rw [mem_cons, hmem]
            refine ⟨fun h => h.resolve_left ?_, Or.inr⟩
            rintro rfl
            rw [hexists, hp] at hnot
            exact hnot rfl
      | none =>
          have hmem : p ∉ (ps.map Op.lookup).foldl stored [] := by
            rw [ih, hp]
            nofun
          rw [Option.none_or]
          split
          · rename_i hsome
            refine ⟨fun h => absurd h hmem, fun h => ?_⟩
            -- A prefix with the bits of the new one would be the first with these bits.
            by_cases hsame : r.SameBits p
            · rw [hexists, firstLike_congr hsame, hp] at hsome
              cases hsome
            · rw [if_neg hsame] at h
              cases h
          · rw [mem_cons, or_iff_left hmem]
            constructor
            · rintro rfl
              exact if_pos (RadixPrefix.sameBits_iff.mpr rfl)
            · intro h
              by_cases hsame : r.SameBits p
              · rw [if_pos hsame] at h
                exact (Option.some.inj h).symm
              · rw [if_neg hsame] at h
                cases h

theorem mem_lookups_sameBits_iff :
    (p ∈ (ps.map Op.lookup).foldl stored [] ∧ p.SameBits q) ↔ firstLike ps q = some p := by
  rw [mem_lookups_iff]
  constructor
  · rintro ⟨hfirst, hsame⟩
    rwa [← firstLike_congr hsame]
  · intro hfirst
    have hsame := sameBits_of_firstLike hfirst
    exact ⟨(firstLike_congr hsame).trans hfirst, hsame⟩

/-- **The tree of both families.**  After any insertions of prefixes of both
families an exact search returns the node of the first prefix with the length and
the leading bits asked for, if there was one, and so does an insertion, for which
its own prefix is the last. -/
theorem run_lookups (ps : List RadixPrefix) (q : RadixPrefix) :
    (run handle (.live new) (ps.map Op.lookup)).fault = none ∧
      Ends (searchExact q) (run handle (.live new) (ps.map Op.lookup)).state
        (fun r t => t = (run handle (.live new) (ps.map Op.lookup)).state ∧ match r with
          | none => firstLike ps q = none
          | some n => ∃ p, firstLike ps q = some p ∧ t.Keeps n p) (fun _ _ => False) ∧
      Ends (lookup q) (run handle (.live new) (ps.map Op.lookup)).state
        (fun n t => ∃ p, firstLike (ps ++ [q]) q = some p ∧ t.Keeps n p) fun _ _ => False := by
  obtain ⟨hfault, hrefines⟩ := run_refines (ps.map Op.lookup)
  refine ⟨hfault, ?_, ?_⟩
  · refine (searchExact_refines hrefines q).imp ?_
    rintro r t ⟨rfl, hr⟩
    refine ⟨rfl, ?_⟩
    cases r with
    | none =>
        apply Option.eq_none_iff_forall_ne_some.mpr
        intro p hp
        obtain ⟨hmem, hsame⟩ := mem_lookups_sameBits_iff.mpr hp
        exact hr p hmem hsame
    | some n =>
        obtain ⟨p, hp, hkeeps, hsame⟩ := hr
        exact ⟨p, mem_lookups_sameBits_iff.mp ⟨hp, hsame⟩, hkeeps⟩
  · refine (lookup_refines hrefines q).imp ?_
    rintro n t ⟨ht, hi⟩
    have hfold : stored ((ps.map Op.lookup).foldl stored []) (.lookup q) =
        ((ps ++ [q]).map Op.lookup).foldl stored [] := by
      rw [map_append, foldl_append]
      rfl
    rw [hfold] at ht
    obtain ⟨p, hkeeps, hsame⟩ : ∃ p, t.Keeps n p ∧ p.SameBits q := by
      rcases hi with ⟨rfl, e, he, hk⟩ | ⟨-, -, hentry⟩
      · exact ⟨e.1, ⟨e.2, he⟩, RadixPrefix.sameBits_iff.mpr hk⟩
      · exact ⟨q, ⟨none, by rw [hentry, update_self]⟩, RadixPrefix.sameBits_iff.mpr rfl⟩
    exact ⟨p, mem_lookups_sameBits_iff.mp ⟨(ht.2 p).mpr ⟨n, hkeeps⟩, hsame⟩, hkeeps⟩

/-- An insertion and an exact search give nodes of the prefix's own family. -/
def Separates (s : RadixTree) (q : RadixPrefix) : Prop :=
  Ends (searchExact q) s
      (fun r t => ∀ n ∈ r, ∀ e ∈ t.entry n, e.1.family = q.family) (fun _ _ => True) ∧
    Ends (lookup q) s (fun n t => ∀ e ∈ t.entry n, e.1.family = q.family) fun _ _ => True

instance (s : RadixTree) (q : RadixPrefix) : Decidable (Separates s q) :=
  inferInstanceAs (Decidable (_ ∧ _))

/-- The node of the net `10.0.0.0/8` is found and returned for `a00::/8`. -/
theorem families_share_a_node :
    ¬ ∀ (ps : List RadixPrefix) (q : RadixPrefix),
      Separates (run handle (.live new) (ps.map Op.lookup)).state q := by
  intro h
  have hseparates := h [⟨.inet, 8, [10, 0, 0, 0], rfl, by decide⟩]
    ⟨.inet6, 8, 10 :: List.replicate 15 0, rfl, by decide⟩
  exact absurd hseparates (by decide)

end Mixed

end RadixTree

end BrbData
