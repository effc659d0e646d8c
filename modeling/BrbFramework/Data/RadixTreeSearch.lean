import BrbFramework.Data.RadixTreeShape

/-!
# Searches in a `RadixTree`

`Formed` is the tree between two operations: a trie whose nodes agree with their
keys, and whose glue nodes have both children. In such a tree both searches end
without a fault and leave it alone. `searchExact` finds the node that keeps the
bits asked for, and `searchBest` the longest prefix that the address has.
-/

namespace BrbData

open Handler Trie List

namespace RadixTree

/-- A node agrees with its key: `bit` is the length, and the prefix is the key. A
node without a prefix has no data. -/
structure NodeOk (key : List Bool) (x : RadixNode) : Prop where
  bit : x.bit = key.length
  le : key.length ≤ 128
  stored : ∀ p, x.pfx = some p → p.key = key
  glue : x.pfx = none → x.data = none

/-- The heap is a trie, and its nodes agree with their keys. -/
structure Shaped (s : RadixTree) (key : Nat → List Bool) : Prop where
  trie : (s.trie key).Formed
  node : ∀ n x, s.nodes n = some x → NodeOk (key n) x
  fresh : ∀ n x, s.nodes n = some x → n < s.made
  maxbits : s.maxbits = 128

/-- The tree between two operations, whose glue nodes have both children. -/
structure Formed (s : RadixTree) (key : Nat → List Bool) : Prop extends Shaped s key where
  full : ∀ n x, s.nodes n = some x → x.pfx = none → ∀ b, (x.child b).isSome

/-- What a node keeps: a prefix, and what the caller has put there with it. -/
def entry (s : RadixTree) (n : Nat) : Option (RadixPrefix × Option Nat) :=
  (s.nodes n).bind fun x => x.pfx.map fun p => (p, x.data)

theorem entry_eq_some {s : RadixTree} {n : Nat} {p : RadixPrefix} {d : Option Nat} :
    s.entry n = some (p, d) ↔ ∃ x, s.nodes n = some x ∧ x.pfx = some p ∧ x.data = d := by
  simp [entry, Option.bind_eq_some_iff]

theorem formed_new (key : Nat → List Bool) : Formed new key where
  trie := by
    have hdead : ∀ m, ¬ (new.trie key).live m := fun m hm => by cases hm
    have hroot : ∀ r, (new.trie key).root ≠ some r := nofun
    constructor
    case root => exact fun hr => absurd hr (hroot _)
    case root_le => exact fun hr => absurd hr (hroot _)
    all_goals exact fun hm => absurd hm (hdead _)
  node := nofun
  fresh := nofun
  maxbits := rfl
  full := nofun

section Descent

variable {s : RadixTree} {key : Nat → List Bool} {vs : List Nat} {n m : Nat} {x : RadixNode}
  {addr : Nat → UInt8} {bitlen fuel : Nat}

theorem Formed.key_eq (h : Formed s key) {p : RadixPrefix} {d : Option Nat}
    (he : s.entry n = some (p, d)) : (s.trie key).live n ∧ p.key = key n := by
  obtain ⟨x, hx, hp, -⟩ := entry_eq_some.mp he
  exact ⟨trie_live hx, (h.node n x hx).stored p hp⟩

theorem Formed.entry_inj (h : Formed s key) {e e' : RadixPrefix × Option Nat}
    (hn : s.entry n = some e) (hm : s.entry m = some e') (heq : e.1.key = e'.1.key) : n = m := by
  obtain ⟨hlive, hk⟩ := h.key_eq hn
  obtain ⟨hlive', hk'⟩ := h.key_eq hm
  exact h.trie.inj hlive hlive' (hk.symm.trans (heq.trans hk'))

/-- Where a descent to the length `bitlen` has ended: at a node that has it, or
where there is no child. -/
def Reached (s : RadixTree) (key : Nat → List Bool) (addr : Nat → UInt8) (bitlen : Nat)
    (vs : List Nat) : Option Nat → Prop
  | some n => (s.trie key).Walk (addrBit addr) vs n ∧ bitlen ≤ (key n).length
  | none => ∃ n us, vs = n :: us ∧ (s.trie key).Walk (addrBit addr) us n ∧
      (s.trie key).child n (addrBit addr (key n).length) = none

theorem Reached.covers (h : Formed s key) {last : Option Nat}
    (hr : Reached s key addr bitlen vs last) (hm : (s.trie key).live m)
    (hword : key m = word (addrBit addr) (key m).length) (hlen : (key m).length ≤ bitlen) :
    m ∈ vs ∨ last = some m := by
  cases last with
  | some n =>
      obtain ⟨w, hle⟩ := hr
      exact (w.covers_of_length_le h.trie hm hword (hlen.trans hle)).imp_right fun heq =>
        congrArg some heq.symm
  | none =>
      obtain ⟨n, us, rfl, w, hstuck⟩ := hr
      refine Or.inl ?_
      rcases w.covers_of_stuck h.trie hstuck hm hword with hmem | rfl
      · exact mem_cons_of_mem _ hmem
      · exact mem_cons_self

theorem Formed.at_node (h : Formed s key) (w : (s.trie key).Walk (addrBit addr) vs n) :
    ∃ x, s.nodes n = some x ∧ x.bit = (key n).length ∧
      (s.trie key).child n (addrBit addr (key n).length) =
        if bitTest addr x.bit then x.r else x.l := by
  obtain ⟨x, hx⟩ := exists_node (w.live h.trie)
  have hbit := (h.node n x hx).bit
  refine ⟨x, hx, hbit, ?_⟩
  rw [trie_child hx, bitTest_eq, hbit]
  rfl

theorem Formed.length_le (h : Formed s key) (w : (s.trie key).Walk (addrBit addr) vs n) :
    (key n).length ≤ 128 := by
  obtain ⟨x, hx⟩ := exists_node (w.live h.trie)
  exact (h.node n x hx).le

theorem Formed.fuel_down (h : Formed s key) (w : (s.trie key).Walk (addrBit addr) vs n) {c : Nat}
    (hc : (s.trie key).child n (addrBit addr (key n).length) = some c)
    (hfuel : 129 ≤ fuel + 1 + (key n).length) : 129 ≤ fuel + (key c).length := by
  have hlt : (key n).length < (key c).length := h.trie.length_lt_child (w.live h.trie) hc
  omega

/-! ### Exact searches -/

theorem searchExactLoop_ends (h : Formed s key) (w : (s.trie key).Walk (addrBit addr) vs n)
    (hvs : ∀ v ∈ vs, (key v).length < bitlen) (hfuel : 129 ≤ fuel + (key n).length) :
    Ends (searchExactLoop addr bitlen fuel n) s
      (fun last t => t = s ∧ ∃ us, Reached s key addr bitlen us last ∧
        ∀ v ∈ us, (key v).length < bitlen) fun _ _ => False := by
  induction fuel generalizing vs n with
  | zero =>
      have hle := h.length_le w
      omega
  | succ fuel ih =>
      obtain ⟨x, hx, hbit, hchild⟩ := h.at_node w
      rw [searchExactLoop, ends_bind, ends_node hx, ends_ite, ← hchild, hbit]
      refine ⟨fun hlt => ?_, fun hge => ?_⟩
      · have hvs' : ∀ v ∈ n :: vs, (key v).length < bitlen := by
          intro v hv
          rcases mem_cons.mp hv with rfl | hv
          · exact hlt
          · exact hvs v hv
        split
        case h_1 hnone => exact ⟨rfl, n :: vs, ⟨n, vs, rfl, w, hnone⟩, hvs'⟩
        case h_2 c hc => exact ih (w.down hc) hvs' (h.fuel_down w hc hfuel)
      · exact ⟨rfl, vs, ⟨w, Nat.le_of_not_lt hge⟩, hvs⟩

/-- **Exact search.**  The node that keeps these bits is found, and no other. -/
theorem searchExact_ends (h : Formed s key) (q : RadixPrefix) :
    Ends (searchExact q) s
      (fun r t => t = s ∧ match r with
        | none => ∀ m e, s.entry m = some e → e.1.key ≠ q.key
        | some n => ∃ e, s.entry n = some e ∧ e.1.key = q.key) fun _ _ => False := by
  rw [searchExact, ends_bind, ends_get]
  split
  case h_1 hhead =>
    refine ⟨rfl, ?_⟩
    rintro m ⟨p, d⟩ he -
    have hsome := h.trie.rooted (h.key_eq he).1
    have hroot : (s.trie key).root = none := hhead
    rw [hroot] at hsome
    cases hsome
  case h_2 head hhead =>
    have w : (s.trie key).Walk (addrBit q.uchar) [] head := .root hhead
    rw [ends_bind]
    refine (searchExactLoop_ends h w nofun (Nat.le_add_right _ _)).imp ?_
    rintro last t ⟨rfl, us, hreached, hus⟩
    -- A node with these bits would be where the descent has ended.
    have hfound : ∀ m e, t.entry m = some e → e.1.key = q.key → last = some m := by
      rintro m ⟨p, d⟩ he hk
      obtain ⟨hlive, hkey⟩ := h.key_eq he
      have hm : key m = word q.bits q.bitlen := hkey.symm.trans hk
      have hlen : (key m).length = q.bitlen := by rw [hm, length_word]
      refine (hreached.covers h hlive (by rw [hlen]; exact hm) hlen.le).resolve_left ?_
      intro hmem
      exact absurd (hus m hmem) (by omega)
    cases last with
    | none => exact ⟨rfl, fun m e he hk => nomatch hfound m e he hk⟩
    | some n =>
        obtain ⟨w', hle⟩ := hreached
        obtain ⟨x, hx, hbit, -⟩ := h.at_node w'
        have hnot : ∀ {P : Prop}, (∀ e, t.entry n = some e → e.1.key = q.key → P) →
            ∀ m e, t.entry m = some e → e.1.key = q.key → P := by
          intro P hP m e he hk
          obtain rfl : n = m := Option.some.inj (hfound m e he hk)
          exact hP e he hk
        simp only [ends_bind, ends_node hx]
        rw [ends_ite]
        refine ⟨fun hlong => ⟨rfl, hnot ?_⟩, fun hlong => ?_⟩
        · rintro ⟨p, d⟩ he hk
          have hlen := congrArg List.length ((h.key_eq he).2.symm.trans hk)
          rw [RadixPrefix.length_key] at hlen
          omega
        split
        case h_1 hnone =>
          refine ⟨rfl, hnot ?_⟩
          rintro ⟨p, d⟩ he -
          obtain ⟨y, hy, hp, -⟩ := entry_eq_some.mp he
          obtain rfl : x = y := Option.some.inj (hx.symm.trans hy)
          rw [hnone] at hp
          cases hp
        case h_2 p hp =>
          have hentry : t.entry n = some (p, x.data) := entry_eq_some.mpr ⟨x, hx, hp, rfl⟩
          have hlen : p.bitlen = q.bitlen := by
            have hkey := congrArg List.length (h.key_eq hentry).2
            rw [RadixPrefix.length_key] at hkey
            omega
          have hsame : compWithMask p.uchar q.uchar q.bitlen = true ↔ p.key = q.key := by
            rw [compWithMask_iff, ← RadixPrefix.sameBits_iff]
            simp only [RadixPrefix.SameBits, RadixPrefix.Contains, hlen, true_and]
            rfl
          rw [ends_ite]
          refine ⟨fun hcomp => ⟨rfl, _, hentry, hsame.mp hcomp⟩, fun hcomp => ⟨rfl, hnot ?_⟩⟩
          intro e he hk
          obtain rfl : (p, x.data) = e := Option.some.inj (hentry.symm.trans he)
          exact hcomp (hsame.mpr hk)

end Descent

/-! ### Best searches -/

section Best

variable {s : RadixTree} {key : Nat → List Bool} {vs : List Nat} {n m : Nat}
  {addr : Nat → UInt8} {bitlen fuel : Nat}

def keeps (s : RadixTree) (n : Nat) : Bool := (s.entry n).isSome

theorem keeps_eq {x : RadixNode} (hx : s.nodes n = some x) : s.keeps n = x.pfx.isSome := by
  simp [keeps, entry, hx]

theorem ends_push {x : RadixNode} (hx : s.nodes n = some x)
    (hlen : (vs.filter s.keeps).length ≤ 128)
    {Q : List Nat → RadixTree → Prop} {E : Fault → RadixTree → Prop} :
    Ends (push x.pfx.isSome (vs.filter s.keeps) n) s Q E ↔ Q ((n :: vs).filter s.keeps) s := by
  have hroom : (vs.filter s.keeps).length < radixMaxbits + 1 := Nat.lt_succ_of_le hlen
  rw [filter_cons, keeps_eq hx]
  cases x.pfx.isSome with
  | true => simp [push, hroom]
  | false => simp [push]

theorem searchBestLoop_ends (h : Formed s key) (w : (s.trie key).Walk (addrBit addr) vs n)
    (hvs : ∀ v ∈ vs, (key v).length < bitlen) (hfuel : 129 ≤ fuel + (key n).length) :
    Ends (searchBestLoop addr bitlen fuel n (vs.filter s.keeps)) s
      (fun r t => t = s ∧ ∃ us, r.2 = us.filter s.keeps ∧ Reached s key addr bitlen us r.1 ∧
        ∀ v ∈ us, (key v).length < bitlen) fun _ _ => False := by
  induction fuel generalizing vs n with
  | zero =>
      have hle := h.length_le w
      omega
  | succ fuel ih =>
      obtain ⟨x, hx, hbit, hchild⟩ := h.at_node w
      have hroom : (vs.filter s.keeps).length ≤ 128 :=
        (length_filter_le _ _).trans ((w.length_le h.trie).trans (h.length_le w))
      rw [searchBestLoop, ends_bind, ends_node hx, ends_ite, ← hchild, hbit]
      refine ⟨fun hlt => ?_, fun hge => ?_⟩
      · have hvs' : ∀ v ∈ n :: vs, (key v).length < bitlen := by
          intro v hv
          rcases mem_cons.mp hv with rfl | hv
          · exact hlt
          · exact hvs v hv
        rw [ends_bind, ends_push hx hroom]
        split
        case h_1 hnone => exact ⟨rfl, n :: vs, rfl, ⟨n, vs, rfl, w, hnone⟩, hvs'⟩
        case h_2 c hc => exact ih (w.down hc) hvs' (h.fuel_down w hc hfuel)
      · exact ⟨rfl, vs, rfl, ⟨w, Nat.le_of_not_lt hge⟩, hvs⟩

/-- The prefix of the node is a beginning of the address. -/
def Matches (s : RadixTree) (addr : Nat → UInt8) (n : Nat) : Prop :=
  ∃ e, s.entry n = some e ∧ e.1.key = word (addrBit addr) e.1.bitlen

theorem searchBestScan_ends {stack : List Nat} (hstack : ∀ v ∈ stack, s.keeps v = true) :
    Ends (searchBestScan addr stack) s
      (fun r t => t = s ∧ match r with
        | none => ∀ v ∈ stack, ¬ s.Matches addr v
        | some n => s.Matches addr n ∧ ∃ front back, stack = front ++ n :: back ∧
            ∀ v ∈ front, ¬ s.Matches addr v) fun _ _ => False := by
  induction stack with
  | nil => exact ⟨rfl, nofun⟩
  | cons v stack ih =>
      obtain ⟨⟨p, d⟩, he⟩ := Option.isSome_iff_exists.mp (hstack v mem_cons_self)
      obtain ⟨x, hx, hp, -⟩ := entry_eq_some.mp he
      have hmatch : compWithMask p.uchar addr p.bitlen = true ↔ s.Matches addr v := by
        rw [compWithMask_iff, ← word_eq_word]
        constructor
        · exact fun heq => ⟨(p, d), he, heq⟩
        · rintro ⟨e, he', hk⟩
          obtain rfl : (p, d) = e := Option.some.inj (he.symm.trans he')
          exact hk
      simp only [searchBestScan, ends_bind, ends_node hx, hp]
      rw [ends_ite]
      refine ⟨fun hcomp => ⟨rfl, hmatch.mp hcomp, [], stack, rfl, nofun⟩, fun hcomp => ?_⟩
      have hno : ¬ s.Matches addr v := fun hm => hcomp (hmatch.mpr hm)
      refine (ih fun u hu => hstack u (mem_cons_of_mem _ hu)).imp ?_
      rintro r t ⟨rfl, hr⟩
      refine ⟨rfl, ?_⟩
      cases r with
      | none =>
          intro u hu
          rcases mem_cons.mp hu with rfl | hu
          · exact hno
          · exact hr u hu
      | some n =>
          obtain ⟨hn, front, back, rfl, hfront⟩ := hr
          refine ⟨hn, v :: front, back, rfl, ?_⟩
          intro u hu
          rcases mem_cons.mp hu with rfl | hu
          · exact hno
          · exact hfront u hu

theorem Reached.pairwise (h : Formed s key) {last : Option Nat}
    (hr : Reached s key addr bitlen vs last) :
    (last.toList ++ vs).Pairwise fun u v => (key v).length < (key u).length := by
  cases last with
  | some n => exact hr.1.pairwise h.trie
  | none =>
      obtain ⟨n, us, rfl, w, -⟩ := hr
      exact w.pairwise h.trie

theorem Reached.longest (h : Formed s key) {last : Option Nat}
    (hr : Reached s key addr bitlen vs last) {front back : List Nat}
    (hpath : (last.toList ++ vs).filter s.keeps = front ++ n :: back)
    (hfront : ∀ v ∈ front, ¬ s.Matches addr v) {e : RadixPrefix × Option Nat}
    (hm : s.entry m = some e) (hlen : e.1.bitlen ≤ bitlen)
    (hword : e.1.key = word (addrBit addr) e.1.bitlen) : (key m).length ≤ (key n).length := by
  obtain ⟨hlive, hkey⟩ := h.key_eq hm
  have hkm : (key m).length = e.1.bitlen := by rw [← hkey, RadixPrefix.length_key]
  have hmem : m ∈ last.toList ++ vs := by
    rcases hr.covers h hlive (by rw [← hkey, RadixPrefix.length_key, hword]) (hkm.trans_le hlen)
      with hmem | rfl
    · exact mem_append_right _ hmem
    · exact mem_append_left _ (mem_singleton_self m)
  have hin : m ∈ front ++ n :: back := by
    rw [← hpath]
    exact mem_filter.mpr ⟨hmem, by simp [keeps, hm]⟩
  have hpair := (hr.pairwise h).filter s.keeps
  rw [hpath, pairwise_append, pairwise_cons] at hpair
  rcases mem_append.mp hin with hmem | hmem
  · exact absurd ⟨e, hm, hword⟩ (hfront m hmem)
  · rcases mem_cons.mp hmem with rfl | hmem
    · exact Nat.le_refl _
    · exact Nat.le_of_lt (hpair.2.1.1 m hmem)

/-- **Longest prefix match.**  Of the prefixes that are no longer than the query,
the longest one that contains it is found, if there is one. -/
theorem searchBest_ends (h : Formed s key) (q : RadixPrefix) :
    Ends (searchBest q) s
      (fun r t => t = s ∧ match r with
        | none => ∀ m e, s.entry m = some e → e.1.bitlen ≤ q.bitlen → ¬ e.1.Contains q
        | some n => ∃ e, s.entry n = some e ∧ e.1.Contains q ∧
            ∀ m e', s.entry m = some e' → e'.1.bitlen ≤ q.bitlen → e'.1.Contains q →
              e'.1.bitlen ≤ e.1.bitlen) fun _ _ => False := by
  rw [searchBest, searchBest2, ends_bind, ends_get]
  split
  case h_1 hhead =>
    refine ⟨rfl, ?_⟩
    rintro m ⟨p, d⟩ he -
    have hsome := h.trie.rooted (h.key_eq he).1
    have hroot : (s.trie key).root = none := hhead
    rw [hroot] at hsome
    cases hsome
  case h_2 head hhead =>
    have w : (s.trie key).Walk (addrBit q.uchar) [] head := .root hhead
    rw [ends_bind]
    refine (searchBestLoop_ends h w nofun (Nat.le_add_right _ _)).imp ?_
    rintro ⟨last, stack⟩ t ⟨rfl, us, rfl, hreached, -⟩
    have hscan := @searchBestScan_ends t q.uchar ((last.toList ++ us).filter t.keeps)
      fun v hv => (mem_filter.mp hv).2
    -- Both ways the scan is of the path of the descent.
    have hpath : Ends (searchBestScan q.uchar ((last.toList ++ us).filter t.keeps)) t
        (fun r t' => t' = t ∧ match r with
          | none => ∀ m e, t.entry m = some e → e.1.bitlen ≤ q.bitlen → ¬ e.1.Contains q
          | some n => ∃ e, t.entry n = some e ∧ e.1.Contains q ∧
              ∀ m e', t.entry m = some e' → e'.1.bitlen ≤ q.bitlen → e'.1.Contains q →
                e'.1.bitlen ≤ e.1.bitlen) fun _ _ => False := by
      refine hscan.imp ?_
      rintro r t' ⟨rfl, hr⟩
      refine ⟨rfl, ?_⟩
      cases r with
      | none =>
          rintro m ⟨p, d⟩ he hlen hcont
          have hword := RadixPrefix.contains_iff.mp hcont
          obtain ⟨hlive, hkey⟩ := h.key_eq he
          have hkm : (key m).length = p.bitlen := by rw [← hkey, RadixPrefix.length_key]
          have hmem : m ∈ last.toList ++ us := by
            rcases hreached.covers h hlive (by rw [hkm, ← hkey]; exact hword)
              (hkm.trans_le hlen) with hmem | rfl
            · exact mem_append_right _ hmem
            · exact mem_append_left _ (mem_singleton_self m)
          exact hr m (mem_filter.mpr ⟨hmem, by simp [keeps, he]⟩) ⟨_, he, hword⟩
      | some n =>
          obtain ⟨⟨⟨p, d⟩, he, hword⟩, front, back, hlist, hfront⟩ := hr
          refine ⟨_, he, RadixPrefix.contains_iff.mpr hword, ?_⟩
          rintro m ⟨p', d'⟩ he' hlen hcont
          have hle := hreached.longest h hlist hfront he' hlen (RadixPrefix.contains_iff.mp hcont)
          rwa [← (h.key_eq he).2, ← (h.key_eq he').2, RadixPrefix.length_key,
            RadixPrefix.length_key] at hle
    cases last with
    | none => exact hpath
    | some n =>
        obtain ⟨w', -⟩ := hreached
        obtain ⟨x, hx, -, -⟩ := h.at_node w'
        have hroom : (us.filter t.keeps).length ≤ 128 :=
          (length_filter_le _ _).trans ((w'.length_le h.trie).trans (h.length_le w'))
        simp only [ends_bind, ends_node hx, Bool.true_and, ends_push hx hroom]
        exact hpath

end Best

end RadixTree

end BrbData
