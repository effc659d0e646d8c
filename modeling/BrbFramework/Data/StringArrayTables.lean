import Mathlib.Algebra.GroupWithZero.Nat
import BrbFramework.Data.StringArrayUnique

/-!
# The tables of a string array

The offsets and the lengths are two arrays of one size, which grow by the rate of the array
and are shifted where an element goes. An access behind what is allocated fails here.
-/

namespace BrbData

open CStr List
open StringArrayUnique (Line)

/-- A `StringArrayData` with its rate: the two tables as far as they are allocated. -/
structure StringArrayTables where
  growRate : Nat
  capacity : Nat
  lines : List Line
  elements : Nat
  buf : List UInt8
  deriving DecidableEq, Repr

namespace StringArrayTables

/-- `StringArrayNew`. -/
def new (growRate : Nat) : StringArrayTables where
  growRate := if growRate = 0 then 128 else growRate
  capacity := 0
  lines := []
  elements := 0
  buf := []

/-- `_StringArrayCheckForGrow`: the sizes are of type `int`, and what `memset` clears is to be
inside. What is behind the elements is not looked at and taken for zero. -/
def checkForGrow (s : StringArrayTables) : Option StringArrayTables :=
  if s.capacity = 0 then
    let need := if s.growRate + 1 < 2 ^ 31 then max 4 (s.growRate + 1) else 4
    some { s with capacity := need, lines := List.replicate need ⟨0, 0⟩ }
  else if s.capacity ≤ s.elements + 1 then
    let need := s.capacity + s.growRate
    if need < 2 ^ 31 ∧ s.elements + s.growRate ≤ need then
      some { s with
        capacity := s.capacity + s.growRate - 1
        lines := s.lines.take s.elements ++ List.replicate (need - s.elements) ⟨0, 0⟩ }
    else none
  else some s

/-- `StringArrayAdd`. -/
def add (newString : CStr) (s : StringArrayTables) : Option StringArrayTables := do
  let s ← s.checkForGrow
  let str := StringArray.addLine newString
  if s.elements < s.lines.length then
    some { s with
      lines := s.lines.set s.elements ⟨s.buf.length, str.length⟩
      elements := s.elements + 1
      buf := s.buf ++ str ++ [0] }
  else none

/-- The loops that move entries down by `gap`, `n` of them from `i` on. -/
def shift (gap : Nat) : Nat → Nat → List Line → Option (List Line)
  | 0, _, lines => some lines
  | n + 1, i, lines => do
    let line ← lines[i + gap]?
    shift gap n (i + 1) (lines.set i line)

/-- `StringArrayDeleteByPos`, where a negative position is a large one. -/
def deleteByPos (pos : Int) (s : StringArrayTables) : Option StringArrayTables :=
  if pos < 0 ∨ (s.elements : Int) < pos then some s
  else do
    let line ← s.lines[pos.toNat]?
    if s.elements = pos.toNat + 1 then
      some { s with
        elements := s.elements - 1
        buf := s.buf.take line.place ++ List.replicate line.sz 0 ++
          s.buf.drop (line.place + line.sz) }
    else if s.elements = pos.toNat then some s
    else
      let lines ← shift 1 (s.elements + 1 - pos.toNat) pos.toNat s.lines
      some { s with lines, elements := s.elements - 1 }

/-- The first loop of `StringArrayImplodeByPos`, over the entries from `next` on. -/
def merge (delim : UInt8) (pos : Nat) : Nat → Nat → StringArrayTables → Option StringArrayTables
  | 0, _, s => some s
  | n + 1, next, s => do
    let line ← s.lines[pos]?
    let other ← s.lines[next]?
    if other.place = 0 then none
    else
      let lines := s.lines.set pos ⟨line.place, line.sz + (other.sz + 1)⟩
      let buf := s.buf.set (other.place - 1) delim
      merge delim pos n (next + 1) { s with lines, buf }

/-- `StringArrayImplodeByPos`. -/
def implodeByPos (delim : UInt8) (pos qnt : Int) (s : StringArrayTables) :
    Option StringArrayTables :=
  let qntLeft := (s.elements : Int) - pos - 1
  if pos < 0 ∨ (s.elements : Int) ≤ pos ∨ qnt ≤ 0 ∨ qntLeft < qnt then some s
  else do
    let s ← merge delim pos.toNat qnt.toNat (pos.toNat + 1) s
    let lines ← shift qnt.toNat qntLeft.toNat (pos.toNat + 1) s.lines
    some { s with lines, elements := s.elements - qnt.toNat }

inductive Op where
  | add (newString : CStr)
  | deleteByPos (pos : Int)
  | implodeByPos (delim : UInt8) (pos qnt : Int)

def step (s : StringArrayTables) : Op → Option StringArrayTables
  | .add newString => s.add newString
  | .deleteByPos pos => s.deleteByPos pos
  | .implodeByPos delim pos qnt => s.implodeByPos delim pos qnt

def run (s : StringArrayTables) : List Op → Option StringArrayTables
  | [] => some s
  | op :: ops => (s.step op).bind (·.run ops)

def text (buf : List UInt8) (line : Line) : CStr := (buf.drop line.place).take line.sz

def live (s : StringArrayTables) : List Line := s.lines.take s.elements

def content (s : StringArrayTables) : List CStr := s.live.map (text s.buf)

/-- What an operation does to the strings: `implodeByPos` joins those in its range. -/
def Op.spec (l : List CStr) : Op → List CStr
  | .add newString => l ++ [StringArray.addLine newString]
  | .deleteByPos pos => if 0 ≤ pos then l.eraseIdx pos.toNat else l
  | .implodeByPos delim pos qnt =>
    if 0 ≤ pos ∧ 0 < qnt ∧ pos + qnt < l.length then
      l.take pos.toNat ++ List.intercalate [delim] ((l.drop pos.toNat).take (qnt.toNat + 1)) ::
        l.drop (pos.toNat + qnt.toNat + 1)
    else l

/-- Before an operation: the tables can grow and there are less than five elements where they grow
by one; an entry is there behind those that are deleted or joined; and what is joined lies one
behind the other. -/
def Safe (s : StringArrayTables) : Op → Prop
  | .add _ =>
      (s.capacity ≠ 0 → s.capacity ≤ s.elements + 1 → s.capacity + s.growRate < 2 ^ 31) ∧
        (s.growRate = 1 → s.elements < 5)
  | .deleteByPos pos => 0 ≤ pos → (pos = s.elements → s.elements < s.lines.length) ∧
      (pos + 1 < s.elements → s.elements + 1 < s.lines.length)
  | .implodeByPos _ pos qnt => 0 ≤ pos → 0 < qnt → pos + qnt < s.elements →
      s.elements + qnt.toNat ≤ s.lines.length ∧
        ((s.live.drop pos.toNat).take (qnt.toNat + 1)).IsChain
          fun line next => next.place = line.place + line.sz + 1

/-- Each operation of a run is safe where it is done. -/
def AllSafe : StringArrayTables → List Op → Prop
  | _, [] => True
  | s, op :: ops => s.Safe op ∧ ∀ t, s.step op = some t → AllSafe t ops

/-! ## The strings of entries that lie apart -/

theorem text_congr {buf buf' : List UInt8} {line : Line}
    (h : ∀ i, line.place ≤ i → i < line.place + line.sz → buf'[i]? = buf[i]?) :
    text buf' line = text buf line := by
  apply ext_getElem?
  intro i
  rw [text, text]
  by_cases hi : i < line.sz
  · rw [getElem?_take_of_lt hi, getElem?_take_of_lt hi, getElem?_drop,
      getElem?_drop]
    exact h _ (Nat.le_add_right _ _) (by omega)
  · rw [getElem?_take_eq_none (by omega), getElem?_take_eq_none (by omega)]

/-- The entries lie one behind the other, each with a byte behind it. -/
structure Apart (buf : List UInt8) (lines : List Line) : Prop where
  apart : lines.Pairwise fun line next => line.place + line.sz < next.place
  inside : ∀ line ∈ lines, line.place + line.sz < buf.length

theorem Apart.sublist {buf buf' : List UInt8} {l l' : List Line} (h : Apart buf l)
    (hsub : l'.Sublist l) (hlen : buf'.length = buf.length) : Apart buf' l' :=
  ⟨h.apart.sublist hsub, fun line hline => hlen ▸ h.inside line (hsub.subset hline)⟩

theorem join_two {buf : List UInt8} {A X : List Line} {a m : Line} (delim : UInt8)
    (h : Apart buf (A ++ a :: m :: X)) (hm : m.place = a.place + a.sz + 1) :
    ∃ buf', buf' = buf.set (m.place - 1) delim ∧
      Apart buf' (A ++ ⟨a.place, a.sz + (m.sz + 1)⟩ :: X) ∧
      A.map (text buf') = A.map (text buf) ∧ X.map (text buf') = X.map (text buf) ∧
      text buf' ⟨a.place, a.sz + (m.sz + 1)⟩ = text buf a ++ delim :: text buf m := by
  refine ⟨_, rfl, ?_⟩
  obtain ⟨hA, hrest, hbetween⟩ := pairwise_append.mp h.apart
  obtain ⟨ha, hrest⟩ := pairwise_cons.mp hrest
  obtain ⟨hmX, hX⟩ := pairwise_cons.mp hrest
  have hin := h.inside m (by simp)
  have hoff : ∀ line : Line, line.place + line.sz < m.place ∨ m.place ≤ line.place →
      text (buf.set (m.place - 1) delim) line = text buf line := by
    intro line hline
    apply text_congr
    intro i hlow hhigh
    exact getElem?_set_ne (by omega)
  have hlast : ∀ line ∈ A, line.place + line.sz < a.place := fun line hline =>
    hbetween line hline a (by simp)
  refine ⟨⟨?_, ?_⟩, ?_, ?_, ?_⟩
  · refine pairwise_append.mpr ⟨hA, pairwise_cons.mpr ⟨?_, hX⟩, ?_⟩
    · intro next hnext
      have hlt := hmX next hnext
      dsimp only
      omega
    · intro line hline next hnext
      rcases mem_cons.mp hnext with rfl | hnext
      · exact hlast line hline
      · exact hbetween line hline next (by simp [hnext])
  · intro line hline
    rw [length_set]
    rcases mem_append.mp hline with hline | hline
    · exact h.inside line (by simp [hline])
    · rcases mem_cons.mp hline with rfl | hline
      · dsimp only
        omega
      · exact h.inside line (by simp [hline])
  · apply map_congr_left
    intro line hline
    have hlt := hlast line hline
    exact hoff line (.inl (by omega))
  · apply map_congr_left
    intro line hline
    have hlt := hmX line hline
    exact hoff line (.inr (by omega))
  · have hcut : (buf.set (m.place - 1) delim).drop (a.place + a.sz) =
        delim :: (buf.set (m.place - 1) delim).drop m.place := by
      have hat : a.place + a.sz = m.place - 1 := by omega
      rw [hat, drop_eq_getElem_cons (by rw [length_set]; omega), getElem_set_self]
      congr 2
      omega
    have hfirst := hoff a (.inl (by omega))
    have hsecond := hoff m (.inr (Nat.le_refl _))
    rw [text] at hfirst hsecond
    conv_lhs => rw [text]
    rw [List.take_add, hfirst, drop_drop, hcut, take_succ_cons, hsecond]

theorem merge_spec {delim : UInt8} {A X U : List Line} {M : List Line} :
    ∀ {B : List Line} {a : Line} {s : StringArrayTables},
      s.lines = A ++ a :: (B ++ (M ++ (X ++ U))) → Apart s.buf (A ++ a :: (M ++ X)) →
      ((a :: M).IsChain fun line next => next.place = line.place + line.sz + 1) →
      ∃ a' buf', merge delim A.length M.length (A.length + 1 + B.length) s =
          some { s with lines := A ++ a' :: (B ++ (M ++ (X ++ U))), buf := buf' } ∧
        Apart buf' (A ++ a' :: X) ∧ A.map (text buf') = A.map (text s.buf) ∧
        X.map (text buf') = X.map (text s.buf) ∧
        text buf' a' = List.intercalate [delim] ((a :: M).map (text s.buf)) := by
  induction M with
  | nil =>
    intro B a s hlines hapart _
    refine ⟨a, s.buf, ?_, hapart, rfl, rfl, ?_⟩
    · rw [← hlines]
      rfl
    · rw [map_singleton, intercalate_singleton]
  | cons m M ih =>
    intro B a s hlines hapart hchain
    obtain ⟨hm, hchain⟩ := isChain_cons_cons.mp hchain
    obtain ⟨buf₁, hbuf₁, hapart₁, hA₁, hX₁, htext₁⟩ := join_two delim hapart hm
    obtain ⟨a₁, ha₁⟩ : ∃ a₁ : Line, a₁ = ⟨a.place, a.sz + (m.sz + 1)⟩ := ⟨_, rfl⟩
    rw [← ha₁] at hapart₁ htext₁
    have hlines₁ : s.lines.set A.length a₁ = A ++ a₁ :: ((B ++ [m]) ++ (M ++ (X ++ U))) := by
      rw [hlines, set_append_right _ _ (Nat.le_refl _), Nat.sub_self]
      simp
    have hchain₁ : (a₁ :: M).IsChain fun line next => next.place = line.place + line.sz + 1 := by
      cases M with
      | nil => exact .singleton _
      | cons m' M =>
        obtain ⟨hm', hchain⟩ := isChain_cons_cons.mp hchain
        refine isChain_cons_cons.mpr ⟨?_, hchain⟩
        rw [ha₁]
        dsimp only
        omega
    obtain ⟨a', buf', hrun, hapart', hA', hX', htext'⟩ := @ih (B ++ [m]) a₁
      { s with lines := s.lines.set A.length a₁, buf := buf₁ } hlines₁ hapart₁ hchain₁
    have hMX : (M ++ X).map (text buf₁) = (M ++ X).map (text s.buf) := hX₁
    rw [map_append, map_append] at hMX
    obtain ⟨hM₁, hX₁⟩ := append_inj hMX (by simp)
    refine ⟨a', buf', ?_, hapart', hA'.trans hA₁, hX'.trans hX₁, ?_⟩
    · have hfirst : s.lines[A.length]? = some a := by simp [hlines]
      have hsecond : s.lines[A.length + 1 + B.length]? = some m := by
        rw [hlines, getElem?_append_right (by omega)]
        have hsub : A.length + 1 + B.length - A.length = B.length + 1 := by omega
        simp [hsub]
      have hlen : A.length + 1 + B.length + 1 = A.length + 1 + (B ++ [m]).length := by
        simp only [length_append, length_singleton]
        omega
      rw [length_cons, merge, hfirst, Option.bind_eq_bind, Option.bind_some, hsecond,
        Option.bind_some, if_neg (by omega), ← ha₁, ← hbuf₁, hlen, hrun]
      simp
    · rw [htext', map_cons, map_cons, map_cons, htext₁, hM₁,
        intercalate_cons_cons]
      cases M with
      | nil => simp
      | cons m' M => simp [intercalate_cons_cons]

theorem shift_spec {gap : Nat} (hgap : 0 < gap) {n : Nat} : ∀ {i : Nat} {lines : List Line},
    i + n + gap ≤ lines.length → ∃ r, shift gap n i lines = some r ∧ r.length = lines.length ∧
      r.take (i + n) = lines.take i ++ (lines.drop (i + gap)).take n := by
  induction n with
  | zero =>
    intro i lines _
    exact ⟨lines, rfl, rfl, by simp⟩
  | succ n ih =>
    intro i lines hlen
    have hlt : i + gap < lines.length := by omega
    obtain ⟨r, hr, hlength, htake⟩ := @ih (i + 1) (lines.set i lines[i + gap])
      (by rw [length_set]; omega)
    refine ⟨r, ?_, by rw [hlength, length_set], ?_⟩
    · rw [shift, getElem?_eq_getElem hlt]
      exact hr
    · have hi : i + (n + 1) = i + 1 + n := by omega
      have hset : (lines.set i lines[i + gap]).take (i + 1) = lines.take i ++ [lines[i + gap]] := by
        rw [set_eq_take_append_cons_drop, if_pos (by omega), take_append,
          take_of_length_le (by rw [length_take]; omega), length_take]
        have hone : i + 1 - min i lines.length = 1 := by omega
        rw [hone]
        rfl
      rw [hi, htake, hset, drop_set_of_lt (by omega), drop_eq_getElem_cons hlt,
        take_succ_cons, Nat.add_right_comm i 1 gap]
      simp

/-! ## What every step keeps -/

/-- The tables hold the strings `l`: they are as long as their capacity, which is above the number
of the elements, or the array grows by one. -/
structure Holds (s : StringArrayTables) (l : List CStr) : Prop where
  rate : s.growRate ≠ 0
  empty : s.capacity = 0 → s.elements = 0
  capacity : s.capacity ≤ s.lines.length
  sized : s.elements ≤ s.lines.length
  room : s.capacity ≠ 0 → s.growRate ≠ 1 → s.elements + 1 ≤ s.capacity
  ones : s.growRate = 1 → s.capacity ≠ 0 → s.capacity = 4
  apart : Apart s.buf s.live
  content : s.content = l

theorem Holds.length {s : StringArrayTables} {l : List CStr} (h : Holds s l) :
    l.length = s.elements := by
  rw [← h.content, StringArrayTables.content, live, length_map, length_take,
    Nat.min_eq_left h.sized]

theorem checkForGrow_spec {s : StringArrayTables} {l : List CStr} (h : Holds s l) {str : CStr}
    (hsafe : s.Safe (.add str)) : ∃ t, s.checkForGrow = some t ∧ t.growRate = s.growRate ∧
      t.elements = s.elements ∧ t.buf = s.buf ∧ t.live = s.live ∧ t.capacity ≠ 0 ∧
      t.capacity ≤ t.lines.length ∧ s.elements < t.lines.length ∧
      (s.growRate ≠ 1 → s.elements + 2 ≤ t.capacity) ∧ (s.growRate = 1 → t.capacity = 4) := by
  have hrate := h.rate
  have hsized := h.sized
  have hcapacity := h.capacity
  have hroom := h.room
  have hones := h.ones
  obtain ⟨hfit, hfive⟩ := hsafe
  rw [checkForGrow]
  by_cases hzero : s.capacity = 0
  · have hempty := h.empty hzero
    obtain ⟨need, hneed⟩ : ∃ need, need = if s.growRate + 1 < 2 ^ 31 then max 4 (s.growRate + 1)
      else 4 := ⟨_, rfl⟩
    have hfour : 4 ≤ need := by
      rw [hneed]
      split <;> omega
    have hone : s.growRate = 1 → need = 4 := by
      intro hr
      rw [hneed, hr]
      decide
    rw [if_pos hzero, ← hneed]
    refine ⟨_, rfl, rfl, rfl, rfl, ?_, ?_, ?_, ?_, ?_, hone⟩
    · simp [live, hempty]
    · dsimp only
      omega
    · rw [length_replicate]
    · rw [length_replicate]
      omega
    · intro _
      dsimp only
      omega
  · rw [if_neg hzero]
    by_cases hgrow : s.capacity ≤ s.elements + 1
    · have hinside : s.elements + s.growRate ≤ s.capacity + s.growRate := by
        by_cases hone : s.growRate = 1
        · have hless := hfive hone
          have hcap := hones hone hzero
          omega
        · have hle := hroom hzero hone
          omega
      rw [if_pos hgrow, if_pos ⟨hfit hzero hgrow, hinside⟩]
      have hlen : (s.lines.take s.elements ++ List.replicate (s.capacity + s.growRate - s.elements)
          (⟨0, 0⟩ : Line)).length = s.capacity + s.growRate := by
        rw [length_append, length_take, length_replicate, Nat.min_eq_left hsized]
        by_cases hone : s.growRate = 1
        · have hless := hfive hone
          have hcap := hones hone hzero
          omega
        · have hle := hroom hzero hone
          omega
      have hle : s.elements ≤ (s.lines.take s.elements).length := by
        rw [length_take]
        omega
      refine ⟨_, rfl, rfl, rfl, rfl, ?_, ?_, ?_, ?_, ?_, ?_⟩
      · rw [live, live, take_append_of_le_length hle, take_take, Nat.min_self]
      · dsimp only
        omega
      · rw [hlen]
        dsimp only
        omega
      · rw [hlen]
        by_cases hone : s.growRate = 1
        · have hless := hfive hone
          have hcap := hones hone hzero
          omega
        · have hle := hroom hzero hone
          omega
      · intro hone
        have hle := hroom hzero hone
        dsimp only
        omega
      · intro hone
        have hcap := hones hone hzero
        dsimp only
        omega
    · rw [if_neg hgrow]
      refine ⟨s, rfl, rfl, rfl, rfl, rfl, hzero, hcapacity, by omega, ?_, fun hone =>
        hones hone hzero⟩
      intro _
      omega

theorem Holds.fewer {s t : StringArrayTables} {l l' : List CStr} (h : Holds s l)
    (hrate : t.growRate = s.growRate) (hcapacity : t.capacity = s.capacity)
    (hlength : t.lines.length = s.lines.length) (hle : t.elements ≤ s.elements)
    (hapart : Apart t.buf t.live) (hcontent : t.content = l') : Holds t l' where
  rate := hrate ▸ h.rate
  empty hzero := Nat.le_zero.mp (h.empty (hcapacity ▸ hzero) ▸ hle)
  capacity := by
    rw [hcapacity, hlength]
    exact h.capacity
  sized := by
    rw [hlength]
    exact Nat.le_trans hle h.sized
  room hne hrate' := by
    have hroom := h.room (hcapacity ▸ hne) (hrate ▸ hrate')
    omega
  ones hone hne := by
    rw [hcapacity]
    exact h.ones (hrate ▸ hone) (hcapacity ▸ hne)
  apart := hapart
  content := hcontent

theorem add_spec {s : StringArrayTables} {l : List CStr} (h : Holds s l) {str : CStr}
    (hsafe : s.Safe (.add str)) : ∃ t, s.add str = some t ∧ Holds t (Op.spec l (.add str)) := by
  obtain ⟨t, ht, hrate, helements, hbuf, hlive, hne, hcapacity, hlt, hroom, hones⟩ :=
    checkForGrow_spec h hsafe
  obtain ⟨data, hdata⟩ : ∃ data, data = StringArray.addLine str := ⟨_, rfl⟩
  have hlines : (t.lines.set s.elements ⟨s.buf.length, data.length⟩).take (s.elements + 1) =
      s.live ++ [⟨s.buf.length, data.length⟩] := by
    rw [set_eq_take_append_cons_drop, if_pos hlt, take_append,
      take_of_length_le (by rw [length_take]; omega), length_take,
      Nat.min_eq_left (by omega), Nat.add_sub_cancel_left, ← hlive, live, helements]
    rfl
  have hold : ∀ line ∈ s.live, text (s.buf ++ data ++ [0]) line = text s.buf line := by
    intro line hline
    have hin := h.apart.inside line hline
    apply text_congr
    intro i _ hi
    rw [append_assoc, getElem?_append_left (by omega)]
  refine ⟨{ t with
    lines := t.lines.set s.elements ⟨s.buf.length, data.length⟩
    elements := s.elements + 1
    buf := s.buf ++ data ++ [0] }, ?_, ?_⟩
  · rw [add, ht, ← hdata, Option.bind_eq_bind, Option.bind_some, helements, hbuf, if_pos hlt]
  · refine ⟨hrate ▸ h.rate, fun hzero => absurd hzero hne, by rwa [length_set], ?_, ?_, ?_,
      ⟨?_, ?_⟩, ?_⟩
    · rw [length_set]
      exact hlt
    · intro _ hone
      exact hroom (hrate ▸ hone)
    · intro hone _
      exact hones (hrate ▸ hone)
    · rw [live, hlines, pairwise_append]
      refine ⟨h.apart.apart, pairwise_singleton _ _, ?_⟩
      intro line hline next hnext
      rw [mem_singleton.mp hnext]
      exact h.apart.inside line hline
    · intro line hline
      rw [live, hlines] at hline
      rw [length_append, length_append, length_singleton]
      rcases mem_append.mp hline with hline | hline
      · have hin := h.apart.inside line hline
        omega
      · rw [mem_singleton.mp hline]
        exact Nat.lt_succ_self _
    · have hnew : text (s.buf ++ data ++ [0]) ⟨s.buf.length, data.length⟩ = data := by
        rw [text, append_assoc, drop_left, take_left]
      rw [content, live, hlines, map_append, map_singleton, hnew,
        map_congr_left hold, Op.spec, ← hdata, ← h.content, content]

theorem delete_spec {s : StringArrayTables} {l : List CStr} (h : Holds s l) {pos : Int}
    (hsafe : s.Safe (.deleteByPos pos)) :
    ∃ t, s.deleteByPos pos = some t ∧ Holds t (Op.spec l (.deleteByPos pos)) := by
  have hlength := h.length
  have hsized := h.sized
  rw [deleteByPos, Op.spec]
  by_cases hneg : pos < 0 ∨ (s.elements : Int) < pos
  · rw [if_pos hneg]
    refine ⟨s, rfl, ?_⟩
    by_cases hpos : 0 ≤ pos
    · rw [if_pos hpos, eraseIdx_of_length_le (by omega)]
      exact h
    · rw [if_neg hpos]
      exact h
  · obtain ⟨n, rfl⟩ : ∃ n : Nat, pos = n := ⟨pos.toNat, by omega⟩
    obtain ⟨hend, hmiddle⟩ := hsafe (by omega)
    rw [if_neg hneg, if_pos (show (0 : Int) ≤ n by omega), Int.toNat_natCast]
    have hat : n < s.lines.length := by
      by_cases heq : n = s.elements
      · have hlt := hend (by omega)
        omega
      · omega
    rw [getElem?_eq_getElem hat, Option.bind_eq_bind, Option.bind_some]
    by_cases hlast : s.elements = n + 1
    · -- the last one: its bytes are cleared
      rw [if_pos hlast]
      have hlive : s.live = s.lines.take n ++ [s.lines[n]] := by
        rw [live, hlast, take_succ_eq_append_getElem hat]
      have hapart := h.apart
      rw [hlive] at hapart
      have hin := hapart.inside _ (mem_append_right _ (mem_singleton.mpr rfl))
      have htake : s.lines.take (s.elements - 1) = s.lines.take n := by rw [hlast]; rfl
      have htext : ∀ line ∈ s.lines.take n, text (s.buf.take s.lines[n].place ++
          List.replicate s.lines[n].sz 0 ++ s.buf.drop (s.lines[n].place + s.lines[n].sz)) line =
          text s.buf line := by
        intro line hline
        have hlt := (pairwise_append.mp hapart.apart).2.2 line hline _
          (mem_singleton.mpr rfl)
        apply text_congr
        intro i _ hi
        rw [append_assoc, getElem?_append_left (by rw [length_take]; omega),
          getElem?_take_of_lt (by omega)]
      refine ⟨_, rfl, h.fewer rfl rfl rfl (Nat.sub_le _ _) ?_ ?_⟩
      · rw [live, htake]
        apply hapart.sublist (sublist_append_left _ _)
        simp only [length_append, length_take, length_replicate, length_drop]
        omega
      · rw [content, live, htake, map_congr_left htext, ← h.content, content, hlive,
          map_append, eraseIdx_append_of_length_le
            (by rw [length_map, length_take]; exact Nat.min_le_left _ _)]
        have hzero : n - ((s.lines.take n).map (text s.buf)).length = 0 := by
          rw [length_map, length_take]
          omega
        rw [hzero]
        simp
    · rw [if_neg hlast]
      by_cases heq : s.elements = n
      · rw [if_pos heq, eraseIdx_of_length_le (by omega)]
        exact ⟨s, rfl, h⟩
      · rw [if_neg heq]
        have hroom := hmiddle (by omega)
        obtain ⟨r, hr, hrlen, hrtake⟩ := @shift_spec 1 Nat.zero_lt_one (s.elements + 1 - n) n
          s.lines (by omega)
        have hlive : r.take (s.elements - 1) = s.live.eraseIdx n := by
          have hcut : r.take (s.elements - 1) = (r.take (n + (s.elements + 1 - n))).take
              (s.elements - 1) := by
            rw [take_take, Nat.min_eq_left (by omega)]
          rw [hcut, hrtake, live, eraseIdx_eq_take_drop_succ, take_append,
            take_of_length_le (by rw [length_take]; omega), length_take,
            Nat.min_eq_left (by omega), take_take, take_take, drop_take,
            Nat.min_eq_left (by omega), Nat.min_eq_left (by omega)]
          congr 2
          omega
        rw [hr]
        refine ⟨_, rfl, h.fewer rfl rfl hrlen (Nat.sub_le _ _) ?_ ?_⟩
        · rw [live, hlive]
          exact h.apart.sublist (eraseIdx_sublist _ _) rfl
        · rw [content, live, hlive, ← h.content, content, eraseIdx_eq_take_drop_succ,
            eraseIdx_eq_take_drop_succ, map_append, map_take, map_drop]

theorem implode_spec {s : StringArrayTables} {l : List CStr} (h : Holds s l) {delim : UInt8}
    {pos qnt : Int} (hsafe : s.Safe (.implodeByPos delim pos qnt)) :
    ∃ t, s.implodeByPos delim pos qnt = some t ∧
      Holds t (Op.spec l (.implodeByPos delim pos qnt)) := by
  have hlength := h.length
  have hsized := h.sized
  rw [implodeByPos, Op.spec, hlength]
  by_cases hout : pos < 0 ∨ (s.elements : Int) ≤ pos ∨ qnt ≤ 0 ∨ (s.elements : Int) - pos - 1 < qnt
  · rw [if_pos hout, if_neg (by omega)]
    exact ⟨s, rfl, h⟩
  · rw [if_neg hout, if_pos (by omega)]
    obtain ⟨n, rfl⟩ : ∃ n : Nat, pos = n := ⟨pos.toNat, by omega⟩
    obtain ⟨m, rfl⟩ : ∃ m : Nat, qnt = m := ⟨qnt.toNat, by omega⟩
    obtain ⟨hroom, hchain⟩ := hsafe (by omega) (by omega) (by omega)
    have hleft : ((s.elements : Int) - n - 1).toNat = s.elements - n - 1 := by omega
    simp only [Int.toNat_natCast, hleft] at hroom hchain ⊢
    -- the entries in front, the one that takes the others, those, and the ones behind
    obtain ⟨A, hA⟩ : ∃ A, A = s.live.take n := ⟨_, rfl⟩
    obtain ⟨X, hX⟩ : ∃ X, X = s.live.drop (n + m + 1) := ⟨_, rfl⟩
    obtain ⟨U, hU⟩ : ∃ U, U = s.lines.drop s.elements := ⟨_, rfl⟩
    have hlive : s.live.length = s.elements := by
      rw [live, length_take, Nat.min_eq_left hsized]
    obtain ⟨a, M, haM⟩ : ∃ a M, (s.live.drop n).take (m + 1) = a :: M := by
      apply exists_cons_of_length_pos
      rw [length_take, length_drop]
      omega
    have hM : M.length = m := by
      have hlen := congrArg List.length haM
      rw [length_take, length_drop, length_cons] at hlen
      omega
    have hAlen : A.length = n := by
      rw [hA, length_take]
      omega
    have hsplit : s.live = A ++ a :: (M ++ X) := by
      have hrest : s.live.drop n = a :: (M ++ X) := by
        rw [← cons_append, ← haM, hX, Nat.add_assoc, ← drop_drop, take_append_drop]
      rw [hA, ← hrest, take_append_drop]
    have hlines : s.lines = A ++ a :: ([] ++ (M ++ (X ++ U))) := by
      have hall : s.lines = s.live ++ U := by rw [live, hU, take_append_drop]
      rw [hall, hsplit]
      simp
    have hapart := h.apart
    rw [hsplit] at hapart
    rw [haM] at hchain
    obtain ⟨a', buf', hmerge, hapart', htextA, htextX, htext⟩ :=
      @merge_spec delim A X U M [] a s hlines hapart hchain
    rw [hAlen, hM, length_nil, Nat.add_zero] at hmerge
    have hlen' : (A ++ a' :: ([] ++ (M ++ (X ++ U)))).length = s.lines.length := by
      rw [hlines]
      simp
    have hXlen : X.length = s.elements - n - 1 - m := by
      rw [hX, length_drop]
      omega
    obtain ⟨r, hr, hrlen, hrtake⟩ := @shift_spec m (by omega) (s.elements - n - 1) (n + 1)
      (A ++ a' :: ([] ++ (M ++ (X ++ U)))) (by rw [hlen']; omega)
    have hnew : r.take (s.elements - m) = A ++ a' :: X := by
      have hcut : r.take (s.elements - m) =
          (r.take (n + 1 + (s.elements - n - 1))).take (s.elements - m) := by
        rw [take_take, Nat.min_eq_left (by omega)]
      have hfront : (A ++ a' :: ([] ++ (M ++ (X ++ U)))).take (n + 1) = A ++ [a'] := by
        have hcat : A ++ a' :: ([] ++ (M ++ (X ++ U))) = (A ++ [a']) ++ (M ++ (X ++ U)) := by simp
        rw [hcat, take_left' (by simp [hAlen])]
      have hback : (A ++ a' :: ([] ++ (M ++ (X ++ U)))).drop (n + 1 + m) = X ++ U := by
        have hcat : A ++ a' :: ([] ++ (M ++ (X ++ U))) = (A ++ a' :: M) ++ (X ++ U) := by simp
        rw [hcat, drop_left' (by simp [hAlen, hM]; omega)]
      have hcat : A ++ [a'] ++ (X ++ U).take (s.elements - n - 1) =
          (A ++ a' :: X) ++ U.take (s.elements - n - 1 - X.length) := by
        rw [take_append, take_of_length_le (by omega)]
        simp
      rw [hcut, hrtake, hfront, hback, hcat, take_left' (by simp [hAlen, hXlen]; omega)]
    have hcontent : l = A.map (text s.buf) ++ (text s.buf a :: (M.map (text s.buf) ++
        X.map (text s.buf))) := by
      rw [← h.content, content, hsplit]
      simp
    refine ⟨{ s with lines := r, elements := s.elements - m, buf := buf' }, ?_, ?_⟩
    · rw [hmerge, Option.bind_eq_bind, Option.bind_some]
      dsimp only
      rw [hr]
      rfl
    · refine h.fewer rfl rfl (hrlen.trans hlen') (Nat.sub_le _ _) ?_ ?_
      · rw [live, hnew]
        exact hapart'
      · have htake : l.take n = A.map (text s.buf) := by
          rw [hcontent, take_left' (by rw [length_map, hAlen])]
        have hdrop : l.drop n = (a :: M).map (text s.buf) ++ X.map (text s.buf) := by
          rw [hcontent, drop_left' (by rw [length_map, hAlen])]
          rfl
        have hmany : ((a :: M).map (text s.buf)).length = m + 1 := by
          rw [length_map, length_cons, hM]
        rw [content, live, hnew, map_append, map_cons, htextA, htextX, htext, htake,
          hdrop, take_left' hmany, Nat.add_assoc, ← drop_drop, hdrop,
          drop_left' hmany]

theorem step_spec {s : StringArrayTables} {l : List CStr} (h : Holds s l) {op : Op}
    (hsafe : s.Safe op) : ∃ t, s.step op = some t ∧ Holds t (Op.spec l op) := by
  cases op with
  | add str => exact add_spec h hsafe
  | deleteByPos pos => exact delete_spec h hsafe
  | implodeByPos delim pos qnt => exact implode_spec h hsafe

theorem run_spec {ops : List Op} : ∀ {s : StringArrayTables} {l : List CStr}, Holds s l →
    AllSafe s ops → ∃ t, s.run ops = some t ∧ Holds t (ops.foldl Op.spec l) := by
  induction ops with
  | nil =>
    intro s l h _
    exact ⟨s, rfl, h⟩
  | cons op ops ih =>
    intro s l h hsafe
    obtain ⟨t, ht, hnext⟩ := step_spec h hsafe.1
    obtain ⟨u, hu, hlast⟩ := ih hnext (hsafe.2 t ht)
    exact ⟨u, by rw [run, ht]; exact hu, hlast⟩

theorem holds_new (growRate : Nat) : Holds (new growRate) [] where
  rate := by
    rw [new]
    by_cases h : growRate = 0
    · simp [h]
    · simp [h]
  empty _ := rfl
  capacity := Nat.le_refl 0
  sized := Nat.le_refl 0
  room h := absurd rfl h
  ones _ h := absurd rfl h
  apart := ⟨.nil, by simp [live, new]⟩
  content := rfl

end StringArrayTables

end BrbData
