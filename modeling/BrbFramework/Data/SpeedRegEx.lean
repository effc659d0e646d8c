import Mathlib.Data.List.Infix
import Mathlib.Algebra.GroupWithZero.Nat
import BrbFramework.Lib.Machine
import BrbFramework.Data.StringArrayWalk

/-!
# Speed regular expressions

A pattern is the list of the pieces between its stars. A text is looked through piece by
piece, from an offset on that grows by the length of each piece and not to where the piece was
found: with a piece between two stars in front of another one, texts are taken for others.
-/

namespace BrbData

open CStr StringArray Machine List

/-- `SpeedRegexOrder`. -/
inductive SpeedRegexOrder where
  | sense
  | insense
  deriving DecidableEq, Repr

structure SpeedRegEx where
  matchElemArr : List CStr
  orderMatch : SpeedRegexOrder
  wantsBeginWith : Bool
  wantsFinishWith : Bool
  deriving DecidableEq, Repr

namespace SpeedRegEx

abbrev star : UInt8 := '*'.toUInt8

/-- The elements without an empty one at the end and an empty one at the front. -/
def elems (arr : List CStr) (first last : CStr) : List CStr :=
  let kept := if 0 < last.length then arr else arr.dropLast
  if 0 < first.length then kept else kept.drop 1

/-- `SpeedRegExCompile`, which reads the tables of the array: they are there once something was
added to it. -/
def compile (speedRegex : CStr) (orderMatch : SpeedRegexOrder) : Option SpeedRegEx :=
  let arr := explodeStrN speedRegex [star] (some ['\\'.toUInt8]) none (-1)
  match arr.head?, arr.getLast? with
  | some first, some last => some {
      matchElemArr := elems arr first last
      orderMatch
      wantsBeginWith := decide (0 < first.length)
      wantsFinishWith := decide (0 < last.length) }
  | _, _ => none

/-- `strstr`, as an offset. -/
def strstr : CStr → CStr → Option Nat
  | [], str => if str.isEmpty then some 0 else none
  | b :: data, str =>
    if str.isPrefixOf (b :: data) then some 0 else (strstr data str).map (· + 1)

/-- The loop of `SpeedRegExExecute` over the pieces: the positions of all, nothing where it
returns before, and a failure where it reads in front of the text. -/
def matchLoop (wantsBeginWith wantsFinishWith : Bool) (data : CStr) :
    Bool → Nat → List CStr → Option (Option (List Nat))
  | _, _, [] => some (some [])
  | first, curDataOff, regstr :: rest =>
    -- `data_sz` is an `int`
    let offset := int32 data.length - regstr.length
    if wantsBeginWith && first && !strncmpEq regstr data regstr.length then some none
    else if wantsFinishWith && rest.isEmpty && decide (offset < 0) then none
    else if wantsFinishWith && rest.isEmpty &&
        !strncmpEq regstr (data.drop offset.toNat) regstr.length then some none
    else
      match strstr (data.drop curDataOff) regstr with
      | none => some none
      | some i =>
        (matchLoop wantsBeginWith wantsFinishWith data false (curDataOff + regstr.length) rest).map
          (Option.map ((curDataOff + i) :: ·))

/-- Whether no position is in front of the one before. -/
def ordered : List Nat → Bool
  | before :: pos :: rest => !decide (pos < before) && ordered (pos :: rest)
  | _ => true

/-- `SpeedRegExExecute`. -/
def execute (speedreg : SpeedRegEx) (data : CStr) : Option Bool :=
  (matchLoop speedreg.wantsBeginWith speedreg.wantsFinishWith data true 0
    speedreg.matchElemArr).map fun matchPos =>
      match matchPos, speedreg.orderMatch with
      | none, _ => false
      | some matchPos, .sense => ordered matchPos
      | some _, .insense => true

/-- The texts that a pattern stands for: a star for any bytes, another byte for itself. -/
def Glob : CStr → CStr → Prop
  | [], text => text = []
  | c :: pattern, text =>
    if c = star then ∃ front rest, text = front ++ rest ∧ Glob pattern rest
    else ∃ rest, text = c :: rest ∧ Glob pattern rest

/-- For each text the answer is whether the pattern stands for it. -/
def Agrees (pattern : CStr) : Prop :=
  ∀ text, 0 ∉ text → ∃ answer, (compile pattern .sense).bind (execute · text) = some answer ∧
    (answer = true ↔ Glob pattern text)

/-- Two literals at most, the second between stars of which one is behind it. -/
def Simple (pattern : CStr) : Prop :=
  ∃ p q : CStr, ∃ k : Nat, star ∉ p ∧ star ∉ q ∧ p.charAt 0 ≠ 1 ∧ q.charAt 0 ≠ 1 ∧
    (pattern = p ++ [star] ∨ pattern = p ++ List.replicate (k + 1) star ++ (q ++ [star]))

/-- What of a pattern is exploded: a line with its end. -/
abbrev seen (pattern : CStr) : CStr := pattern.take (memBufferMaxPrintf - 1)

/-! ## Finding a piece -/

theorem strstr_prefix {data str : CStr} : ∀ {i : Nat}, strstr data str = some i →
    str <+: data.drop i := by
  induction data with
  | nil =>
    intro i h
    rw [strstr] at h
    by_cases hstr : str.isEmpty = true
    · rw [List.isEmpty_iff.mp hstr]
      exact nil_prefix
    · rw [if_neg hstr] at h
      cases h
  | cons b data ih =>
    intro i h
    rw [strstr] at h
    by_cases hstr : str.isPrefixOf (b :: data) = true
    · rw [if_pos hstr] at h
      obtain rfl := Option.some_inj.mp h
      exact isPrefixOf_iff_prefix.mp hstr
    · rw [if_neg hstr] at h
      obtain ⟨j, hj, rfl⟩ := Option.map_eq_some_iff.mp h
      exact ih hj

theorem strstr_le {data str : CStr} : ∀ {j : Nat}, j ≤ data.length → str <+: data.drop j →
    ∃ i, strstr data str = some i ∧ i ≤ j := by
  induction data with
  | nil =>
    intro j hj h
    have hnil : str = [] := eq_nil_of_prefix_nil (by simpa using h)
    exact ⟨0, by rw [hnil]; rfl, Nat.zero_le j⟩
  | cons b data ih =>
    intro j hj h
    rw [strstr]
    by_cases hstr : str.isPrefixOf (b :: data) = true
    · exact ⟨0, by rw [if_pos hstr], Nat.zero_le j⟩
    · rw [if_neg hstr]
      cases j with
      | zero => exact absurd ( isPrefixOf_iff_prefix.mpr h) hstr
      | succ j =>
        obtain ⟨i, hi, hle⟩ := ih (Nat.le_of_succ_le_succ hj) h
        exact ⟨i + 1, by rw [hi]; rfl, Nat.succ_le_succ hle⟩

theorem ordered_iff (l : List Nat) : ordered l = true ↔ l.Pairwise (· ≤ ·) := by
  induction l with
  | nil => simp [ordered]
  | cons a l ih =>
    cases l with
    | nil => simp [ordered]
    | cons b l =>
      rw [ordered, Bool.and_eq_true, ih, @pairwise_cons _ _ a, forall_mem_cons]
      simp only [Bool.not_eq_true', decide_eq_false_iff_not, Nat.not_lt]
      constructor
      · intro h
        exact ⟨⟨h.1, fun c hc => Nat.le_trans h.1 (rel_of_pairwise_cons h.2 hc)⟩, h.2⟩
      · intro h
        exact ⟨h.1.1, h.2⟩

/-- The positions at which the pieces are found, each from behind as many bytes on as the pieces
in front of it have. -/
inductive Found (data : CStr) : Nat → List CStr → List Nat → Prop
  | nil {cur : Nat} : Found data cur [] []
  | cons {cur i : Nat} {r : CStr} {l : List CStr} {ms : List Nat} :
      strstr (data.drop cur) r = some i → Found data (cur + r.length) l ms →
      Found data cur (r :: l) ((cur + i) :: ms)

theorem found_append {data : CStr} {A B : List CStr} : ∀ {cur : Nat} {ms : List Nat},
    Found data cur (A ++ B) ms ↔ ∃ front rest, ms = front ++ rest ∧ Found data cur A front ∧
      Found data (cur + A.flatten.length) B rest := by
  induction A with
  | nil =>
    intro cur ms
    constructor
    · intro h
      exact ⟨[], ms, rfl, .nil, h⟩
    · rintro ⟨front, rest, rfl, hA, hB⟩
      cases hA
      exact hB
  | cons r A ih =>
    intro cur ms
    have hlen : cur + (r :: A).flatten.length = cur + r.length + A.flatten.length := by
      rw [flatten_cons, length_append, Nat.add_assoc]
    rw [hlen]
    constructor
    · intro h
      cases h with
      | cons hr hl =>
        obtain ⟨front, rest, rfl, hA, hB⟩ := ih.mp hl
        exact ⟨_ :: front, rest, rfl, .cons hr hA, hB⟩
    · rintro ⟨front, rest, rfl, hA, hB⟩
      cases hA with
      | cons hr hA => exact .cons hr (ih.mpr ⟨_, _, rfl, hA, hB⟩)

theorem found_exact {data : CStr} {A : List CStr} : ∀ {cur : Nat}, cur ≤ data.length →
    A.flatten <+: data.drop cur → ∃ ms, Found data cur A ms ∧ ms.Pairwise (· ≤ ·) ∧
      ∀ m ∈ ms, cur ≤ m ∧ m ≤ cur + A.flatten.length := by
  induction A with
  | nil =>
    intro cur _ _
    exact ⟨[], .nil, .nil, by simp⟩
  | cons r A ih =>
    intro cur hcur h
    rw [flatten_cons] at h
    have hr : r <+: data.drop cur := (prefix_append r _).trans h
    obtain ⟨i, hi, hle⟩ := strstr_le (Nat.zero_le _) hr
    obtain rfl := Nat.le_zero.mp hle
    have hlen := hr.length_le
    rw [length_drop] at hlen
    have hrest : A.flatten <+: data.drop (cur + r.length) := by
      obtain ⟨w, hw⟩ := h
      refine ⟨w, ?_⟩
      rw [← drop_drop, ← hw, append_assoc, drop_left]
    obtain ⟨ms, hms, hsorted, hbounds⟩ := ih (by omega) hrest
    refine ⟨(cur + 0) :: ms, .cons hi hms, pairwise_cons.mpr ⟨?_, hsorted⟩, ?_⟩
    · intro m hm
      have hm' := hbounds m hm
      omega
    · intro m hm
      rw [flatten_cons, length_append]
      rcases mem_cons.mp hm with rfl | hm
      · omega
      · have hm' := hbounds m hm
        omega

/-! ## The loop -/

section Loop

variable {wb wf : Bool} {data : CStr}

/-- What the loop asks of the first and of the last piece. -/
def Anchored (wb wf first : Bool) (data : CStr) (l : List CStr) : Prop :=
  (wb = true → first = true → ∀ r, l.head? = some r → r <+: data) ∧
    (wf = true → ∀ r, l.getLast? = some r → (r.length : Int) ≤ int32 data.length ∧
      r <+: data.drop (int32 data.length - r.length).toNat)

theorem matchLoop_eq_some {l : List CStr} : ∀ {first : Bool} {cur : Nat} {ms : List Nat},
    (∀ r ∈ l, 0 ∉ r) → (matchLoop wb wf data first cur l = some (some ms) ↔
      Found data cur l ms ∧ Anchored wb wf first data l) := by
  induction l with
  | nil =>
    intro first cur ms _
    rw [matchLoop]
    constructor
    · intro h
      obtain rfl : [] = ms := by simpa using h
      exact ⟨.nil, by simp [Anchored]⟩
    · intro h
      cases h.1
      rfl
  | cons r l ih =>
    intro first cur ms hzero
    obtain ⟨hr, hl⟩ := forall_mem_cons.mp hzero
    -- the tests in front of the search are what is asked of this piece
    have hfirst : (wb && first && !strncmpEq r data r.length) = true ↔
        ¬ (wb = true → first = true → r <+: data) := by
      rw [← strncmpEq_iff hr data]
      cases wb <;> cases first <;> simp
    have hlast : ((wf && l.isEmpty && decide (int32 data.length - r.length < 0)) = true ∨
        (wf && l.isEmpty && !strncmpEq r (data.drop (int32 data.length - r.length).toNat)
          r.length) = true) ↔
        ¬ (wf = true → l = [] → (r.length : Int) ≤ int32 data.length ∧
          r <+: data.drop (int32 data.length - r.length).toNat) := by
      rw [← strncmpEq_iff hr (data.drop _), ← List.isEmpty_iff (l := l)]
      have hneg : decide (int32 data.length - r.length < 0) = !decide ((r.length : Int) ≤
          int32 data.length) := by
        rw [← decide_not, decide_eq_decide]
        omega
      rw [hneg]
      by_cases hle : (r.length : Int) ≤ int32 data.length <;> cases wf <;> cases l.isEmpty <;>
        simp [hle]
    have hanchored : Anchored wb wf first data (r :: l) ↔
        (wb = true → first = true → r <+: data) ∧
        (wf = true → l = [] → (r.length : Int) ≤ int32 data.length ∧
          r <+: data.drop (int32 data.length - r.length).toNat) ∧ Anchored wb wf false data l := by
      cases l with
      | nil => simp [Anchored]
      | cons x l => simp [Anchored, getLast?_cons_cons]
    rw [matchLoop, hanchored]
    by_cases hb : wb = true → first = true → r <+: data
    · rw [if_neg (mt hfirst.mp (not_not.mpr hb))]
      by_cases hf : wf = true → l = [] → (r.length : Int) ≤ int32 data.length ∧
          r <+: data.drop (int32 data.length - r.length).toNat
      · obtain ⟨h₁, h₂⟩ := not_or.mp (mt hlast.mp (not_not.mpr hf))
        rw [if_neg h₁, if_neg h₂]
        constructor
        · intro h
          cases hi : strstr (data.drop cur) r with
          | none => simp [hi] at h
          | some i =>
            simp only [hi, Option.map_eq_some_iff] at h
            obtain ⟨_, hrest, ms', rfl, rfl⟩ := h
            obtain ⟨hfound, hanch⟩ := (ih hl).mp hrest
            exact ⟨.cons hi hfound, hb, hf, hanch⟩
        · rintro ⟨hfound, _, _, hanch⟩
          cases hfound with
          | cons hi hfound =>
            simp only [hi, (ih hl).mpr ⟨hfound, hanch⟩, Option.map_some]
      · have hstop : ∀ t : Option (Option (List Nat)),
            (if wf && l.isEmpty && decide (int32 data.length - r.length < 0) then none
              else if wf && l.isEmpty && !strncmpEq r
                (data.drop (int32 data.length - r.length).toNat) r.length then some none
              else t) ≠ some (some ms) := by
          intro t
          rcases hlast.mpr hf with h | h
          · rw [if_pos h]
            simp
          · rw [if_pos h]
            split <;> simp
        constructor
        · intro h
          exact absurd h (hstop _)
        · intro h
          exact absurd h.2.2.1 hf
    · rw [if_pos (hfirst.mpr hb)]
      constructor
      · intro h
        cases h
      · intro h
        exact absurd h.2.1 hb

theorem matchLoop_total {l : List CStr} : ∀ {first : Bool} {cur : Nat},
    ∃ r, matchLoop wb false data first cur l = some r := by
  induction l with
  | nil =>
    intro first cur
    exact ⟨some [], rfl⟩
  | cons r l ih =>
    intro first cur
    rw [matchLoop]
    simp only [Bool.false_and, Bool.false_eq_true, if_false]
    split
    · exact ⟨none, rfl⟩
    · cases strstr (data.drop cur) r with
      | none => exact ⟨none, rfl⟩
      | some i =>
        obtain ⟨t, ht⟩ := @ih false (cur + r.length)
        exact ⟨_, by rw [ht]; rfl⟩

/-- What the pieces are to be for the answer to be a match. -/
def Accepts (wb wf : Bool) (l : List CStr) (data : CStr) : Prop :=
  ∃ ms, Found data 0 l ms ∧ ms.Pairwise (· ≤ ·) ∧ Anchored wb wf true data l

theorem execute_eq_true {l : List CStr} (h : ∀ r ∈ l, 0 ∉ r) :
    execute ⟨l, .sense, wb, wf⟩ data = some true ↔ Accepts wb wf l data := by
  rw [execute]
  constructor
  · intro hrun
    obtain ⟨r, hr, htrue⟩ := Option.map_eq_some_iff.mp hrun
    cases r with
    | none => cases htrue
    | some ms =>
      obtain ⟨hfound, hanch⟩ := (matchLoop_eq_some h).mp hr
      exact ⟨ms, hfound, (ordered_iff ms).mp htrue, hanch⟩
  · rintro ⟨ms, hfound, hsorted, hanch⟩
    rw [(matchLoop_eq_some h).mpr ⟨hfound, hanch⟩]
    exact congrArg some ((ordered_iff ms).mpr hsorted)

end Loop

/-! ## What a pattern stands for -/

def literal (pattern : CStr) : CStr := pattern.filter (· ≠ star)

theorem glob_literal {p : CStr} (hp : star ∉ p) (pattern : CStr) : ∀ text : CStr,
    Glob (p ++ pattern) text ↔ ∃ rest, text = p ++ rest ∧ Glob pattern rest := by
  induction p with
  | nil => simp
  | cons c p ih =>
    intro text
    obtain ⟨hc, hp⟩ := not_or.mp (mem_cons.not.mp hp)
    rw [cons_append, Glob, if_neg (Ne.symm hc)]
    constructor
    · rintro ⟨_, rfl, h⟩
      obtain ⟨rest, rfl, hrest⟩ := (ih hp _).mp h
      exact ⟨rest, rfl, hrest⟩
    · rintro ⟨rest, rfl, h⟩
      exact ⟨p ++ rest, rfl, (ih hp _).mpr ⟨rest, rfl, h⟩⟩

theorem glob_stars (k : Nat) (pattern : CStr) : ∀ text : CStr,
    Glob (List.replicate (k + 1) star ++ pattern) text ↔
      ∃ front rest, text = front ++ rest ∧ Glob pattern rest := by
  induction k with
  | zero =>
    intro text
    rw [replicate_one, singleton_append, Glob, if_pos rfl]
  | succ k ih =>
    intro text
    rw [replicate_succ, cons_append, Glob, if_pos rfl]
    constructor
    · rintro ⟨front, _, rfl, h⟩
      obtain ⟨middle, rest, rfl, hrest⟩ := (ih _).mp h
      exact ⟨front ++ middle, rest, (append_assoc _ _ _).symm, hrest⟩
    · rintro ⟨front, rest, rfl, h⟩
      exact ⟨[], front ++ rest, rfl, (ih _).mpr ⟨front, rest, rfl, h⟩⟩

theorem glob_append {a b t₂ : CStr} (h₂ : Glob b t₂) : ∀ {t₁ : CStr}, Glob a t₁ →
    Glob (a ++ b) (t₁ ++ t₂) := by
  induction a with
  | nil =>
    intro t₁ h
    obtain rfl : t₁ = [] := h
    exact h₂
  | cons c a ih =>
    intro t₁ h
    rw [Glob] at h
    rw [cons_append, Glob]
    by_cases hc : c = star
    · rw [if_pos hc] at h ⊢
      obtain ⟨front, rest, rfl, h⟩ := h
      exact ⟨front, rest ++ t₂, append_assoc _ _ _, ih h⟩
    · rw [if_neg hc] at h ⊢
      obtain ⟨rest, rfl, h⟩ := h
      exact ⟨rest ++ t₂, rfl, ih h⟩

theorem glob_self (pattern : CStr) : Glob pattern (literal pattern) := by
  induction pattern with
  | nil => rfl
  | cons c pattern ih =>
    rw [Glob]
    by_cases hc : c = star
    · rw [if_pos hc]
      exact ⟨[], literal pattern, by simp [literal, hc], ih⟩
    · rw [if_neg hc]
      exact ⟨literal pattern, by simp [literal, hc], ih⟩

theorem literal_le {pattern : CStr} : ∀ {text : CStr}, Glob pattern text →
    (literal pattern).length ≤ text.length ∧
      (text.length = (literal pattern).length → text = literal pattern) := by
  induction pattern with
  | nil =>
    intro text h
    obtain rfl : text = [] := h
    exact ⟨Nat.le_refl _, fun _ => rfl⟩
  | cons c pattern ih =>
    intro text h
    rw [Glob] at h
    by_cases hc : c = star
    · rw [if_pos hc] at h
      obtain ⟨front, rest, rfl, h⟩ := h
      have hlit : literal (c :: pattern) = literal pattern := by simp [literal, hc]
      obtain ⟨hle, heq⟩ := ih h
      rw [hlit, length_append]
      refine ⟨by omega, fun hlen => ?_⟩
      obtain rfl : front = [] := length_eq_zero_iff.mp (by omega)
      exact heq (by simpa using hlen)
    · rw [if_neg hc] at h
      obtain ⟨rest, rfl, h⟩ := h
      have hlit : literal (c :: pattern) = c :: literal pattern := by simp [literal, hc]
      obtain ⟨hle, heq⟩ := ih h
      rw [hlit, length_cons, length_cons]
      exact ⟨by omega, fun hlen => by rw [heq (by omega)]⟩

/-! ## The pieces of a pattern -/

theorem flatten_bytePieces (rest : CStr) : ∀ piece : CStr,
    (bytePieces star piece rest).flatten = piece ++ literal rest := by
  induction rest with
  | nil =>
    intro piece
    simp [bytePieces, literal]
  | cons b rest ih =>
    intro piece
    rw [bytePieces]
    by_cases hb : b = star
    · rw [if_pos hb, flatten_cons, ih]
      simp [literal, hb]
    · rw [if_neg hb, ih]
      simp [literal, hb]

/-- The elements of the array that a pattern is exploded to: those that begin with the byte 1,
which stands for a comment, are left out. -/
def pieces (pattern : CStr) : List CStr :=
  if star ∈ seen pattern then
    (bytePieces star [] (seen pattern)).filter fun x => decide (x.charAt 0 ≠ 1)
  else [seen pattern]

theorem walk_eq_pieces {e : UInt8} (rest : CStr) : ∀ (prev : Option UInt8) (piece : CStr)
    (found : Bool), 0 ∉ piece ++ rest → e ∉ piece ++ rest → prev ≠ some e →
    (prev = none → piece = [] ∧ found = false) → (piece ++ rest).length ≤ maxArrLineSz →
    walk (isByte star) e 1 addLine prev piece false found rest =
      if found = true ∨ star ∈ rest then
        (bytePieces star piece rest).filter fun x => decide (x.charAt 0 ≠ 1)
      else [piece ++ rest] := by
  induction rest with
  | nil =>
    intro prev piece found hzero he _ _ hlen
    rw [append_nil] at hzero he hlen
    rw [walk, append_nil]
    cases found with
    | false => simp
    | true =>
      have hfilter : unescapeString piece e = piece := by
        rw [unescapeString_eq hzero, filter_eq_self]
        intro b hb
        have hne : b ≠ e := fun heq => he (heq ▸ hb)
        simpa using hne
      rw [hfilter, ite_self, addLine_eq hzero hlen]
      by_cases hone : piece.charAt 0 = 1 <;> simp [bytePieces, hone]
  | cons b rest ih =>
    intro prev piece found hzero he hprev hfirst hlen
    have hzero' : 0 ∉ piece ∧ 0 ∉ rest := by
      simp only [mem_append, mem_cons, not_or] at hzero
      exact ⟨hzero.1, hzero.2.2⟩
    have he' : b ≠ e ∧ e ∉ rest := by
      simp only [mem_append, mem_cons, not_or] at he
      exact ⟨Ne.symm he.2.1, he.2.2⟩
    have hb : some b ≠ some e := fun heq => he'.1 (Option.some_inj.mp heq)
    rw [length_append, length_cons] at hlen
    rw [walk, bytePieces]
    by_cases hs : b = star
    · have htoken : isByte star (b :: rest) = true := by simp [isByte, hs]
      have hall := ih (some b) [] true hzero'.2 he'.2 hb (by simp)
        (by rw [nil_append]; omega)
      rw [if_pos (Or.inl rfl)] at hall
      have hmem : found = true ∨ star ∈ b :: rest := .inr (by simp [hs])
      rw [if_pos htoken, if_pos hs, if_pos hmem]
      cases prev with
      | none =>
        obtain ⟨rfl, _⟩ := hfirst rfl
        rw [if_pos rfl, hall, filter_cons_of_pos (by decide)]
      | some q =>
        rw [if_neg (by simp), if_neg hprev, hall]
        by_cases hone : piece.charAt 0 = 1
        · rw [if_pos hone, filter_cons_of_neg (by simp [hone])]
        · rw [if_neg hone, filter_cons_of_pos (by simp [hone])]
          simp only [Bool.false_eq_true, if_false]
          rw [addLine_eq hzero'.1 (by omega)]
    · have htoken : ¬ isByte star (b :: rest) = true := by simp [isByte, hs]
      have hall := ih (some b) (piece ++ [b]) found (by simpa using hzero) (by simpa using he) hb
        (by simp) (by simp only [length_append, length_singleton]; omega)
      have hmem : star ∈ b :: rest ↔ star ∈ rest := by simp [Ne.symm hs]
      rw [if_neg htoken, if_neg hs, hall]
      simp only [hmem, append_assoc, singleton_append]

section Compile

variable {pattern : CStr}

theorem explode_eq (hzero : 0 ∉ pattern) (hslash : '\\'.toUInt8 ∉ pattern) :
    explodeStrN pattern [star] (some ['\\'.toUInt8]) none (-1) = pieces pattern := by
  have hsub : seen pattern ⊆ pattern := take_subset _ _
  have hlen : (seen pattern).length ≤ maxArrLineSz := by
    rw [length_take]
    exact Nat.le_trans (Nat.min_le_left _ _) (by decide)
  have hwalk := walk_eq_pieces (seen pattern) none [] false (mt (@hsub 0) hzero)
    (mt (@hsub ('\\'.toUInt8)) hslash) (by simp) (fun _ => ⟨rfl, rfl⟩) hlen
  simp only [Bool.false_eq_true, false_or, nil_append] at hwalk
  rw [explodeStrN_eq_walk hzero, pieces]
  exact hwalk

theorem flatten_elems {arr : List CStr} {first last : CStr} (hfirst : arr.head? = some first)
    (hlast : arr.getLast? = some last) : (elems arr first last).flatten = arr.flatten := by
  have hkept : (if 0 < last.length then arr else arr.dropLast).flatten = arr.flatten := by
    by_cases h : 0 < last.length
    · rw [if_pos h]
    · obtain rfl : last = [] := length_eq_zero_iff.mp (by omega)
      obtain ⟨front, rfl⟩ := getLast?_eq_some_iff.mp hlast
      simp
  rw [elems, ← hkept]
  by_cases h : 0 < first.length
  · rw [if_pos h]
  · obtain rfl : first = [] := length_eq_zero_iff.mp (by omega)
    obtain ⟨rest, rfl⟩ := head?_eq_some_iff.mp hfirst
    rw [if_neg h]
    by_cases hl : 0 < last.length
    · rw [if_pos hl]
      simp
    · rw [if_neg hl]
      cases rest <;> simp

theorem getLast?_elems {arr : List CStr} {first last : CStr} (hfirst : arr.head? = some first)
    (hlast : arr.getLast? = some last) (hne : last ≠ []) :
    (elems arr first last).getLast? = some last := by
  rw [elems, if_pos (length_pos_iff.mpr hne)]
  by_cases h : 0 < first.length
  · rwa [if_pos h]
  · obtain rfl : first = [] := length_eq_zero_iff.mp (by omega)
    obtain ⟨rest, rfl⟩ := head?_eq_some_iff.mp hfirst
    rw [if_neg h]
    cases rest with
    | nil => exact absurd (Option.some_inj.mp hlast).symm hne
    | cons x rest => exact hlast

theorem notMem_pieces {c : UInt8} (h : c ∉ pattern) : ∀ x ∈ pieces pattern, c ∉ x := by
  have hseen : c ∉ seen pattern := mt (@take_subset _ _ _ c) h
  intro x hx hc
  rw [pieces] at hx
  by_cases hs : star ∈ seen pattern
  · rw [if_pos hs] at hx
    have hflat : c ∈ (bytePieces star [] (seen pattern)).flatten :=
      mem_flatten.mpr ⟨x, mem_of_mem_filter hx, hc⟩
    rw [flatten_bytePieces, nil_append, literal] at hflat
    exact hseen (mem_of_mem_filter hflat)
  · rw [if_neg hs] at hx
    exact hseen (mem_singleton.mp hx ▸ hc)

theorem mem_elems {arr : List CStr} {first last x : CStr} (h : x ∈ elems arr first last) :
    x ∈ arr := by
  have hkept : ∀ y ∈ (if 0 < last.length then arr else arr.dropLast), y ∈ arr := by
    intro y hy
    by_cases hl : 0 < last.length
    · rwa [if_pos hl] at hy
    · rw [if_neg hl] at hy
      exact mem_of_mem_dropLast hy
  rw [elems] at h
  by_cases hf : 0 < first.length
  · rw [if_pos hf] at h
    exact hkept x h
  · rw [if_neg hf] at h
    exact hkept x (mem_of_mem_drop h)

theorem compile_eq (hzero : 0 ∉ pattern) (hslash : '\\'.toUInt8 ∉ pattern) {first last : CStr}
    (hfirst : (pieces pattern).head? = some first)
    (hlast : (pieces pattern).getLast? = some last) :
    compile pattern .sense = some ⟨elems (pieces pattern) first last, .sense,
      decide (0 < first.length), decide (0 < last.length)⟩ := by
  simp only [compile, explode_eq hzero hslash, hfirst, hlast]

theorem Agrees.accepts (h : Agrees pattern) (hzero : 0 ∉ pattern)
    (hslash : '\\'.toUInt8 ∉ pattern) : ∃ first last, (pieces pattern).head? = some first ∧
      (pieces pattern).getLast? = some last ∧ ∀ text, 0 ∉ text →
        (Accepts (decide (0 < first.length)) (decide (0 < last.length))
          (elems (pieces pattern) first last) text ↔ Glob pattern text) := by
  cases harr : pieces pattern with
  | nil =>
    obtain ⟨answer, hrun, _⟩ := h [] (by simp)
    simp only [compile, explode_eq hzero hslash, harr] at hrun
    cases hrun
  | cons first rest =>
    have hlast := getLast?_eq_some_getLast (cons_ne_nil first rest)
    refine ⟨first, _, rfl, hlast, ?_⟩
    intro text htext
    obtain ⟨answer, hrun, hanswer⟩ := h text htext
    rw [compile_eq hzero hslash (by rw [harr]; rfl) (by rw [harr]; exact hlast), Option.bind_some,
      harr] at hrun
    have helems : ∀ r ∈ elems (first :: rest) first ((first :: rest).getLast (by simp)), 0 ∉ r :=
      fun r hr => notMem_pieces hzero r (harr ▸ mem_elems hr)
    rw [← hanswer, ← execute_eq_true helems, hrun]
    simp

end Compile

/-! ## Patterns with which it goes wrong -/

theorem literal_append (a b : CStr) : literal (a ++ b) = literal a ++ literal b :=
  filter_append a b

theorem literal_of_notMem {p : CStr} (h : star ∉ p) : literal p = p := by
  rw [literal, filter_eq_self]
  intro b hb
  have hne : b ≠ star := fun heq => h (heq ▸ hb)
  simpa using hne

theorem literal_cons_star (l : CStr) : literal (star :: l) = literal l :=
  filter_cons_of_neg (by simp)

theorem literal_stars (n : Nat) : literal (List.replicate n star) = [] := by
  simp [literal]

theorem star_notMem_literal (pattern : CStr) : star ∉ literal pattern := by
  simp [literal]

theorem length_filter_flatten (f : CStr → Bool) (l : List CStr) :
    (l.filter f).flatten.length ≤ l.flatten.length ∧
      ((l.filter f).flatten.length = l.flatten.length → ∀ x ∈ l, x ≠ [] → f x = true) := by
  induction l with
  | nil => simp
  | cons x l ih =>
    by_cases hx : f x = true
    · rw [filter_cons_of_pos hx, flatten_cons, flatten_cons, length_append,
        length_append]
      refine ⟨by omega, fun heq => ?_⟩
      exact forall_mem_cons.mpr ⟨fun _ => hx, ih.2 (by omega)⟩
    · rw [filter_cons_of_neg hx, flatten_cons, length_append]
      refine ⟨by omega, fun heq => ?_⟩
      obtain rfl : x = [] := length_eq_zero_iff.mp (by omega)
      refine forall_mem_cons.mpr ⟨fun h => absurd rfl h, ih.2 ?_⟩
      rwa [length_nil, Nat.zero_add] at heq

theorem accepts_flatten {wb wf : Bool} {l : List CStr} (hlen : l.flatten.length < 2 ^ 31) :
    Accepts wb wf l l.flatten := by
  obtain ⟨ms, hms, hsorted, _⟩ :=
    @found_exact l.flatten l 0 (Nat.zero_le _) (by rw [drop_zero])
  refine ⟨ms, hms, hsorted, ?_, ?_⟩
  · intro _ _ r hr
    obtain ⟨rest, rfl⟩ := head?_eq_some_iff.mp hr
    exact prefix_append r _
  · intro _ r hr
    obtain ⟨front, rfl⟩ := getLast?_eq_some_iff.mp hr
    have hflat : (front ++ [r]).flatten = front.flatten ++ r := by simp
    rw [hflat, length_append] at hlen
    rw [hflat, length_append, int32_of_lt (by omega) (by omega)]
    have hoff : (((front.flatten.length + r.length : Nat) : Int) - r.length).toNat =
        front.flatten.length := by omega
    rw [hoff, drop_left]
    exact ⟨by omega, prefix_rfl⟩

theorem int32_negative {x : Int} (hlow : 2147483648 ≤ x) (hhigh : x < 4294967296) :
    int32 x < 0 := by
  unfold int32
  rw [Int.bmod_def]
  split <;> omega

section Wrong

variable {pattern : CStr}

theorem Agrees.complete (h : Agrees pattern) (hzero : 0 ∉ pattern)
    (hslash : '\\'.toUInt8 ∉ pattern) :
    (∀ b ∈ pattern.drop (memBufferMaxPrintf - 1), b = star) ∧
      (star ∈ seen pattern → ∀ x ∈ bytePieces star [] (seen pattern), x.charAt 0 ≠ 1) := by
  obtain ⟨first, last, hfirst, hlast, haccepts⟩ := h.accepts hzero hslash
  have hflat := flatten_elems hfirst hlast
  have hlit : literal pattern = literal (seen pattern) ++
      literal (pattern.drop (memBufferMaxPrintf - 1)) := by
    rw [← literal_append, seen, take_append_drop]
  have hseen : (literal (seen pattern)).length ≤ 65534 := by
    refine Nat.le_trans (length_filter_le _ _) ?_
    rw [length_take]
    exact Nat.min_le_left _ _
  -- the pieces have no more bytes than the literals that are seen
  have hpieces : (pieces pattern).flatten.length ≤ (literal (seen pattern)).length ∧
      ((pieces pattern).flatten.length = (literal (seen pattern)).length →
        star ∈ seen pattern → ∀ x ∈ bytePieces star [] (seen pattern), x.charAt 0 ≠ 1) := by
    have hall := flatten_bytePieces (seen pattern) []
    rw [pieces]
    by_cases hs : star ∈ seen pattern
    · obtain ⟨hle, heq⟩ := length_filter_flatten (fun x => decide (x.charAt 0 ≠ 1))
        (bytePieces star [] (seen pattern))
      rw [hall, nil_append] at hle heq
      rw [if_pos hs]
      refine ⟨hle, fun hlen _ x hx => ?_⟩
      by_cases hnil : x = []
      · rw [hnil]
        decide
      · exact of_decide_eq_true (heq hlen x hx hnil)
    · rw [if_neg hs, literal_of_notMem hs]
      simp [hs]
  have hno : 0 ∉ (pieces pattern).flatten := by
    intro hmem
    obtain ⟨x, hx, hx0⟩ := mem_flatten.mp hmem
    exact notMem_pieces hzero x hx hx0
  have hglob := (haccepts _ (hflat ▸ hno)).mp (accepts_flatten (by rw [hflat]; omega))
  have hle := (literal_le hglob).1
  rw [hflat, hlit, length_append] at hle
  refine ⟨?_, hpieces.2 (by omega)⟩
  have hnil : literal (pattern.drop (memBufferMaxPrintf - 1)) = [] :=
    length_eq_zero_iff.mp (by omega)
  intro b hb
  by_contra hne
  exact filter_eq_nil_iff.mp hnil b hb (by simpa using hne)

theorem pieces_eq (h : star ∈ seen pattern → ∀ x ∈ bytePieces star [] (seen pattern),
    x.charAt 0 ≠ 1) : pieces pattern = bytePieces star [] (seen pattern) := by
  rw [pieces]
  by_cases hs : star ∈ seen pattern
  · rw [if_pos hs, filter_eq_self]
    intro x hx
    exact decide_eq_true (h hs x hx)
  · rw [if_neg hs, bytePieces_of_notMem _ hs, nil_append]

theorem Agrees.last_eq_nil (h : Agrees pattern) (hzero : 0 ∉ pattern)
    (hslash : '\\'.toUInt8 ∉ pattern) : (bytePieces star [] (seen pattern)).getLast? = some [] := by
  obtain ⟨hdrop, hcomment⟩ := h.complete hzero hslash
  obtain ⟨first, last, hfirst, hlast, haccepts⟩ := h.accepts hzero hslash
  rw [← pieces_eq hcomment, hlast]
  by_contra hne
  have hne' : last ≠ [] := fun heq => hne (congrArg some heq)
  have hwf : decide (0 < last.length) = true := decide_eq_true (length_pos_iff.mpr hne')
  by_cases hs : star ∈ pattern
  · -- a text with which the length is negative
    obtain ⟨a, b, rfl⟩ := append_of_mem hs
    obtain ⟨m, hm⟩ : ∃ m : Nat, m = 2147483648 := ⟨_, rfl⟩
    have hglob : Glob (a ++ star :: b) (literal a ++ (List.replicate m star ++ literal b)) := by
      refine glob_append ?_ (glob_self a)
      rw [Glob, if_pos rfl]
      exact ⟨_, _, rfl, glob_self b⟩
    have hlit : literal (a ++ star :: b) = literal (seen (a ++ star :: b)) := by
      have hnil : literal ((a ++ star :: b).drop (memBufferMaxPrintf - 1)) = [] := by
        rw [literal, filter_eq_nil_iff]
        intro c hc
        simpa using hdrop c hc
      conv_lhs => rw [← take_append_drop (memBufferMaxPrintf - 1) (a ++ star :: b)]
      rw [literal_append, hnil, append_nil]
    have hsmall : (literal (a ++ star :: b)).length ≤ 65534 := by
      rw [hlit]
      refine Nat.le_trans (length_filter_le _ _) ?_
      rw [length_take]
      exact Nat.min_le_left _ _
    have hsplit : literal (a ++ star :: b) = literal a ++ literal b := by
      simp [literal]
    rw [hsplit, length_append] at hsmall
    have hno : 0 ∉ literal a ++ (List.replicate m star ++ literal b) := by
      have ha : 0 ∉ literal a := fun hc => hzero (by simp [mem_of_mem_filter hc])
      have hb : 0 ∉ literal b := fun hc => hzero (by simp [mem_of_mem_filter hc])
      have hm' : (0 : UInt8) ∉ List.replicate m star := fun hc =>
        absurd (eq_of_mem_replicate hc) (by decide)
      simp only [mem_append, not_or]
      exact ⟨ha, hm', hb⟩
    obtain ⟨_, _, _, hanch⟩ := (haccepts _ hno).mpr hglob
    have hend := (hanch.2 hwf last (getLast?_elems hfirst hlast hne')).1
    have hlong : ((literal a ++ (List.replicate m star ++ literal b)).length : Int) =
        (literal a).length + (m + (literal b).length) := by
      simp only [length_append, length_replicate, Nat.cast_add]
    rw [hlong] at hend
    have hneg := @int32_negative ((literal a).length + (m + (literal b).length)) (by omega)
      (by omega)
    omega
  · -- with no star at all the literal may be there twice
    have hnil : pattern.drop (memBufferMaxPrintf - 1) = [] := by
      rw [eq_nil_iff_forall_not_mem]
      intro b hb
      exact hs (hdrop b hb ▸ mem_of_mem_drop hb)
    have hseen : seen pattern = pattern := by
      rw [seen, ← append_nil (pattern.take _), ← hnil, take_append_drop]
    rw [pieces, hseen, if_neg hs] at hfirst hlast haccepts
    obtain rfl : pattern = first := Option.some_inj.mp hfirst
    obtain rfl : pattern = last := Option.some_inj.mp hlast
    have hpos : 0 < pattern.length := length_pos_iff.mpr hne'
    have hno : 0 ∉ pattern ++ star :: pattern := by
      simp only [mem_append, mem_cons, not_or]
      exact ⟨hzero, by decide, hzero⟩
    have hshort : pattern.length ≤ 65534 := by
      rw [← hseen, length_take]
      exact Nat.min_le_left _ _
    have helems : elems [pattern] pattern pattern = [pattern] := by
      rw [elems, if_pos hpos, if_pos hpos]
    have hglob : Glob pattern (pattern ++ star :: pattern) := by
      apply (haccepts _ hno).mp
      rw [helems]
      obtain ⟨ms, hms, hsorted, _⟩ := @found_exact (pattern ++ star :: pattern) [pattern] 0
        (Nat.zero_le _) (by simp)
      have hlen : ((pattern ++ star :: pattern).length : Int) =
          (pattern ++ [star]).length + pattern.length := by
        simp only [length_append, length_cons, length_nil, Nat.cast_add]
        omega
      refine ⟨ms, hms, hsorted, ?_, ?_⟩
      · intro _ _ r hr
        obtain rfl := Option.some_inj.mp hr
        exact prefix_append _ _
      · intro _ r hr
        obtain rfl : pattern = r := Option.some_inj.mp hr
        have hfit : ((pattern ++ [star]).length : Int) = pattern.length + 1 := by simp
        rw [hlen, int32_of_lt (by omega) (by omega), Int.add_sub_cancel, Int.toNat_natCast]
        refine ⟨by omega, ?_⟩
        have hcut : pattern ++ star :: pattern = (pattern ++ [star]) ++ pattern := by simp
        rw [hcut, drop_left]
    have hglob' : Glob (pattern ++ []) (pattern ++ star :: pattern) := by rwa [append_nil]
    obtain ⟨rest, hrest, hnil'⟩ := (glob_literal hs [] _).mp hglob'
    obtain rfl : rest = [] := hnil'
    simp at hrest

end Wrong

/-! ## The shape of a pattern -/

theorem bytePieces_stars (k : Nat) (rest : CStr) :
    bytePieces star [] (List.replicate k star ++ rest) =
      List.replicate k [] ++ bytePieces star [] rest := by
  induction k with
  | zero => rfl
  | succ k ih =>
    rw [replicate_succ, cons_append, bytePieces, if_pos rfl, ih]
    rfl

theorem getLast?_bytePieces (rest : CStr) : ∀ piece : CStr,
    (bytePieces star piece rest).getLast? = some [] →
      (piece = [] ∧ rest = []) ∨ rest.getLast? = some star := by
  induction rest with
  | nil =>
    intro piece h
    exact .inl ⟨Option.some_inj.mp h, rfl⟩
  | cons b rest ih =>
    intro piece h
    rw [bytePieces] at h
    by_cases hb : b = star
    · rw [if_pos hb, getLast?_cons_of_ne_nil (bytePieces_ne_nil rest [])] at h
      rcases ih [] h with ⟨_, rfl⟩ | hlast
      · exact .inr (congrArg some hb)
      · exact .inr (by rw [getLast?_cons, hlast]; rfl)
    · rw [if_neg hb] at h
      rcases ih _ h with ⟨hnil, _⟩ | hlast
      · simp at hnil
      · exact .inr (by rw [getLast?_cons, hlast]; rfl)

theorem exists_stars (rest : CStr) : ∃ k r, rest = List.replicate k star ++ r ∧
    r.head? ≠ some star := by
  induction rest with
  | nil => exact ⟨0, [], rfl, by simp⟩
  | cons b rest ih =>
    by_cases hb : b = star
    · obtain ⟨k, r, rfl, hr⟩ := ih
      exact ⟨k + 1, r, by rw [hb, replicate_succ, cons_append], hr⟩
    · exact ⟨0, b :: rest, rfl, by simpa using hb⟩

/-- A pattern with a star at the end has at most two literals, the second in front of that star,
or another one behind the second. -/
theorem shape {pattern : CStr} (h : pattern.getLast? = some star) :
    ∃ p k, star ∉ p ∧ (pattern = p ++ List.replicate (k + 1) star ∨ ∃ q rest, star ∉ q ∧ q ≠ [] ∧
      pattern = p ++ (List.replicate (k + 1) star ++ (q ++ star :: rest)) ∧
      (rest = [] ∨ ∃ x tail, star ∉ x ∧ rest = x ++ star :: tail)) := by
  have hmem := mem_of_getLast? h
  obtain ⟨p, r, rfl, hp⟩ := eq_append_cons_of_mem hmem
  obtain ⟨k, r', rfl, hr'⟩ := exists_stars r
  refine ⟨p, k, hp, ?_⟩
  by_cases hs : star ∈ r'
  · obtain ⟨q, rest, rfl, hq⟩ := eq_append_cons_of_mem hs
    have hq' : q ≠ [] := by
      rintro rfl
      exact hr' rfl
    refine .inr ⟨q, rest, hq, hq', by rw [replicate_succ, cons_append], ?_⟩
    by_cases hrest : star ∈ rest
    · obtain ⟨x, tail, rfl, hx⟩ := eq_append_cons_of_mem hrest
      exact .inr ⟨x, tail, hx, rfl⟩
    · left
      by_contra hne
      have hlast : (p ++ star :: (List.replicate k star ++ (q ++ star :: rest))).getLast? =
          rest.getLast? := by
        rw [getLast?_eq_some_getLast hne]
        simp [getLast?_append, getLast?_cons, getLast?_eq_some_getLast hne]
      rw [hlast] at h
      exact hrest (mem_of_getLast? h)
  · left
    have hnil : r' = [] := by
      by_contra hne
      have hlast : (p ++ star :: (List.replicate k star ++ r')).getLast? = r'.getLast? := by
        rw [getLast?_eq_some_getLast hne]
        simp [getLast?_append, getLast?_cons, getLast?_eq_some_getLast hne]
      rw [hlast] at h
      exact hs (mem_of_getLast? h)
    rw [hnil, append_nil, replicate_succ]

/-- What is left of the first literal and the stars behind it. -/
def frontElems (p : CStr) (k : Nat) : List CStr :=
  (if p = [] then [] else [p]) ++ List.replicate k []

theorem flatten_frontElems (p : CStr) (k : Nat) : (frontElems p k).flatten = p := by
  rw [frontElems, flatten_append, flatten_replicate_nil, append_nil]
  by_cases hp : p = []
  · rw [if_pos hp, hp]
    rfl
  · rw [if_neg hp, flatten_singleton]

theorem elems_eq (p : CStr) (k : Nat) (l : List CStr) (hl : l.getLast? = some []) :
    elems (p :: (List.replicate k [] ++ l)) p [] = frontElems p k ++ l.dropLast := by
  have hne : l ≠ [] := by
    rintro rfl
    cases hl
  have hdrop : (p :: (List.replicate k [] ++ l)).dropLast =
      p :: (List.replicate k [] ++ l.dropLast) := by
    rw [dropLast_cons_of_ne_nil (append_ne_nil_of_right_ne_nil _ hne),
      dropLast_append_of_ne_nil hne]
  simp only [elems, length_nil, Nat.lt_irrefl, if_false]
  rw [hdrop, frontElems, append_assoc]
  by_cases hp : p = []
  · rw [if_pos hp, hp]
    rfl
  · rw [if_neg hp, if_pos (length_pos_iff.mpr hp)]
    rfl

theorem head_frontElems {p : CStr} {k : Nat} {l : List CStr} {r : CStr}
    (hp : decide (0 < p.length) = true) (h : (frontElems p k ++ l).head? = some r) : r = p := by
  have hne : p ≠ [] := length_pos_iff.mp (of_decide_eq_true hp)
  rw [frontElems, if_neg hne] at h
  exact (Option.some_inj.mp h).symm

theorem prefix_of_append {q x rest : CStr} (hq : star ∉ q) (h : q <+: x ++ star :: rest) :
    q <+: x := by
  by_cases hle : q.length ≤ x.length
  · exact prefix_of_prefix_length_le h (prefix_append x _) hle
  · have hx : x ++ [star] <+: x ++ star :: rest := ⟨rest, by simp⟩
    have hxq : x ++ [star] <+: q := by
      apply prefix_of_prefix_length_le hx h
      rw [length_append, length_singleton]
      omega
    exact absurd (hxq.subset (by simp)) hq

theorem drop_stars {q rest : CStr} {i : Nat} (hi : i < q.length) (hne : q ≠ []) (hq : star ∉ q) :
    ¬ q <+: (List.replicate q.length star ++ rest).drop i := by
  intro h
  obtain ⟨c, q', rfl⟩ := exists_cons_of_ne_nil hne
  have hdrop : (List.replicate (c :: q').length star ++ rest).drop i =
      star :: (List.replicate ((c :: q').length - i - 1) star ++ rest) := by
    rw [drop_append_of_le_length (by rw [length_replicate]; omega), drop_replicate,
      ← cons_append, ← replicate_succ]
    congr 2
    omega
  rw [hdrop] at h
  exact hq (mem_cons.mpr (.inl (cons_prefix_cons.mp h).1.symm))

section Second

variable {p q x : CStr} {k : Nat} {B : List CStr}

theorem not_accepts (hq : star ∉ q) (hne : q ≠ []) (hqx : ¬ q <+: x) (rest : CStr) (wb : Bool) :
    ¬ Accepts wb false (frontElems p k ++ q :: x :: B)
      (p ++ (List.replicate q.length star ++ (x ++ star :: rest))) := by
  rintro ⟨ms, hfound, hsorted, _⟩
  obtain ⟨front, _, rfl, _, hbehind⟩ := found_append.mp hfound
  rw [flatten_frontElems, Nat.zero_add] at hbehind
  cases hbehind with
  | @cons _ i _ _ _ hi hbehind =>
    cases hbehind with
    | @cons _ j _ _ _ hj _ =>
      have hle := rel_of_pairwise_cons (pairwise_append.mp hsorted).2.1
        mem_cons_self
      rw [drop_left] at hi
      rw [← drop_drop, drop_left] at hj
      have hcut : (List.replicate q.length star ++ (x ++ star :: rest)).drop q.length =
          x ++ star :: rest := by
        rw [drop_left' length_replicate]
      rw [hcut] at hj
      obtain ⟨j', hj', hzero⟩ := @strstr_le (x ++ star :: rest) x 0 (Nat.zero_le _)
        (prefix_append x _)
      obtain rfl : j = j' := Option.some_inj.mp (hj.symm.trans hj')
      have hpre := strstr_prefix hi
      by_cases hlt : i < q.length
      · exact drop_stars hlt hne hq hpre
      · obtain rfl : i = q.length := by omega
        rw [hcut] at hpre
        exact hqx (prefix_of_append hq hpre)

theorem accepts_twice (hqx : q <+: x) :
    Accepts (decide (0 < p.length)) false (frontElems p k ++ q :: x :: B)
      (p ++ (List.replicate q.length star ++ (x ++ B.flatten))) := by
  obtain ⟨text, htext⟩ : ∃ text, text = p ++ (List.replicate q.length star ++ (x ++ B.flatten)) :=
    ⟨_, rfl⟩
  have hdrop : text.drop p.length = List.replicate q.length star ++ (x ++ B.flatten) := by
    rw [htext, drop_left]
  have hdrop' : text.drop (p.length + q.length) = x ++ B.flatten := by
    rw [← drop_drop, hdrop, drop_left' length_replicate]
  have hlen : text.length = p.length + (q.length + (x.length + B.flatten.length)) := by
    simp [htext]
  obtain ⟨front, hfront, hsorted, hbound⟩ := @found_exact text (frontElems p k) 0 (Nat.zero_le _)
    (by rw [flatten_frontElems, drop_zero, htext]; exact prefix_append p _)
  obtain ⟨rest, hrest, hsorted', hbound'⟩ := @found_exact text (x :: B) (p.length + q.length)
    (by omega) (by rw [hdrop', flatten_cons])
  obtain ⟨i, hi, hle⟩ := @strstr_le (text.drop p.length) q q.length
    (by rw [length_drop]; omega)
    (by rw [drop_drop, hdrop']; exact hqx.trans (prefix_append x _))
  rw [← htext]
  refine ⟨front ++ (p.length + i) :: rest, found_append.mpr ⟨front, _, rfl, hfront, ?_⟩, ?_, ?_, by
    simp⟩
  · rw [flatten_frontElems, Nat.zero_add]
    exact .cons hi hrest
  · rw [flatten_frontElems] at hbound
    refine pairwise_append.mpr ⟨hsorted, pairwise_cons.mpr ⟨?_, hsorted'⟩, ?_⟩
    · intro m hm
      have hm' := hbound' m hm
      omega
    · intro m hm m' hm'
      have hlow := hbound m hm
      rcases mem_cons.mp hm' with rfl | hm'
      · omega
      · have hhigh := hbound' m' hm'
        omega
  · intro hwb _ r hr
    rw [head_frontElems hwb hr, htext]
    exact prefix_append p _

theorem accepts_iff {o : Option CStr} {text : CStr} :
    Accepts (decide (0 < p.length)) false (frontElems p k ++ o.toList) text ↔
      ∃ rest, text = p ++ rest ∧ ∀ q ∈ o, ∃ i, strstr rest q = some i := by
  constructor
  · rintro ⟨ms, hfound, _, hanch⟩
    have hp : p <+: text := by
      by_cases hnil : p = []
      · rw [hnil]
        exact nil_prefix
      · exact hanch.1 (decide_eq_true (length_pos_iff.mpr hnil)) rfl p
          (by rw [frontElems, if_neg hnil]; rfl)
    obtain ⟨rest, rfl⟩ := hp
    refine ⟨rest, rfl, ?_⟩
    intro q hq
    obtain rfl : o = some q := hq
    obtain ⟨_, _, rfl, _, hbehind⟩ := found_append.mp hfound
    rw [flatten_frontElems, Nat.zero_add] at hbehind
    cases hbehind with
    | @cons _ i _ _ _ hi _ =>
      rw [drop_left] at hi
      exact ⟨i, hi⟩
  · rintro ⟨rest, rfl, hrest⟩
    obtain ⟨front, hfront, hsorted, hbound⟩ := @found_exact (p ++ rest) (frontElems p k) 0
      (Nat.zero_le _) (by rw [flatten_frontElems, drop_zero]; exact prefix_append p _)
    rw [flatten_frontElems] at hbound
    have hanch : Anchored (decide (0 < p.length)) false true (p ++ rest)
        (frontElems p k ++ o.toList) := by
      refine ⟨?_, by simp⟩
      intro hwb _ r hr
      rw [head_frontElems hwb hr]
      exact prefix_append p _
    cases o with
    | none => exact ⟨front ++ [], found_append.mpr ⟨front, [], rfl, hfront, .nil⟩, by simpa, hanch⟩
    | some q =>
      obtain ⟨i, hi⟩ := hrest q rfl
      refine ⟨front ++ [p.length + i], found_append.mpr ⟨front, _, rfl, hfront, ?_⟩, ?_, hanch⟩
      · rw [flatten_frontElems, Nat.zero_add]
        exact .cons (by rwa [drop_left]) .nil
      · refine pairwise_append.mpr ⟨hsorted, pairwise_singleton _ _, ?_⟩
        intro m hm m' hm'
        have hlow := hbound m hm
        rw [mem_singleton.mp hm']
        omega

end Second

section Right

variable {pattern : CStr}

theorem strstr_isSome {text q : CStr} :
    (∃ i, strstr text q = some i) ↔ ∃ front rest, text = front ++ (q ++ rest) := by
  constructor
  · rintro ⟨i, hi⟩
    obtain ⟨rest, hrest⟩ := strstr_prefix hi
    exact ⟨text.take i, rest, by rw [hrest, take_append_drop]⟩
  · rintro ⟨front, rest, rfl⟩
    obtain ⟨i, hi, _⟩ := @strstr_le (front ++ (q ++ rest)) q front.length (by simp)
      (by rw [drop_left]; exact prefix_append q rest)
    exact ⟨i, hi⟩

theorem agrees_of {p : CStr} {k : Nat} {o : Option CStr} (hzero : 0 ∉ pattern)
    (hslash : '\\'.toUInt8 ∉ pattern)
    (hpieces : pieces pattern = p :: (List.replicate k [] ++ (o.toList ++ [[]])))
    (hglob : ∀ text, Glob pattern text ↔ ∃ rest, text = p ++ rest ∧
      ∀ q ∈ o, ∃ f g, rest = f ++ (q ++ g)) : Agrees pattern := by
  have hlast : (p :: (List.replicate k [] ++ (o.toList ++ [[]]))).getLast? = some [] := by
    simp [getLast?_cons, getLast?_append]
  have helems : elems (pieces pattern) p [] = frontElems p k ++ o.toList := by
    rw [hpieces, elems_eq p k _ (by simp), dropLast_concat]
  have hcompile := compile_eq hzero hslash (by rw [hpieces]; rfl) (by rw [hpieces]; exact hlast)
  intro text _
  have hno : ∀ r ∈ elems (pieces pattern) p [], 0 ∉ r := fun r hr =>
    notMem_pieces hzero r (mem_elems hr)
  obtain ⟨r, hr⟩ :=
    @matchLoop_total (decide (0 < p.length)) text (elems (pieces pattern) p []) true 0
  have hanswer := @execute_eq_true (decide (0 < p.length)) false text _ hno
  rw [helems, accepts_iff] at hanswer
  simp only [strstr_isSome, ← hglob, ← helems] at hanswer
  rw [hcompile, ← hanswer]
  simp only [Option.bind_some, execute, length_nil, Nat.lt_irrefl, decide_false, hr,
    Option.map_some]
  exact ⟨_, rfl, by simp⟩

theorem Simple.agrees (h : Simple (seen pattern))
    (hdrop : ∀ b ∈ pattern.drop (memBufferMaxPrintf - 1), b = star) (hzero : 0 ∉ pattern)
    (hslash : '\\'.toUInt8 ∉ pattern) : Agrees pattern := by
  obtain ⟨m, hm⟩ : ∃ m, pattern.drop (memBufferMaxPrintf - 1) = List.replicate m star :=
    ⟨_, eq_replicate_of_mem hdrop⟩
  have hsplit : pattern = seen pattern ++ List.replicate m star := by
    rw [← hm, seen, take_append_drop]
  have hmore : star :: List.replicate m star = List.replicate (m + 1) star ++ [] := by
    rw [append_nil, replicate_succ]
  obtain ⟨p, q, k, hp, hq, hp1, hq1, hform | hform⟩ := h
  · have hpieces : bytePieces star [] (seen pattern) = [p, []] := by
      rw [hform, bytePieces_append hp, nil_append]
      rfl
    have hkept : pieces pattern = [p, []] := by
      rw [← hpieces]
      apply pieces_eq
      rw [hpieces]
      intro _ x hx
      rcases mem_cons.mp hx with rfl | hx
      · exact hp1
      · rw [mem_singleton.mp hx]
        decide
    apply @agrees_of pattern p 0 none hzero hslash hkept
    intro text
    rw [hsplit, hform, append_assoc, singleton_append, hmore, glob_literal hp]
    simp only [glob_stars]
    constructor
    · rintro ⟨rest, rfl, _⟩
      exact ⟨rest, rfl, by simp⟩
    · rintro ⟨rest, rfl, _⟩
      exact ⟨rest, rfl, rest, [], (append_nil rest).symm, rfl⟩
  · have hpieces : bytePieces star [] (seen pattern) = p :: (List.replicate k [] ++ [q, []]) := by
      rw [hform, replicate_succ, append_assoc, cons_append, bytePieces_append hp,
        nil_append, bytePieces_stars, bytePieces_append hq, nil_append]
      rfl
    have hkept : pieces pattern = p :: (List.replicate k [] ++ [q, []]) := by
      rw [← hpieces]
      apply pieces_eq
      rw [hpieces]
      intro _ x hx
      have hnil : CStr.charAt [] 0 ≠ 1 := by decide
      rcases mem_cons.mp hx with rfl | hx
      · exact hp1
      · rcases mem_append.mp hx with hx | hx
        · rw [eq_of_mem_replicate hx]
          exact hnil
        · rcases mem_cons.mp hx with rfl | hx
          · exact hq1
          · rw [mem_singleton.mp hx]
            exact hnil
    apply @agrees_of pattern p k (some q) hzero hslash hkept
    intro text
    rw [hsplit, hform]
    simp only [append_assoc, singleton_append, hmore, glob_literal hp, glob_stars,
      glob_literal hq]
    constructor
    · rintro ⟨_, rfl, f, _, rfl, g, rfl, _⟩
      refine ⟨_, rfl, ?_⟩
      intro r hr
      obtain rfl := Option.some_inj.mp hr
      exact ⟨f, g, rfl⟩
    · rintro ⟨rest, rfl, hrest⟩
      obtain ⟨f, g, rfl⟩ := hrest q rfl
      exact ⟨_, rfl, f, _, rfl, g, rfl, g, [], (append_nil g).symm, rfl⟩

end Right

theorem Agrees.simple {pattern : CStr} (h : Agrees pattern) (hzero : 0 ∉ pattern)
    (hslash : '\\'.toUInt8 ∉ pattern) : Simple (seen pattern) := by
  obtain ⟨hdrop, hcomment⟩ := h.complete hzero hslash
  have hlastnil := h.last_eq_nil hzero hslash
  obtain ⟨first, last, hfirst, hlast, haccepts⟩ := h.accepts hzero hslash
  rw [pieces_eq hcomment] at hfirst hlast haccepts
  obtain rfl : [] = last := Option.some_inj.mp (hlastnil.symm.trans hlast)
  rcases getLast?_bytePieces (seen pattern) [] hlastnil with ⟨_, hnil⟩ | hstar
  · -- with nothing to look for every text is taken
    obtain rfl : pattern = [] := by
      rcases take_eq_nil_iff.mp hnil with h | h
      · exact absurd h (by decide)
      · exact h
    obtain rfl : [] = first := Option.some_inj.mp hfirst
    have hanch : Anchored false false true [star] [] := by simp [Anchored]
    have hglob := (haccepts [star] (by decide)).mp ⟨[], .nil, .nil, hanch⟩
    simp [Glob] at hglob
  · have hheads := hcomment (mem_of_getLast? hstar)
    obtain ⟨p, k, hp, hshape⟩ := shape hstar
    rcases hshape with hform | ⟨q, rest, hq, hne, hform, hrest⟩
    · have hp1 : p.charAt 0 ≠ 1 := by
        apply hheads
        rw [hform, replicate_succ, bytePieces_append hp]
        exact mem_cons_self
      refine ⟨p, [], k - 1, hp, by simp, hp1, by decide, ?_⟩
      cases k with
      | zero => exact .inl hform
      | succ k =>
        right
        rw [hform, replicate_succ', Nat.add_sub_cancel, nil_append, append_assoc]
    · have hpieces : bytePieces star [] (seen pattern) =
          p :: (List.replicate k [] ++ q :: bytePieces star [] rest) := by
        rw [hform, replicate_succ, cons_append, bytePieces_append hp, nil_append,
          bytePieces_stars, bytePieces_append hq, nil_append]
      rw [hpieces] at hheads hlastnil hfirst haccepts
      rcases hrest with rfl | ⟨x, tail, hx, rfl⟩
      · refine ⟨p, q, k, hp, hq, hheads p (by simp), hheads q (by simp), .inr ?_⟩
        rw [hform, append_assoc]
      · -- another piece is behind the second one
        exfalso
        rw [bytePieces_append hx, nil_append] at haccepts hlastnil
        obtain rfl : p = first := Option.some_inj.mp hfirst
        obtain ⟨B, hB⟩ : ∃ B, bytePieces star [] tail = B ++ [[]] := by
          have hne' := bytePieces_ne_nil (d := star) tail []
          have hlast' : (bytePieces star [] tail).getLast? = some [] := by
            rw [← hlastnil, getLast?_eq_some_getLast hne']
            simp [getLast?_cons, getLast?_append, getLast?_eq_some_getLast hne']
          exact getLast?_eq_some_iff.mp hlast'
        have hflat : B.flatten = literal tail := by
          have hall := flatten_bytePieces tail []
          rw [hB] at hall
          simpa using hall
        rw [hB, elems_eq p k _ (by simp [getLast?_cons, getLast?_append])] at haccepts
        have hlist : (q :: x :: (B ++ [[]])).dropLast = q :: x :: B :=
          @dropLast_concat _ (q :: x :: B) []
        rw [hlist] at haccepts
        have hseen : 0 ∉ seen pattern := mt (@take_subset _ _ _ 0) hzero
        rw [hform] at hseen
        simp only [mem_append, mem_cons, not_or] at hseen
        obtain ⟨hp0, -, hq0, -, hx0, -, ht0⟩ := hseen
        have hB0 : 0 ∉ literal tail := mt mem_of_mem_filter ht0
        have hs0 : (0 : UInt8) ∉ List.replicate q.length star := fun hc =>
          absurd (eq_of_mem_replicate hc) (by decide)
        have hnil : literal (pattern.drop (memBufferMaxPrintf - 1)) = [] := by
          rw [literal, filter_eq_nil_iff]
          intro c hc
          simpa using hdrop c hc
        have hsplit : pattern = p ++ (List.replicate (k + 1) star ++ (q ++ star :: (x ++
            star :: tail))) ++ pattern.drop (memBufferMaxPrintf - 1) := by
          rw [← hform, seen, take_append_drop]
        by_cases hqx : q <+: x
        · have hglob := (haccepts _ (by
            simp only [mem_append, not_or, hflat]
            exact ⟨hp0, hs0, hx0, hB0⟩)).mp (accepts_twice hqx)
          have hlit : literal pattern = p ++ (q ++ (x ++ literal tail)) := by
            conv_lhs => rw [hsplit]
            rw [literal_append, hnil]
            simp only [literal_append, literal_stars, literal_cons_star, literal_of_notMem hp,
              literal_of_notMem hq, literal_of_notMem hx, nil_append, append_nil]
          have heq := (literal_le hglob).2 (by rw [hlit, hflat]; simp)
          apply star_notMem_literal pattern
          rw [← heq]
          have hpos := length_pos_iff.mpr hne
          simp [mem_replicate, Nat.ne_of_gt hpos]
        · have hglob : Glob pattern (p ++ (List.replicate q.length star ++ (x ++ star :: (q ++
              (x ++ literal tail))))) := by
            have hrest : Glob (pattern.drop (memBufferMaxPrintf - 1)) [] := by
              rw [← hnil]
              exact glob_self _
            have htail : Glob (star :: tail) (literal tail) := by
              rw [Glob, if_pos rfl]
              exact ⟨[], literal tail, rfl, glob_self tail⟩
            have hq' : Glob (star :: (x ++ star :: tail)) (x ++ literal tail) := by
              rw [Glob, if_pos rfl]
              exact ⟨[], _, rfl, (glob_literal hx _ _).mpr ⟨_, rfl, htail⟩⟩
            have hfront := (glob_literal hp _ _).mpr ⟨_, rfl, (glob_stars k _ _).mpr
              ⟨List.replicate q.length star ++ (x ++ [star]), _, rfl,
                (glob_literal hq _ _).mpr ⟨_, rfl, hq'⟩⟩⟩
            have hall := glob_append hrest hfront
            rw [← hsplit] at hall
            simpa using hall
          exact not_accepts hq hne hqx _ _ ((haccepts _ (by
            simp only [mem_append, mem_cons, not_or]
            exact ⟨hp0, hs0, hx0, by decide, hq0, hx0, hB0⟩)).mpr hglob)

/-- The patterns with which the answer is right for each text: there is a star at the end, and in
front of it one literal, or two with stars between them. What is not looked at, behind the bytes
of a line, is stars. -/
theorem agrees_iff_stars (pattern : CStr) (hzero : 0 ∉ pattern) (hslash : '\\'.toUInt8 ∉ pattern) :
    Agrees pattern ↔ Simple (seen pattern) ∧
      ∀ b ∈ pattern.drop (memBufferMaxPrintf - 1), b = star := by
  constructor
  · intro h
    exact ⟨h.simple hzero hslash, (h.complete hzero hslash).1⟩
  · intro h
    exact h.1.agrees h.2 hzero hslash

/-- One literal and a star: all texts that begin with it. -/
theorem agrees_iff_stars_prefix : Agrees ['a'.toUInt8, 'b'.toUInt8, star] := by
  apply (agrees_iff_stars ['a'.toUInt8, 'b'.toUInt8, star] (by decide) (by decide)).mpr
  exact ⟨⟨['a'.toUInt8, 'b'.toUInt8], [], 0, by decide, by decide, by decide, by decide, .inl rfl⟩,
    by simp⟩

/-- The pattern `*a*a*` and the text `ba`: the second `a` is looked for from the offset 1 on, where
the first one was found. -/
theorem not_agrees_twice : ¬ Agrees [star, 'a'.toUInt8, star, 'a'.toUInt8, star] := by
  intro h
  obtain ⟨answer, hrun, hanswer⟩ := h ['b'.toUInt8, 'a'.toUInt8] (by decide)
  have htrue : (compile [star, 'a'.toUInt8, star, 'a'.toUInt8, star] .sense).bind
      (execute · ['b'.toUInt8, 'a'.toUInt8]) = some true := by decide +kernel
  rw [htrue] at hrun
  have hglob := literal_le (hanswer.mp (Option.some_inj.mp hrun).symm)
  have hdiff : ['b'.toUInt8, 'a'.toUInt8] ≠
      literal [star, 'a'.toUInt8, star, 'a'.toUInt8, star] := by decide
  exact hdiff (hglob.2 (by decide))

end SpeedRegEx

end BrbData
