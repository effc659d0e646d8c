import BrbFramework.Data.StringArray
import Mathlib.Data.List.TakeWhile

/-!
# Exploding strings

The loops of the four functions keep the same state, but for the flag that says
whether a token was found: `StringArrayExplodeStrInit` does not set it for a
delimiter at the front. `splitters_agree_iff` says when that shows.
-/

namespace BrbData

open List

namespace CStr

variable {str : CStr}

theorem strlen_eq (h : 0 ∉ str) : str.strlen = str.length := by
  have hall : str.takeWhile (· ≠ 0) = str := by
    apply takeWhile_eq_self_iff.mpr
    intro b hb
    have hne : b ≠ 0 := fun heq => h (heq ▸ hb)
    simpa using hne
  rw [strlen, hall]

theorem strlen_append_zero (h : 0 ∉ str) (rest : List UInt8) :
    (str ++ 0 :: rest).strlen = str.length := by
  have hne : ∀ b ∈ str, decide (b ≠ 0) = true := by
    intro b hb
    have hb0 : b ≠ 0 := fun heq => h (heq ▸ hb)
    simpa using hb0
  rw [strlen, takeWhile_append_of_pos hne]
  simp

theorem strlen_append_zero_le (str : CStr) (rest : List UInt8) :
    (str ++ 0 :: rest).strlen ≤ str.length := by
  induction str with
  | nil => simp [strlen]
  | cons c str ih =>
    by_cases hc : c = 0
    · simp [strlen, hc]
    · simp only [strlen, cons_append, takeWhile_cons, hc, ne_eq, not_false_eq_true,
        decide_true, if_pos, length_cons] at ih ⊢
      omega

theorem strlen_le (str : CStr) : str.strlen ≤ str.length :=
  ( takeWhile_prefix _).length_le

theorem not_mem_take_strlen (str : CStr) : 0 ∉ str.take str.strlen := by
  intro hmem
  have htake : str.take str.strlen = str.takeWhile (· ≠ 0) :=
    (prefix_iff_eq_take.mp ( takeWhile_prefix _)).symm
  rw [htake] at hmem
  have hne := mem_takeWhile_imp hmem
  simp at hne

theorem not_mem_slice (h : 0 ∉ str) (base offset : Nat) : 0 ∉ str.slice base offset :=
  fun hmem => h (mem_of_mem_drop (mem_of_mem_take hmem))

theorem length_slice_le (str : CStr) (base offset : Nat) :
    (str.slice base offset).length ≤ str.length - base := by
  rw [slice, length_take, length_drop]
  omega

theorem strncmpEq_iff {str : CStr} (h : 0 ∉ str) : ∀ other : CStr,
    strncmpEq str other str.length = true ↔ str <+: other := by
  induction str with
  | nil =>
    intro other
    simp [strncmpEq]
  | cons c str ih =>
    intro other
    obtain ⟨hc, hstr⟩ := not_or.mp (mem_cons.not.mp h)
    have hhead : (CStr.charAt (c :: str) 0) = c := rfl
    have hne : (c == 0) = false := by simpa using Ne.symm hc
    have hrest := ih hstr (other.drop 1)
    rw [length_cons, strncmpEq, hhead, hne, Bool.false_or, drop_one, tail_cons,
      Bool.and_eq_true, beq_iff_eq, hrest]
    cases other with
    | nil =>
      have hzero : (CStr.charAt [] 0) = 0 := rfl
      simp [hzero, Ne.symm hc]
    | cons b other =>
      have hb : (CStr.charAt (b :: other) 0) = b := rfl
      rw [hb, drop_one, tail_cons, cons_prefix_cons]

theorem strncmpEq_comm (n : Nat) : ∀ str other : CStr,
    strncmpEq str other n = strncmpEq other str n := by
  induction n with
  | zero =>
    intro str other
    simp [strncmpEq]
  | succ n ih =>
    intro str other
    rw [strncmpEq, strncmpEq, ih]
    by_cases heq : str.charAt 0 = other.charAt 0
    · rw [heq]
    · have hne : (str.charAt 0 == other.charAt 0) = false := by simpa using heq
      have hne' : (other.charAt 0 == str.charAt 0) = false := by simpa using Ne.symm heq
      rw [hne, hne', Bool.false_and, Bool.false_and]

end CStr

namespace StringArray

open CStr

theorem addLine_eq {x : CStr} (h : 0 ∉ x) (hlen : x.length ≤ maxArrLineSz) : addLine x = x := by
  rw [addLine, strlen_eq h, min_eq_left hlen, take_length]

theorem unescapeString_eq {x : CStr} (h : 0 ∉ x) (escapeByte : UInt8) :
    unescapeString x escapeByte = x.filter (· ≠ escapeByte) := by
  rw [unescapeString, strlen_eq h, take_length]

/-! ## The loops -/

def Explode.start (s : Explode) : Nat :=
  if s.base ≠ 0 ∨ s.firstTokenFlag then s.base + 1 else s.base

section Loops

variable {p q : ExplodeArgs} {str : CStr} {arr : List CStr}

/-- The variants look for the same and add the same lines of `str`. -/
structure SameSplit (p q : ExplodeArgs) (str : CStr) : Prop where
  token : ∀ i, p.token i = q.token i
  escapeByte : p.escapeByte = q.escapeByte
  commentByte : p.commentByte = q.commentByte
  line : ∀ x : CStr, 0 ∉ x → x.length ≤ str.length → p.line x = q.line x

theorem SameSplit.element (h : SameSplit p q str) (hstr : 0 ∉ str) (base offset : Nat)
    (unescape : Bool) :
    p.line (if unescape then unescapeString (str.slice base offset) p.escapeByte
      else str.slice base offset) =
    q.line (if unescape then unescapeString (str.slice base offset) q.escapeByte
      else str.slice base offset) := by
  have hslice := not_mem_slice hstr base offset
  have hlen : (str.slice base offset).length ≤ str.length :=
    (length_slice_le str base offset).trans (Nat.sub_le _ _)
  rw [← h.escapeByte]
  cases unescape with
  | false => exact h.line _ hslice hlen
  | true =>
      rw [if_pos rfl, unescapeString_eq hslice]
      apply h.line
      · exact fun hmem => hslice (mem_filter.mp hmem).1
      · exact (length_filter_le _ _).trans hlen

theorem SameSplit.step (h : SameSplit p q str) (hstr : 0 ∉ str) (i : Nat) (s : Explode)
    (found : Bool) :
    ∃ found', explodeStep q str i { s with foundTokenFlag := found } =
      { explodeStep p str i s with foundTokenFlag := found' } := by
  have helement := fun base offset => h.element hstr base offset s.escapeFlag
  simp only [explodeStep, ← h.token, ← h.escapeByte, ← h.commentByte] at helement ⊢
  simp only [← helement]
  split_ifs <;> exact ⟨_, rfl⟩

theorem SameSplit.loop (h : SameSplit p q str) (hstr : 0 ∉ str) (i : Nat) :
    ∃ found, explodeLoop q str arr i = { explodeLoop p str arr i with foundTokenFlag := found } := by
  induction i with
  | zero => exact ⟨false, rfl⟩
  | succ i ih =>
      obtain ⟨found, ih⟩ := ih
      rw [explodeLoop, ih]
      exact h.step hstr i _ found

theorem explodeStep_cases (p : ExplodeArgs) (str : CStr) (i : Nat) (s : Explode) :
    (p.token i = false ∧ explodeStep p str i s = s) ∨
    (i = 0 ∧ p.token 0 = true ∧ explodeStep p str i s =
      { s with
        arr := s.arr ++ [[]]
        firstTokenFlag := true
        foundTokenFlag := s.foundTokenFlag || p.firstIsFound }) ∨
    (i ≠ 0 ∧ p.token i = true ∧ str.charAt (i - 1) = p.escapeByte ∧
      explodeStep p str i s = { s with escapeFlag := true }) ∨
    (i ≠ 0 ∧ p.token i = true ∧ str.charAt (i - 1) ≠ p.escapeByte ∧
      ∃ arr escaped, explodeStep p str i s =
        { s with arr := arr, base := i, escapeFlag := escaped, foundTokenFlag := true }) := by
  by_cases htoken : p.token i = true
  · by_cases hi : i = 0
    · subst hi
      exact .inr (.inl ⟨rfl, htoken, by simp [explodeStep, htoken]⟩)
    · by_cases hescape : str.charAt (i - 1) = p.escapeByte
      · exact .inr (.inr (.inl ⟨hi, htoken, hescape, by simp [explodeStep, htoken, hi, hescape]⟩))
      · refine .inr (.inr (.inr ⟨hi, htoken, hescape, ?_⟩))
        simp only [explodeStep, htoken, hi, hescape]
        simp only [false_and, and_false, if_false, if_true]
        split_ifs <;> exact ⟨_, _, rfl⟩
  · refine .inl ⟨by simpa using htoken, ?_⟩
    have hfirst : ¬ (i = 0 ∧ p.token 0 = true) := by
      rintro ⟨rfl, hzero⟩
      exact htoken hzero
    rw [explodeStep, if_neg hfirst, if_neg htoken]

theorem foundTokenFlag_eq (i : Nat) :
    (explodeLoop p str arr i).foundTokenFlag =
      (decide ((explodeLoop p str arr i).base ≠ 0) ||
        (explodeLoop p str arr i).firstTokenFlag && p.firstIsFound) := by
  induction i with
  | zero => rfl
  | succ i ih =>
      rw [explodeLoop]
      rcases explodeStep_cases p str i (explodeLoop p str arr i) with
        ⟨-, hstep⟩ | ⟨hi, -, hstep⟩ | ⟨-, -, -, hstep⟩ | ⟨hi, -, -, arr', escaped, hstep⟩
      · rw [hstep, ih]
      · subst hi
        rw [hstep]
        simp [explodeLoop]
      · rw [hstep]
        exact ih
      · rw [hstep]
        simp [hi]

theorem firstTokenFlag_iff (i : Nat) :
    (explodeLoop p str arr i).firstTokenFlag = true ↔ 0 < i ∧ p.token 0 = true := by
  induction i with
  | zero => simp [explodeLoop]
  | succ i ih =>
      rw [explodeLoop]
      rcases explodeStep_cases p str i (explodeLoop p str arr i) with
        ⟨htoken, hstep⟩ | ⟨-, htoken, hstep⟩ | ⟨hi, -, -, hstep⟩ | ⟨hi, -, -, arr', escaped, hstep⟩
      · rw [hstep, ih]
        rcases Nat.eq_zero_or_pos i with rfl | hi
        · simp [htoken]
        · simp [hi]
      · rw [hstep]
        simp [htoken]
      · rw [hstep]
        simpa [Nat.pos_of_ne_zero hi] using ih
      · rw [hstep]
        simpa [Nat.pos_of_ne_zero hi] using ih

theorem base_eq_zero_iff (i : Nat) :
    (explodeLoop p str arr i).base = 0 ↔
      ∀ j, 0 < j → j < i → p.token j = true → str.charAt (j - 1) = p.escapeByte := by
  induction i with
  | zero => simp [explodeLoop]
  | succ i ih =>
      have hsplit : (∀ j, 0 < j → j < i + 1 → p.token j = true →
            str.charAt (j - 1) = p.escapeByte) ↔
          (∀ j, 0 < j → j < i → p.token j = true → str.charAt (j - 1) = p.escapeByte) ∧
            (0 < i → p.token i = true → str.charAt (i - 1) = p.escapeByte) := by
        constructor
        · intro h
          exact ⟨fun j hj hlt => h j hj (by omega), fun hi => h i hi (by omega)⟩
        · rintro ⟨h, hlast⟩ j hj hlt
          rcases Nat.lt_succ_iff_lt_or_eq.mp hlt with hlt | rfl
          · exact h j hj hlt
          · exact hlast hj
      rw [explodeLoop, hsplit, ← ih]
      rcases explodeStep_cases p str i (explodeLoop p str arr i) with
        ⟨htoken, hstep⟩ | ⟨rfl, -, hstep⟩ | ⟨-, -, hescape, hstep⟩ |
          ⟨hi, htoken, hescape, arr', escaped, hstep⟩
      · rw [hstep]
        simp [htoken]
      · rw [hstep]
        simp
      · rw [hstep]
        simp [hescape]
      · rw [hstep]
        simp [hi, htoken, hescape, Nat.pos_of_ne_zero hi]

theorem SameSplit.loop_eq (h : SameSplit p q str) (hstr : 0 ∉ str)
    (hfirst : p.firstIsFound = q.firstIsFound) (i : Nat) :
    explodeLoop q str arr i = explodeLoop p str arr i := by
  obtain ⟨found, hloop⟩ := @SameSplit.loop p q str arr h hstr i
  have hp := @foundTokenFlag_eq p str arr i
  have hq := @foundTokenFlag_eq q str arr i
  rw [hloop, ← hfirst, ← hp] at hq
  rw [hloop]
  simp only at hq
  rw [hq]

theorem SameSplit.rest (h : SameSplit p q str) (hstr : 0 ∉ str) (i : Nat) (s : Explode)
    (base : Nat) (whole : CStr) :
    explodeRest q str i s base whole = explodeRest p str i s base whole := by
  have helement := h.element hstr base (i - base) (decide (p.escapeByte ≠ 0))
  simp only [decide_eq_true_eq, ← h.escapeByte] at helement
  simp only [explodeRest, ← h.commentByte, ← h.escapeByte, helement]

end Loops

/-! ## The four functions -/

/-- The only delimiter that is not escaped is the first byte. -/
def OnlyFront (str delim : CStr) (escape : Option CStr) : Prop :=
  str ≠ [] ∧ str.charAt 0 = delim.charAt 0 ∧
    ∀ j, 0 < j → j < str.length → str.charAt j = delim.charAt 0 →
      str.charAt (j - 1) = optionByte escape

section Splitters

variable {str delim : CStr} {escape comment : Option CStr}

/-- The arguments of `StringArrayExplodeStrN`, but for what a delimiter at the front does. -/
abbrev splitArgs (str delim : CStr) (escape comment : Option CStr) (line : CStr → CStr)
    (firstIsFound : Bool) : ExplodeArgs where
  token i := str.charAt i == delim.charAt 0
  escapeByte := optionByte escape
  commentByte := optionByte comment
  line := line
  firstIsFound := firstIsFound

theorem sameSplit_addLine (hlen : str.length < memBufferMaxPrintf) (found found' : Bool) :
    SameSplit (splitArgs str delim escape comment addLine found)
      (splitArgs str delim escape comment id found') str where
  token _ := rfl
  escapeByte := rfl
  commentByte := rfl
  line _ hx hle := addLine_eq hx (hle.trans (Nat.le_of_lt hlen))

theorem explodeStrN_eq (hstr : 0 ∉ str) (hlen : str.length < memBufferMaxPrintf) {n : Int}
    (hn : n < 0 ∨ (str.length : Int) ≤ n) :
    explodeStrN str delim escape comment n =
      explodeLargeStrN str delim escape comment str.length := by
  have hcap : (memBufferMaxPrintf : Nat) = 65535 := rfl
  have hstop : min (min str.length (if n < 0 then ((memBufferMaxPrintf - 1 : Nat) : Int)
      else n).toNat) (memBufferMaxPrintf - 1) = str.length := by
    split <;> omega
  have hsame := @sameSplit_addLine str delim escape comment hlen true true
  have hloop := @SameSplit.loop_eq _ _ str [] hsame hstr rfl str.length
  simp only [explodeStrN, explodeLargeStrN, strlen_eq hstr, hstop, Int.toNat_natCast, min_self]
  rw [← hloop, hsame.rest hstr]

theorem explodeLargeStrN_eq (hstr : 0 ∉ str) {n : Int} (hn : (str.length : Int) ≤ n) :
    explodeLargeStrN str delim escape comment n =
      explodeLargeStrN str delim escape comment str.length := by
  have hstop : min str.length n.toNat = min str.length (str.length : Int).toNat := by omega
  simp only [explodeLargeStrN, strlen_eq hstr, hstop]

theorem explodeLargeStrNDelimM_eq {delimSz : Int} (hone : delimSz ≤ 1) (n : Int) :
    explodeLargeStrNDelimM str delim delimSz escape comment n =
      explodeLargeStrN str delim escape comment n := by
  simp only [explodeLargeStrNDelimM, explodeLargeStrN, hone, decide_true, Bool.true_or,
    Bool.and_true]

theorem onlyFront_iff (line : CStr → CStr) (firstIsFound : Bool) :
    OnlyFront str delim escape ↔
      (explodeLoop (splitArgs str delim escape comment line firstIsFound) str []
        str.length).base = 0 ∧
      (explodeLoop (splitArgs str delim escape comment line firstIsFound) str []
        str.length).firstTokenFlag = true := by
  rw [base_eq_zero_iff, firstTokenFlag_iff, length_pos_iff]
  simp only [OnlyFront, beq_iff_eq]
  tauto

theorem explodeStrInit_loop (hstr : 0 ∉ str) (hlen : str.length < memBufferMaxPrintf) :
    explodeStrInit [] str delim escape comment =
      let s := explodeLoop (splitArgs str delim escape comment id true) str [] str.length
      explodeRest (splitArgs str delim escape comment id true) str str.length
        { s with foundTokenFlag := decide (s.base ≠ 0) }
        (if s.base ≠ 0 then s.base + 1 else s.base) str := by
  have hcap : (memBufferMaxPrintf : Nat) = 65535 := rfl
  have hstop : min str.length (memBufferMaxPrintf - 1) = str.length := by omega
  have hsame := @sameSplit_addLine str delim escape comment hlen false true
  obtain ⟨found, hloop⟩ := @SameSplit.loop _ _ str [] hsame hstr str.length
  have hflag := @foundTokenFlag_eq (splitArgs str delim escape comment addLine false) str []
    str.length
  rw [Bool.and_false, Bool.or_false] at hflag
  simp only [explodeStrInit, strlen_eq hstr, hstop, hloop]
  rw [addLine_eq hstr (Nat.le_of_lt hlen), ← hflag, ← hsame.rest hstr]

theorem explodeStrInit_eq (hstr : 0 ∉ str) (hlen : str.length < memBufferMaxPrintf)
    (hfront : ¬ OnlyFront str delim escape) :
    explodeStrInit [] str delim escape comment =
      explodeLargeStrN str delim escape comment str.length := by
  rw [onlyFront_iff id true] at hfront
  have hflag := @foundTokenFlag_eq (splitArgs str delim escape comment id true) str [] str.length
  rw [explodeStrInit_loop hstr hlen]
  simp only [explodeLargeStrN, strlen_eq hstr, Int.toNat_natCast, min_self, take_length]
  generalize explodeLoop (splitArgs str delim escape comment id true) str [] str.length = s at *
  by_cases hbase : s.base = 0
  · have hfirst : s.firstTokenFlag = false := by
      by_contra hne
      exact hfront ⟨hbase, by simpa using hne⟩
    simp [explodeRest, hflag, hbase, hfirst]
  · simp [explodeRest, hflag, hbase]

theorem explodeStrInit_ne (hstr : 0 ∉ str) (hlen : str.length < memBufferMaxPrintf)
    (hfront : OnlyFront str delim escape) :
    explodeStrInit [] str delim escape comment ≠
      explodeLargeStrN str delim escape comment str.length := by
  have hpos : 0 < str.length := length_pos_iff.mpr hfront.1
  obtain ⟨hbase, hfirst⟩ := (@onlyFront_iff str delim escape comment id true).mp hfront
  have hflag := @foundTokenFlag_eq (splitArgs str delim escape comment id true) str [] str.length
  rw [explodeStrInit_loop hstr hlen]
  simp only [explodeLargeStrN, strlen_eq hstr, Int.toNat_natCast, min_self, take_length]
  generalize explodeLoop (splitArgs str delim escape comment id true) str [] str.length = s at *
  intro heq
  have hslice : (str.slice 1 (str.length - 1)).length = str.length - 1 := by
    rw [slice, length_take, length_drop]
    omega
  have hrest : ∀ b, (unescapeString (str.slice 1 (str.length - 1)) b).length < str.length := by
    intro b
    rw [unescapeString_eq (not_mem_slice hstr _ _)]
    exact (length_filter_le _ _).trans_lt (by omega)
  simp only [explodeRest, hbase, hfirst, hflag] at heq
  simp only [decide_false, ne_eq, not_true_eq_false, or_true, Bool.false_or, Bool.true_and,
    if_true, if_false, Nat.zero_add, id_eq] at heq
  rw [if_neg Bool.false_ne_true] at heq
  split at heq
  · exact absurd (congrArg List.length heq) (by simp)
  · have hstring := append_cancel_left heq
    split at hstring
    · have hlt := hrest (optionByte escape)
      rw [← singleton_inj.mp hstring] at hlt
      exact absurd hlt (Nat.lt_irrefl _)
    · rw [← singleton_inj.mp hstring] at hslice
      omega

/-- **The four functions agree** on a string that fits into a line, unless the only delimiter
that is not escaped is its first byte. -/
theorem splitters_agree_iff (str delim : CStr) (escape comment : Option CStr) (hstr : 0 ∉ str)
    (hlen : str.length < memBufferMaxPrintf) (n m k : Int) (hn : n < 0 ∨ (str.length : Int) ≤ n)
    (hm : (str.length : Int) ≤ m) (hk : (str.length : Int) ≤ k) :
    (explodeStrInit [] str delim escape comment = explodeStrN str delim escape comment n ∧
      explodeStrN str delim escape comment n = explodeLargeStrN str delim escape comment m ∧
      explodeLargeStrN str delim escape comment m =
        explodeLargeStrNDelimM str delim 1 escape comment k) ↔
      ¬ OnlyFront str delim escape := by
  rw [explodeStrN_eq hstr hlen hn, explodeLargeStrNDelimM_eq (Int.le_refl 1), explodeLargeStrN_eq hstr hm,
    explodeLargeStrN_eq hstr hk]
  constructor
  · rintro ⟨hinit, -, -⟩ hfront
    exact explodeStrInit_ne hstr hlen hfront hinit
  · intro hfront
    exact ⟨explodeStrInit_eq hstr hlen hfront, rfl, rfl⟩

/-- `a,b` with a comma. -/
theorem splitters_agree_iff_comma :
    (explodeStrInit [] [97, 44, 98] [44] none none = explodeStrN [97, 44, 98] [44] none none (-1) ∧
      explodeStrN [97, 44, 98] [44] none none (-1) =
        explodeLargeStrN [97, 44, 98] [44] none none 3 ∧
      explodeLargeStrN [97, 44, 98] [44] none none 3 =
        explodeLargeStrNDelimM [97, 44, 98] [44] 1 none none 3) ↔
      ¬ OnlyFront [97, 44, 98] [44] none :=
  splitters_agree_iff [97, 44, 98] [44] none none (by decide) (by decide) (-1) 3 3 (by decide)
    (by decide) (by decide)

/-- `,a` with a comma: the whole string comes back behind the empty one. -/
theorem splitters_disagree_at_the_front :
    explodeStrInit [] [44, 97] [44] none none ≠ explodeStrN [44, 97] [44] none none (-1) := by
  decide

end Splitters

end StringArray

end BrbData
