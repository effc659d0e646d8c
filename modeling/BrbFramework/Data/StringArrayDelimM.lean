import Mathlib.Data.List.Infix
import BrbFramework.Data.StringArrayWalk

/-!
# Delimiters of several bytes

`StringArrayExplodeLargeStrNDelimM` looks for the whole delimiter and skips one byte of it:
the others stay in front of the next element. With no escape and no comment the byte 1
stands for both.
-/

namespace BrbData

namespace StringArray

open CStr List

/-- The pieces between the occurrences of `delim`, from the left to the right: `skip` bytes of
one are still to be passed over, and `piece` is what was read behind it. -/
def splitFrom (delim : CStr) : Nat → CStr → CStr → List CStr
  | _, piece, [] => [piece]
  | skip + 1, piece, _ :: rest => splitFrom delim skip piece rest
  | 0, piece, b :: rest =>
    if delim.isPrefixOf (b :: rest) then piece :: splitFrom delim (delim.length - 1) [] rest
    else splitFrom delim 0 (piece ++ [b]) rest

/-- The substrings of `str` between the occurrences of `delim`. -/
def splitOn (delim str : CStr) : List CStr := splitFrom delim 0 [] str

/-- A delimiter of one byte with which the byte 1 does no harm: it is not in front of a
delimiter, nor of a piece, nor in the last one. -/
def Harmless (delim str : CStr) : Prop :=
  ∃ d, delim = [d] ∧ ¬ [1, d] <:+: str ∧ (∀ x ∈ splitOn delim str, x.head? ≠ some 1) ∧
    ∀ x, (splitOn delim str).getLast? = some x → 1 ∉ x

theorem charAt_zero_eq_one_iff (piece : CStr) : piece.charAt 0 = 1 ↔ piece.head? = some 1 := by
  cases piece with
  | nil =>
    constructor
    · intro h
      exact absurd h (by decide)
    · intro h
      simp at h
  | cons b piece =>
    have hb : CStr.charAt (b :: piece) 0 = b := rfl
    rw [hb, head?_cons, Option.some_inj]

/-! ## One byte -/

section Byte

variable {d : UInt8}

theorem splitFrom_byte (rest : CStr) : ∀ piece : CStr,
    splitFrom [d] 0 piece rest = bytePieces d piece rest := by
  induction rest with
  | nil =>
    intro piece
    rfl
  | cons b rest ih =>
    intro piece
    rw [splitFrom, bytePieces]
    by_cases hb : b = d
    · have htoken : List.isPrefixOf [d] (b :: rest) = true := by simp [List.isPrefixOf, hb]
      rw [if_pos htoken, if_pos hb, ← ih]
      rfl
    · have htoken : ¬ List.isPrefixOf [d] (b :: rest) = true := by
        simp [List.isPrefixOf, Ne.symm hb]
      rw [if_neg htoken, if_neg hb, ih]

/-- The walk gives the pieces if it meets no delimiter, or if the byte 1 is neither in front of
one nor of a piece, nor in the last. -/
theorem walk_eq_bytePieces_iff (rest : CStr) : ∀ (prev : Option UInt8) (piece : CStr) (found : Bool),
    0 ∉ piece → 0 ∉ rest → (prev = none → piece = [] ∧ found = false) →
    (walk (isByte d) 1 1 id prev piece false found rest = bytePieces d piece rest ↔
      (found = false ∧ d ∉ rest) ∨
        (¬ [1, d] <:+: prev.toList ++ rest ∧
          (∀ x ∈ bytePieces d piece rest, x.head? ≠ some 1) ∧
          ∀ x, (bytePieces d piece rest).getLast? = some x → 1 ∉ x)) := by
  induction rest with
  | nil =>
    intro prev piece found hpiece _ hprev
    have hshort : ¬ [1, d] <:+: prev.toList ++ [] := by
      intro h
      have hle := h.length_le
      cases prev with
      | none => simp at hle
      | some q => simp at hle
    rw [walk]
    cases found with
    | false => simp [bytePieces]
    | true =>
      rw [if_pos rfl]
      simp only [charAt_zero_eq_one_iff, bytePieces, mem_singleton, forall_eq, getLast?_singleton,
        Option.some_inj, forall_eq', Bool.true_eq_false, false_and, false_or, hshort,
        not_false_eq_true, true_and]
      by_cases hone : piece.head? = some 1
      · rw [if_pos hone]
        simp [hone]
      · have hfilter : unescapeString piece 1 = piece ↔ 1 ∉ piece := by
          rw [unescapeString_eq hpiece, filter_eq_self]
          constructor
          · intro h hmem
            simpa using h 1 hmem
          · intro h b hb
            have hne : b ≠ 1 := fun heq => h (heq ▸ hb)
            simpa using hne
        rw [if_neg hone, if_pos (by decide), id, singleton_inj, hfilter]
        simp [hone]
  | cons b rest ih =>
    intro prev piece found hpiece hrest hprev
    obtain ⟨hb, hrest⟩ := not_or.mp (mem_cons.not.mp hrest)
    by_cases hd : b = d
    · subst hd
      have htoken : isByte b (b :: rest) = true := by simp [isByte]
      have hlong : (bytePieces b [] rest).length = rest.count b + 1 := length_bytePieces rest []
      have hne := bytePieces_ne_nil (d := b) rest []
      -- what a step that adds nothing leaves is too short
      have hless : ∀ (l : List CStr), l.length ≤ rest.count b + 1 →
          l ≠ piece :: bytePieces b [] rest := by
        intro l hl heq
        rw [heq, length_cons, hlong] at hl
        exact Nat.not_succ_le_self _ hl
      -- a step that adds the piece
      have hadd : ∀ q : Option UInt8, q ≠ some 1 → piece.head? ≠ some 1 →
          (piece :: walk (isByte b) 1 1 id (some b) [] false true rest =
              piece :: bytePieces b [] rest ↔
            ¬ [1, b] <:+: q.toList ++ b :: rest ∧
              (∀ x ∈ piece :: bytePieces b [] rest, x.head? ≠ some 1) ∧
              ∀ x, (piece :: bytePieces b [] rest).getLast? = some x → 1 ∉ x) := by
        intro q hq hhead
        have hsub : [1, b] <:+: q.toList ++ b :: rest ↔ [1, b] <:+: b :: rest := by
          cases q with
          | none => rfl
          | some q =>
            have hq' : 1 ≠ q := fun heq => hq (heq ▸ rfl)
            rw [Option.toList_some, singleton_append, infix_cons_iff,
              cons_prefix_cons]
            simp [hq']
        have hall := ih (some b) [] true (by simp) hrest (by simp)
        simp only [Bool.true_eq_false, false_and, false_or, Option.toList_some,
          singleton_append] at hall
        rw [cons_inj_right, hall, hsub, forall_mem_cons, getLast?_cons_of_ne_nil hne]
        simp [hhead]
      have hin : ¬ (found = false ∧ b ∉ b :: rest) := fun h => h.2 mem_cons_self
      rw [walk, bytePieces, if_pos htoken, if_pos rfl]
      cases prev with
      | none =>
        obtain ⟨rfl, -⟩ := hprev rfl
        rw [if_pos rfl, hadd none (by simp) (by simp)]
        simp
      | some q =>
        rw [if_neg (by simp)]
        by_cases hq : q = 1
        · subst hq
          rw [if_pos rfl]
          have hshort := hless _ (@length_walk_le b 1 1 id rest (some b) (piece ++ [b]) true found)
          have hsub : [1, b] <:+: (some 1).toList ++ b :: rest := ⟨[], rest, rfl⟩
          simp only [hshort, hin, hsub, not_true_eq_false, false_and, or_self]
        · rw [if_neg (by simpa using hq)]
          by_cases hhead : piece.head? = some 1
          · have hshort := hless _ (@length_walk_le b 1 1 id rest (some b) [] false true)
            have hbad : ¬ ∀ x ∈ piece :: bytePieces b [] rest, x.head? ≠ some 1 :=
              fun h => h piece mem_cons_self hhead
            rw [if_pos ((charAt_zero_eq_one_iff piece).mpr hhead)]
            simp only [hshort, hin, hbad, false_and, and_false, or_self]
          · rw [if_neg (mt (charAt_zero_eq_one_iff piece).mp hhead),
              if_neg Bool.false_ne_true, id, hadd (some q) (by simpa using hq) hhead]
            simp
    · have htoken : ¬ isByte d (b :: rest) = true := by simp [isByte, hd]
      have hpiece' : 0 ∉ piece ++ [b] := by simp [hpiece, hb]
      have hall := ih (some b) (piece ++ [b]) found hpiece' hrest (by simp)
      have hmem : d ∉ b :: rest ↔ d ∉ rest := by simp [Ne.symm hd]
      have hsub : [1, d] <:+: prev.toList ++ b :: rest ↔
          [1, d] <:+: (some b).toList ++ rest := by
        cases prev with
        | none => rfl
        | some q =>
          rw [Option.toList_some, singleton_append, infix_cons_iff,
            cons_prefix_cons, cons_prefix_cons]
          simp [Ne.symm hd]
      rw [walk, bytePieces, if_neg htoken, if_neg hd, hall, hmem, hsub]

end Byte

/-! ## Several bytes -/

section Several

variable {d d' : UInt8} {tail : CStr}

def weight (x : CStr) : Nat := x.countP (· ≠ 1)

theorem weight_append (x y : CStr) : weight (x ++ y) = weight x + weight y :=
  countP_append

theorem weight_cons (b : UInt8) (x : CStr) : weight (b :: x) = weight [b] + weight x :=
  weight_append [b] x

theorem weight_unescape {x : CStr} (h : 0 ∉ x) : weight (unescapeString x 1) = weight x := by
  rw [unescapeString_eq h, weight, countP_filter, weight]
  simp

theorem head?_unescape {x : CStr} (h : 0 ∉ x) : (unescapeString x 1).head? ≠ some 1 := by
  intro hhead
  rw [unescapeString_eq h] at hhead
  have hmem := (mem_filter.mp (mem_of_head? hhead)).2
  simp at hmem

theorem walk_comments (rest : CStr) : ∀ (prev : UInt8) (piece : CStr) (escape : Bool),
    (piece.head? = some 1 ∨ (piece = [] ∧ prev = d ∧ rest.head? = some 1)) →
    walk (d :: 1 :: tail).isPrefixOf 1 1 id (some prev) piece escape true rest = [] := by
  induction rest with
  | nil =>
    intro prev piece escape h
    have hhead : piece.head? = some 1 := by
      rcases h with h | ⟨-, -, h⟩
      · exact h
      · simp at h
    rw [walk, if_pos rfl, if_pos ((charAt_zero_eq_one_iff piece).mpr hhead)]
  | cons b rest ih =>
    intro prev piece escape h
    have hgrown : (piece ++ [b]).head? = some 1 := by
      rcases h with h | ⟨rfl, -, h⟩
      · rw [head?_append, h]
        rfl
      · exact h
    rw [walk]
    by_cases htoken : (d :: 1 :: tail).isPrefixOf (b :: rest) = true
    · have hprefix := isPrefixOf_iff_prefix.mp htoken
      obtain ⟨hb, hrest⟩ := cons_prefix_cons.mp hprefix
      have hhead : rest.head? = some 1 := by
        obtain ⟨back, hback⟩ := hrest
        rw [← hback]
        rfl
      rw [if_pos htoken, if_neg (by simp)]
      by_cases hprev : prev = 1
      · rw [if_pos (by rw [hprev])]
        exact ih b _ _ (.inl hgrown)
      · rw [if_neg (by simpa using hprev)]
        have hpiece : piece.head? = some 1 := by
          rcases h with h | ⟨-, hd, h⟩
          · exact h
          · -- a delimiter that begins with a 1 is behind a 1
            rw [head?_cons, Option.some_inj] at h
            exact absurd (hd.trans (hb.trans h)) hprev
        rw [if_pos ((charAt_zero_eq_one_iff piece).mpr hpiece)]
        exact ih b [] _ (.inr ⟨rfl, hb.symm, hhead⟩)
    · rw [if_neg htoken]
      exact ih b _ _ (.inl hgrown)

theorem length_walk_comments (rest : CStr) : ∀ (prev : Option UInt8) (piece : CStr) (escape : Bool),
    (prev = none → piece = []) →
    (walk (d :: 1 :: tail).isPrefixOf 1 1 id prev piece escape false rest).length ≤ 1 := by
  induction rest with
  | nil =>
    intro prev piece escape _
    rw [walk, if_neg Bool.false_ne_true]
    exact Nat.le_refl 1
  | cons b rest ih =>
    intro prev piece escape _
    rw [walk]
    by_cases htoken : (d :: 1 :: tail).isPrefixOf (b :: rest) = true
    · obtain ⟨hb, back, hback⟩ := cons_prefix_cons.mp ( isPrefixOf_iff_prefix.mp htoken)
      have hnone : ∀ escape, walk (d :: 1 :: tail).isPrefixOf 1 1 id (some b) [] escape true rest =
          [] := by
        intro escape
        exact walk_comments rest b [] escape (.inr ⟨rfl, hb.symm, by rw [← hback]; rfl⟩)
      rw [if_pos htoken]
      split
      · rw [hnone]
        exact Nat.le_refl 1
      · split
        · exact ih _ _ _ (by simp)
        · split
          · rw [hnone]
            exact Nat.zero_le 1
          · rw [hnone]
            exact Nat.le_refl 1
    · rw [if_neg htoken]
      exact ih _ _ _ (by simp)

/-- Behind a delimiter whose second byte is none nothing is, and each further delimiter takes
its first byte away. -/
theorem walk_weights (hd' : d' ≠ 1) (rest : CStr) : ∀ (prev : UInt8) (piece : CStr) (escape : Bool),
    0 ∉ piece → 0 ∉ rest → piece.head? ≠ some 1 → (piece = [] → rest.head? ≠ some 1) →
    ∃ x l, walk (d :: d' :: tail).isPrefixOf 1 1 id (some prev) piece escape true rest = x :: l ∧
      x.head? ≠ some 1 ∧ weight x + weight l.flatten + l.length * weight [d] =
        weight piece + weight rest := by
  induction rest with
  | nil =>
    intro prev piece escape hpiece _ hhead _
    rw [walk, if_pos rfl, if_neg (mt (charAt_zero_eq_one_iff piece).mp hhead)]
    refine ⟨unescapeString piece 1, [], rfl, head?_unescape hpiece, ?_⟩
    rw [weight_unescape hpiece]
    simp
  | cons b rest ih =>
    intro prev piece escape hpiece hall hhead hnil
    obtain ⟨hb, hrest⟩ := not_or.mp (mem_cons.not.mp hall)
    have hgrown : (piece ++ [b]).head? ≠ some 1 := by
      cases piece with
      | nil => exact hnil rfl
      | cons a piece => exact hhead
    have hgrownZero : 0 ∉ piece ++ [b] := by simp [hpiece, hb]
    have hweight : weight (piece ++ [b]) + weight rest = weight piece + weight (b :: rest) := by
      rw [weight_append, weight_cons b rest, Nat.add_assoc]
    rw [walk]
    by_cases htoken : (d :: d' :: tail).isPrefixOf (b :: rest) = true
    · obtain ⟨hbd, back, hback⟩ := cons_prefix_cons.mp ( isPrefixOf_iff_prefix.mp htoken)
      subst hbd
      rw [if_pos htoken, if_neg (by simp)]
      by_cases hprev : some prev = some 1
      · rw [if_pos hprev, ← hweight]
        exact ih d _ _ hgrownZero hrest hgrown (by simp)
      · rw [if_neg hprev, if_neg (mt (charAt_zero_eq_one_iff piece).mp hhead)]
        have hfirst : rest.head? ≠ some 1 := by
          rw [← hback]
          simpa using hd'
        obtain ⟨x, l, hwalk, -, hsum⟩ := ih d [] false (by simp) hrest (by simp) fun _ => hfirst
        rw [hwalk]
        have helement : weight (id (if escape then unescapeString piece 1 else piece)) =
            weight piece ∧ (id (if escape then unescapeString piece 1 else piece)).head? ≠ some 1 := by
          cases escape with
          | true => exact ⟨weight_unescape hpiece, head?_unescape hpiece⟩
          | false => exact ⟨rfl, hhead⟩
        refine ⟨_, x :: l, rfl, helement.2, ?_⟩
        have hzero : weight [] = 0 := rfl
        rw [helement.1, flatten_cons, weight_append, length_cons, Nat.succ_mul,
          weight_cons d rest]
        omega
    · rw [if_neg htoken, ← hweight]
      exact ih b _ _ hgrownZero hrest hgrown (by simp)

theorem walk_start (hd' : d' ≠ 1) (rest : CStr) :
    ∀ (prev : Option UInt8) (piece : CStr) (escape : Bool) (l : List CStr),
    0 ∉ piece → 0 ∉ rest → (prev = none → piece = []) →
    walk (d :: d' :: tail).isPrefixOf 1 1 id prev piece escape false rest = l →
    l.length ≤ 1 ∨
    (∃ x m, l = x :: m ∧ x.head? ≠ some 1 ∧ (piece ++ rest).head? = some 1 ∧
      (prev = none → (d :: d' :: tail).isPrefixOf rest = false)) ∨
    ∃ x m, l = x :: m ∧ weight x + weight m.flatten + m.length * weight [d] =
      weight piece + weight rest := by
  induction rest with
  | nil =>
    intro prev piece escape l _ _ _ hl
    rw [walk, if_neg Bool.false_ne_true] at hl
    left
    rw [← hl]
    exact Nat.le_refl 1
  | cons b rest ih =>
    intro prev piece escape l hpiece hall hprev hl
    obtain ⟨hb, hrest⟩ := not_or.mp (mem_cons.not.mp hall)
    have hgrownZero : 0 ∉ piece ++ [b] := by simp [hpiece, hb]
    have hgrown : (piece ++ [b]) ++ rest = piece ++ b :: rest := by simp
    have hweight : weight (piece ++ [b]) + weight rest = weight piece + weight (b :: rest) := by
      rw [weight_append, weight_cons b rest, Nat.add_assoc]
    rw [walk] at hl
    by_cases htoken : (d :: d' :: tail).isPrefixOf (b :: rest) = true
    · obtain ⟨hbd, back, hback⟩ := cons_prefix_cons.mp ( isPrefixOf_iff_prefix.mp htoken)
      subst hbd
      have hfirst : rest.head? ≠ some 1 := by
        rw [← hback]
        simpa using hd'
      have hzero : weight [] = 0 := rfl
      -- a step that adds the element `y`, which weighs what the piece does
      have hadd : ∀ (y : CStr) (escape : Bool), weight y = weight piece →
          ∃ x m, y :: walk (d :: d' :: tail).isPrefixOf 1 1 id (some d) [] escape true rest =
            x :: m ∧ weight x + weight m.flatten + m.length * weight [d] =
              weight piece + weight (d :: rest) := by
        intro y escape hy
        obtain ⟨x, m, hwalk, -, hsum⟩ := @walk_weights d d' tail hd' rest d [] escape (by simp) hrest
          (by simp) (fun _ => hfirst)
        refine ⟨y, x :: m, by rw [hwalk], ?_⟩
        rw [hy, flatten_cons, weight_append, length_cons, Nat.succ_mul, weight_cons d rest]
        omega
      rw [if_pos htoken] at hl
      by_cases hnone : prev = none
      · rw [if_pos hnone] at hl
        right; right
        rw [← hl]
        exact hadd [] escape (by rw [hprev hnone])
      rw [if_neg hnone] at hl
      by_cases hone : prev = some 1
      · rw [if_pos hone] at hl
        rcases ih (some d) (piece ++ [d]) true l hgrownZero hrest (by simp) hl with
          hshort | ⟨x, m, heq, hhead, hstr, -⟩ | hsum
        · exact .inl hshort
        · refine .inr (.inl ⟨x, m, heq, hhead, by rw [← hgrown]; exact hstr, ?_⟩)
          intro habsurd
          exact absurd habsurd hnone
        · rw [hweight] at hsum
          exact .inr (.inr hsum)
      rw [if_neg hone] at hl
      by_cases hcomment : piece.charAt 0 = 1
      · rw [if_pos hcomment] at hl
        obtain ⟨x, m, hwalk, hhead, -⟩ := @walk_weights d d' tail hd' rest d [] escape (by simp)
          hrest (by simp) (fun _ => hfirst)
        refine .inr (.inl ⟨x, m, hl.symm.trans hwalk, hhead, ?_, fun habsurd => absurd habsurd hnone⟩)
        rw [head?_append, (charAt_zero_eq_one_iff piece).mp hcomment]
        rfl
      · rw [if_neg hcomment] at hl
        right; right
        rw [← hl]
        apply hadd
        cases escape with
        | true => exact weight_unescape hpiece
        | false => rfl
    · rw [if_neg htoken] at hl
      rcases ih (some b) (piece ++ [b]) escape l hgrownZero hrest (by simp) hl with
        hshort | ⟨x, m, heq, hhead, hstr, -⟩ | hsum
      · exact .inl hshort
      · refine .inr (.inl ⟨x, m, heq, hhead, by rw [← hgrown]; exact hstr, ?_⟩)
        intro _
        exact Bool.eq_false_iff.mpr htoken
      · rw [hweight] at hsum
        exact .inr (.inr hsum)

/-! ### The pieces -/

variable {delim : CStr}

theorem splitFrom_skip (back : CStr) : ∀ (skipped piece : CStr),
    splitFrom delim skipped.length piece (skipped ++ back) = splitFrom delim 0 piece back := by
  intro skipped
  induction skipped with
  | nil =>
    intro piece
    rfl
  | cons b skipped ih =>
    intro piece
    rw [cons_append, length_cons, splitFrom]
    exact ih piece

/-- The pieces and the delimiters between them weigh what the string does, and where there is
a delimiter there are two pieces. -/
theorem splitFrom_weights (hne : delim ≠ []) (n : Nat) : ∀ rest piece : CStr, rest.length ≤ n →
    ∃ x m, splitFrom delim 0 piece rest = x :: m ∧
      weight x + weight m.flatten + m.length * weight delim = weight piece + weight rest ∧
      (delim <:+: rest → 0 < m.length) := by
  induction n with
  | zero =>
    intro rest piece hlength
    have hnil : rest = [] := length_eq_zero_iff.mp (Nat.le_zero.mp hlength)
    subst hnil
    refine ⟨piece, [], rfl, by simp, ?_⟩
    intro hsub
    exact absurd (infix_nil.mp hsub) hne
  | succ n ih =>
    intro rest piece hlength
    cases rest with
    | nil =>
      refine ⟨piece, [], rfl, by simp, ?_⟩
      intro hsub
      exact absurd (infix_nil.mp hsub) hne
    | cons b rest =>
      simp only [length_cons] at hlength
      rw [splitFrom]
      by_cases htoken : delim.isPrefixOf (b :: rest) = true
      · obtain ⟨back, hback⟩ := isPrefixOf_iff_prefix.mp htoken
        obtain ⟨d, behind, rfl⟩ := exists_cons_of_ne_nil hne
        rw [cons_append] at hback
        obtain ⟨rfl, rfl⟩ := List.cons.inj hback
        rw [length_append] at hlength
        obtain ⟨x, m, hsplit, hsum, -⟩ := ih back [] (by omega)
        have hskip := @splitFrom_skip (d :: behind) back behind []
        rw [if_pos htoken, length_cons, Nat.add_sub_cancel, hskip, hsplit]
        refine ⟨piece, x :: m, rfl, ?_, fun _ => Nat.succ_pos _⟩
        have hzero : weight [] = 0 := rfl
        rw [flatten_cons, weight_append, length_cons, Nat.succ_mul, ← cons_append,
          weight_append (d :: behind)]
        omega
      · obtain ⟨x, m, hsplit, hsum, hlong⟩ := ih rest (piece ++ [b]) (by omega)
        rw [if_neg htoken]
        refine ⟨x, m, hsplit, ?_, ?_⟩
        · rw [hsum, weight_append, weight_cons b rest, Nat.add_assoc]
        · intro hsub
          rcases infix_cons_iff.mp hsub with hprefix | hsub
          · exact absurd ( isPrefixOf_iff_prefix.mpr hprefix) htoken
          · exact hlong hsub

theorem head?_splitFrom (rest : CStr) : ∀ (piece : CStr), piece ≠ [] → ∀ x m,
    splitFrom delim 0 piece rest = x :: m → x.head? = piece.head? := by
  induction rest with
  | nil =>
    intro piece _ x m h
    rw [(List.cons.inj h).1]
  | cons b rest ih =>
    intro piece hpiece x m h
    rw [splitFrom] at h
    by_cases htoken : delim.isPrefixOf (b :: rest) = true
    · rw [if_pos htoken] at h
      rw [(List.cons.inj h).1]
    · rw [if_neg htoken] at h
      rw [ih (piece ++ [b]) (by simp) x m h, head?_append_of_ne_nil _ hpiece]

theorem walk_ne_splitOn {str : CStr} (hstr : 0 ∉ str) (hd' : d' ≠ 0)
    (hoccurs : (d :: d' :: tail) <:+: str) :
    walk (d :: d' :: tail).isPrefixOf 1 1 id none [] false false str ≠
      splitOn (d :: d' :: tail) str := by
  intro heq
  obtain ⟨x, m, hsplit, hsum, hlong⟩ :=
    @splitFrom_weights (d :: d' :: tail) (by simp) str.length str [] (Nat.le_refl _)
  have hpos := hlong hoccurs
  rw [splitOn, hsplit] at heq
  by_cases hone : d' = 1
  · subst hone
    have hshort := @length_walk_comments d tail str none [] false fun _ => rfl
    rw [heq, length_cons] at hshort
    omega
  · rcases walk_start hone str none [] false _ (by simp) hstr (fun _ => rfl) heq with
      hshort | ⟨y, l, hy, hhead, hstr₁, hnone⟩ | ⟨y, l, hy, hsum'⟩
    · rw [length_cons] at hshort
      omega
    · -- the comment at the front is skipped
      obtain ⟨rfl, rfl⟩ := List.cons.inj hy
      cases str with
      | nil => simp at hstr₁
      | cons b str =>
        rw [splitFrom, if_neg (Bool.eq_false_iff.mp (hnone rfl))] at hsplit
        have hfront := head?_splitFrom str [b] (by simp) x m hsplit
        rw [hfront] at hhead
        exact hhead hstr₁
    · -- only a byte of each delimiter is taken away
      obtain ⟨rfl, rfl⟩ := List.cons.inj hy
      have hdelim : weight (d :: d' :: tail) = weight [d] + (1 + weight tail) := by
        have hd'₁ : weight [d'] = 1 := by simp [weight, hone]
        rw [weight_cons d, weight_cons d', hd'₁]
      have hless : m.length * weight [d] < m.length * weight (d :: d' :: tail) :=
        Nat.mul_lt_mul_of_pos_left (by omega) hpos
      omega

end Several

/-! ## The elements and the pieces -/

theorem walk_of_absent {delim : CStr} {e c : UInt8} {line : CStr → CStr} (rest : CStr) :
    ∀ (prev : Option UInt8) (piece : CStr) (escape : Bool), delim ≠ [] → ¬ delim <:+: rest →
      walk delim.isPrefixOf e c line prev piece escape false rest = [piece ++ rest] ∧
        splitFrom delim 0 piece rest = [piece ++ rest] := by
  induction rest with
  | nil =>
    intro prev piece escape _ _
    rw [append_nil]
    exact ⟨rfl, rfl⟩
  | cons b rest ih =>
    intro prev piece escape hne hnone
    have htoken : ¬ delim.isPrefixOf (b :: rest) = true := by
      intro h
      exact hnone ( isPrefixOf_iff_prefix.mp h).isInfix
    have hall := ih (some b) (piece ++ [b]) escape hne fun h => hnone (infix_cons h)
    rw [walk, splitFrom, if_neg htoken, if_neg htoken]
    simpa using hall

/-- `a::b` with the delimiter `::`. -/
def doubleColon : CStr := [':', ':'].map Char.toUInt8

end StringArray

end BrbData
