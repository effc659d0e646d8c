import BrbFramework.Data.MemBuffer
import BrbFramework.Data.SpeedRegEx

/-!
# Replacing substrings

`SafeStringReplaceSubStrDup` goes on behind what it found by the size of the search string, so
an empty one is found again and again at the same place. Sizes of strings are counted up to a
limit, and what is longer is cut there. The calls are made on a string without a zero in it.
-/

namespace BrbData

open CStr Machine SpeedRegEx List

namespace SafeString

/-- `STRING_MAX_SIZE`. -/
abbrev stringMaxSize : Nat := 65535 * 32

/-- The loops that count up to the end of a string. -/
def countSz (str : CStr) : Nat := min str.length stringMaxSize

/-- `SafeStringAdd`. The size is an `int`, and fails as a size of memory where it is negative. -/
def safeStringAdd (strPtr : MemBuffer) (data : CStr) (dataSz : Nat) : Option MemBuffer :=
  if int32 dataSz < 0 then none else some (strPtr.add (data.take (int32 dataSz).toNat))

/-- The loop of the function below. It fails where `elem_count` overflows, and where `fuel` is
used up. -/
def replaceLoop (subStr newSubStr : CStr) : Nat → MemBuffer → CStr → Int → Option MemBuffer
  | 0, _, _, _ => none
  | fuel + 1, newStr, base, elemCount =>
    match strstr base subStr with
    | none => safeStringAdd newStr base (countSz base)
    | some lastpos =>
      (safeStringAdd newStr base lastpos).bind fun newStr =>
        (safeStringAdd newStr newSubStr (countSz newSubStr)).bind fun newStr =>
          if elemCount = -2147483648 then none
          else
            let base := base.drop (lastpos + countSz subStr)
            if elemCount - 1 = 0 then safeStringAdd newStr base (countSz base)
            else replaceLoop subStr newSubStr fuel newStr base (elemCount - 1)

/-- `SafeStringReplaceSubStrDup`, on a string in an allocation of `capacity` bytes. -/
def safeStringReplaceSubStrDup (fuel capacity : Nat) (str subStr newSubStr : CStr)
    (elemCount : Int32) : Option MemBuffer :=
  replaceLoop subStr newSubStr fuel (MemBuffer.new (capacity % 2 ^ 32)) str elemCount.toInt

/-! ## Replaced texts -/

/-- What is in front of each of the first `count` occurrences, and what is behind them. -/
def cut (subStr : CStr) : Nat → CStr → List CStr × CStr
  | 0, str => ([], str)
  | count + 1, str =>
    match strstr str subStr with
    | none => ([], str)
    | some pos =>
      let behind := cut subStr count (str.drop (pos + subStr.length))
      (str.take pos :: behind.1, behind.2)

/-- An empty string occurs in front of each byte, and at the end. -/
def spread (newSubStr : CStr) : Nat → CStr → CStr
  | 0, str => str
  | _ + 1, [] => newSubStr
  | count + 1, c :: str => newSubStr ++ c :: spread newSubStr count str

/-- How many are replaced: all, where there is no limit. -/
def countOf (elemCount : Int) (str : CStr) : Nat :=
  if 0 < elemCount then elemCount.toNat else str.length + 1

/-- The text with the first occurrences replaced. -/
def replaced (str subStr newSubStr : CStr) (count : Nat) : CStr :=
  if subStr = [] then spread newSubStr count str
  else
    (cut subStr count str).1.flatMap (· ++ newSubStr) ++ (cut subStr count str).2

def Returns (capacity : Nat) (str subStr newSubStr : CStr) (elemCount : Int32) : Prop :=
  ∃ fuel newStr, safeStringReplaceSubStrDup fuel capacity str subStr newSubStr elemCount =
      some newStr ∧
    newStr.bytes = replaced str subStr newSubStr (countOf elemCount.toInt str)

/-- Nothing is longer than the sizes that are counted, and an empty string is replaced once. -/
def Fits (str subStr newSubStr : CStr) (elemCount : Int) : Prop :=
  if subStr = [] then
    elemCount = 1 ∧ newSubStr.length ≤ stringMaxSize ∧ str.length ≤ stringMaxSize
  else
    let parts := cut subStr (countOf elemCount str) str
    parts.2.length ≤ stringMaxSize ∧
      (parts.1 ≠ [] → subStr.length ≤ stringMaxSize ∧ newSubStr.length ≤ stringMaxSize) ∧
      (∀ part ∈ parts.1, part.length < 2 ^ 31) ∧
      (elemCount ≤ 0 → parts.1.length ≤ 2 ^ 31 + elemCount)

section Adds

theorem take_countSz (str : CStr) : str.take (countSz str) = str.take stringMaxSize := by
  by_cases hle : str.length ≤ stringMaxSize
  · rw [countSz, Nat.min_eq_left hle, take_length, take_of_length_le hle]
  · rw [countSz, Nat.min_eq_right (by omega)]

theorem int32_bounds (n : Nat) : int32 n ≤ n ∧ int32 n < 2 ^ 31 := by
  unfold int32
  rw [Int.bmod_def]
  by_cases hlow : (n : Int) % ((4294967296 : Nat) : Int) < ((4294967296 : Nat) + 1) / 2
  · rw [if_pos hlow]
    omega
  · rw [if_neg hlow]
    omega

theorem toNat_int32_iff {n : Nat} : n ≤ (int32 n).toNat ↔ n < 2 ^ 31 := by
  have hbounds := int32_bounds n
  constructor
  · intro heq
    omega
  · intro hn
    rw [int32_of_lt (by omega) (by omega), Int.toNat_natCast]

variable {newStr : MemBuffer} {newSubStr subStr base : CStr} {pos : Nat} {elemCount : Int}

theorem add_countSz (h : newStr.Plain) (str : CStr) : ∃ added,
    safeStringAdd newStr str (countSz str) = some added ∧ added.Plain ∧
      added.bytes = newStr.bytes ++ str.take stringMaxSize := by
  have hle : countSz str ≤ 65535 * 32 := Nat.min_le_right _ _
  have hsize : int32 (countSz str) = countSz str := int32_of_lt (by omega) (by omega)
  refine ⟨newStr.add (str.take (countSz str)), ?_, h.add _, ?_⟩
  · rw [safeStringAdd, hsize, if_neg (by omega), Int.toNat_natCast]
  · rw [h.bytes_add, take_countSz]

theorem replaceLoop_found (h : newStr.Plain) (hpos : strstr base subStr = some pos) :
    ((int32 pos < 0 ∨ elemCount = -2147483648) ∧
      ∀ fuel, replaceLoop subStr newSubStr (fuel + 1) newStr base elemCount = none) ∨
    (0 ≤ int32 pos ∧ elemCount ≠ -2147483648) ∧ ∃ added : MemBuffer, added.Plain ∧
      added.bytes =
        newStr.bytes ++ (base.take (int32 pos).toNat ++ newSubStr.take stringMaxSize) ∧
      ∀ fuel, replaceLoop subStr newSubStr (fuel + 1) newStr base elemCount =
        if elemCount - 1 = 0 then
          safeStringAdd added (base.drop (pos + countSz subStr))
            (countSz (base.drop (pos + countSz subStr)))
        else
          replaceLoop subStr newSubStr fuel added (base.drop (pos + countSz subStr))
            (elemCount - 1) := by
  by_cases hneg : int32 pos < 0
  · refine .inl ⟨.inl hneg, ?_⟩
    intro fuel
    simp only [replaceLoop, hpos]
    rw [safeStringAdd, if_pos hneg, Option.bind_none]
  obtain ⟨added, hadd, hplain, hbytes⟩ :=
    add_countSz (h.add (base.take (int32 pos).toNat)) newSubStr
  have hfirst : safeStringAdd newStr base pos = some (newStr.add (base.take (int32 pos).toNat)) :=
    if_neg hneg
  by_cases hmin : elemCount = -2147483648
  · refine .inl ⟨.inr hmin, ?_⟩
    intro fuel
    simp only [replaceLoop, hpos]
    rw [hfirst, Option.bind_some, hadd, Option.bind_some, if_pos hmin]
  · refine .inr ⟨⟨by omega, hmin⟩, added, hplain, ?_, ?_⟩
    · rw [hbytes, h.bytes_add, append_assoc]
    · intro fuel
      simp only [replaceLoop, hpos]
      rw [hfirst, Option.bind_some, hadd, Option.bind_some, if_neg hmin]

end Adds

section Loop

variable {subStr newSubStr : CStr}

/-- What the loop adds: every size it hands over cuts what it is longer than. -/
def taken (newSubStr : CStr) (parts : List CStr × CStr) : CStr :=
  parts.1.flatMap (fun part =>
    part.take (int32 part.length).toNat ++ newSubStr.take stringMaxSize) ++
    parts.2.take stringMaxSize

def Counts (elemCount : Int) (base : CStr) (count : Nat) : Prop :=
  0 < elemCount ∧ count = elemCount.toNat ∨ elemCount ≤ 0 ∧ base.length < count

theorem Counts.pos {elemCount : Int} {base : CStr} {count : Nat} (h : Counts elemCount base count) :
    ∃ count', count = count' + 1 := by
  refine ⟨count - 1, ?_⟩
  rcases h with ⟨hpos, heq⟩ | ⟨-, hlt⟩
  · omega
  · omega

theorem Counts.step {elemCount : Int} {base : CStr} {count pos : Nat} (hsub : subStr ≠ [])
    (hpos : strstr base subStr = some pos) (h : Counts elemCount base (count + 1)) :
    pos ≤ base.length ∧ (base.drop (pos + subStr.length)).length < base.length ∧
      (elemCount - 1 = 0 → count = 0) ∧
      (elemCount - 1 ≠ 0 → Counts (elemCount - 1) (base.drop (pos + subStr.length)) count) := by
  have hle := ( strstr_prefix hpos).length_le
  have hlen := length_pos_of_ne_nil hsub
  rw [length_drop] at hle
  unfold Counts at h ⊢
  rw [length_drop]
  omega

theorem replaceLoop_some (hsub : subStr ≠ []) (fuel : Nat) :
    ∀ (newStr newStr' : MemBuffer) (base : CStr) (elemCount : Int) (count : Nat),
      newStr.Plain → Counts elemCount base count →
      ((cut subStr count base).1 ≠ [] → subStr.length ≤ stringMaxSize) →
      -2147483648 ≤ elemCount →
      replaceLoop subStr newSubStr fuel newStr base elemCount = some newStr' →
      (elemCount ≤ 0 → (cut subStr count base).1.length ≤ 2 ^ 31 + elemCount) ∧
        newStr'.bytes = newStr.bytes ++ taken newSubStr (cut subStr count base) := by
  induction fuel with
  | zero =>
    intro newStr newStr' base elemCount count _ _ _ _ hloop
    cases hloop
  | succ fuel ih =>
    intro newStr newStr' base elemCount count hplain hcount hsize hmin hloop
    obtain ⟨count, rfl⟩ := hcount.pos
    cases hpos : strstr base subStr with
    | none =>
      obtain ⟨added, hadd, -, hbytes⟩ := add_countSz hplain base
      simp only [replaceLoop, hpos, hadd, Option.some.injEq] at hloop
      simp only [cut, hpos, taken, flatMap_nil, nil_append, length_nil, ← hloop]
      exact ⟨fun _ => by omega, hbytes⟩
    | some pos =>
      simp only [cut, hpos, ne_eq, reduceCtorEq, not_false_eq_true, true_implies] at hsize ⊢
      obtain ⟨hle, -, hstop, hnext⟩ := hcount.step hsub hpos
      have hcountSz : countSz subStr = subStr.length := Nat.min_eq_left hsize
      have hpart : (base.take pos).length = pos := length_take_of_le hle
      have hbounds := int32_bounds pos
      have htake : base.take (int32 pos).toNat = (base.take pos).take (int32 pos).toNat := by
        rw [take_take, Nat.min_eq_left (by omega)]
      rcases @replaceLoop_found newStr newSubStr subStr base pos elemCount hplain hpos with
        ⟨-, hnone⟩ | ⟨⟨-, hne⟩, added, hplain', hbytes, heq⟩
      · rw [hnone] at hloop
        cases hloop
      rw [heq, hcountSz] at hloop
      by_cases hlast : elemCount - 1 = 0
      · rw [if_pos hlast] at hloop
        obtain ⟨added', hadd, -, hbytes'⟩ :=
          add_countSz hplain' (base.drop (pos + subStr.length))
        rw [hadd, Option.some.injEq] at hloop
        rw [hstop hlast, cut, ← hloop, hbytes', hbytes]
        refine ⟨fun hneg => by omega, ?_⟩
        simp [taken, hpart, htake]
      · rw [if_neg hlast] at hloop
        obtain ⟨hcounts, hbytes'⟩ := ih added newStr' _ _ count hplain' (hnext hlast)
          (fun _ => hsize) (by omega) hloop
        refine ⟨fun hneg => ?_, ?_⟩
        · rw [length_cons]
          have hrest := hcounts (by omega)
          omega
        · rw [hbytes', hbytes]
          simp [taken, hpart, htake]

theorem replaceLoop_ends (hsub : subStr ≠ []) (fuel : Nat) :
    ∀ (newStr : MemBuffer) (base : CStr) (elemCount : Int) (count : Nat),
      newStr.Plain → Counts elemCount base count → base.length < fuel →
      ((cut subStr count base).1 ≠ [] → subStr.length ≤ stringMaxSize) →
      (∀ part ∈ (cut subStr count base).1, part.length < 2 ^ 31) →
      (elemCount ≤ 0 → (cut subStr count base).1.length ≤ 2 ^ 31 + elemCount) →
      ∃ newStr', replaceLoop subStr newSubStr fuel newStr base elemCount = some newStr' := by
  induction fuel with
  | zero =>
    intro newStr base elemCount count _ _ hfuel
    omega
  | succ fuel ih =>
    intro newStr base elemCount count hplain hcount hfuel hsize hparts hcounts
    obtain ⟨count, rfl⟩ := hcount.pos
    cases hpos : strstr base subStr with
    | none =>
      obtain ⟨added, hadd, -, -⟩ := add_countSz hplain base
      exact ⟨added, by simp only [replaceLoop, hpos, hadd]⟩
    | some pos =>
      simp only [cut, hpos, ne_eq, reduceCtorEq, not_false_eq_true, true_implies,
        forall_mem_cons, length_cons] at hsize hparts hcounts
      obtain ⟨hle, hless, hstop, hnext⟩ := hcount.step hsub hpos
      have hcountSz : countSz subStr = subStr.length := Nat.min_eq_left hsize
      rw [length_take_of_le hle] at hparts
      have hint : int32 pos = pos := int32_of_lt (by omega) (by omega)
      rcases @replaceLoop_found newStr newSubStr subStr base pos elemCount hplain hpos with
        ⟨hfail, -⟩ | ⟨-, added, hplain', -, heq⟩
      · omega
      rw [heq, hcountSz]
      by_cases hlast : elemCount - 1 = 0
      · rw [if_pos hlast]
        obtain ⟨added', hadd, -, -⟩ := add_countSz hplain' (base.drop (pos + subStr.length))
        exact ⟨added', hadd⟩
      · rw [if_neg hlast]
        exact ih added _ _ count hplain' (hnext hlast) (by omega) (fun _ => hsize) hparts.2
          (fun hneg => by have hall := hcounts (by omega); omega)

theorem length_flatMap_le {f g : CStr → CStr} (hle : ∀ part, (f part).length ≤ (g part).length)
    (parts : List CStr) : (parts.flatMap f).length ≤ (parts.flatMap g).length ∧
      ((parts.flatMap f).length = (parts.flatMap g).length →
        ∀ part ∈ parts, (f part).length = (g part).length) := by
  induction parts with
  | nil => simp
  | cons part parts ih =>
    have hpart := hle part
    simp only [flatMap_cons, length_append, forall_mem_cons]
    exact ⟨by omega, fun heq => ⟨by omega, ih.2 (by omega)⟩⟩

theorem taken_iff (parts : List CStr × CStr) :
    taken newSubStr parts = parts.1.flatMap (· ++ newSubStr) ++ parts.2 ↔
      parts.2.length ≤ stringMaxSize ∧ (∀ part ∈ parts.1, part.length < 2 ^ 31) ∧
        (parts.1 ≠ [] → newSubStr.length ≤ stringMaxSize) := by
  have hle : ∀ part : CStr,
      (part.take (int32 part.length).toNat ++ newSubStr.take stringMaxSize).length ≤
        (part ++ newSubStr).length := by
    intro part
    simp only [length_append, length_take]
    omega
  constructor
  · intro heq
    have hlength := congrArg List.length heq
    have hall := length_flatMap_le hle parts.1
    rw [taken, length_append, length_append, length_take] at hlength
    have heach : ∀ part ∈ parts.1, part.length < 2 ^ 31 ∧ newSubStr.length ≤ stringMaxSize := by
      intro part hpart
      have hlen := hall.2 (by omega) part hpart
      simp only [length_append, length_take] at hlen
      exact ⟨toNat_int32_iff.mp (by omega), by omega⟩
    refine ⟨by omega, fun part hpart => (heach part hpart).1, fun hne => ?_⟩
    obtain ⟨part, hpart⟩ := exists_mem_of_ne_nil _ hne
    exact (heach part hpart).2
  · rintro ⟨hrest, hparts, hnew⟩
    rw [taken, take_of_length_le hrest]
    congr 1
    apply flatMap_congr
    intro part hpart
    rw [take_of_length_le (toNat_int32_iff.mpr (hparts part hpart)),
      take_of_length_le (hnew (ne_nil_of_mem hpart))]

end Loop

section Calls

variable {capacity : Nat} {str subStr newSubStr : CStr} {elemCount : Int32}

theorem counts_countOf (elemCount : Int) (str : CStr) :
    Counts elemCount str (countOf elemCount str) := by
  by_cases hpos : 0 < elemCount
  · exact .inl ⟨hpos, if_pos hpos⟩
  · exact .inr ⟨by omega, by rw [countOf, if_neg hpos]; omega⟩

theorem returns_iff_of_ne_nil (hsub : subStr ≠ [])
    (hsize : (cut subStr (countOf elemCount.toInt str) str).1 ≠ [] →
      subStr.length ≤ stringMaxSize) :
    Returns capacity str subStr newSubStr elemCount ↔ Fits str subStr newSubStr elemCount.toInt := by
  have hcounts := counts_countOf elemCount.toInt str
  have hplain := MemBuffer.plain_new (capacity % 2 ^ 32)
  have hmin : -2147483648 ≤ elemCount.toInt := Int32.le_toInt elemCount
  unfold Returns Fits replaced safeStringReplaceSubStrDup
  rw [if_neg hsub, if_neg hsub]
  constructor
  · rintro ⟨fuel, newStr, hloop, hbytes⟩
    have hsome := replaceLoop_some hsub fuel _ _ _ _ _ hplain hcounts hsize hmin hloop
    rw [hsome.2, MemBuffer.bytes_new, nil_append, taken_iff] at hbytes
    exact ⟨hbytes.1, fun hne => ⟨hsize hne, hbytes.2.2 hne⟩, hbytes.2.1, hsome.1⟩
  · rintro ⟨hrest, hfits, hparts, hleft⟩
    obtain ⟨newStr, hloop⟩ := @replaceLoop_ends subStr newSubStr hsub (str.length + 1) _ _ _ _
      hplain hcounts (Nat.lt_succ_self _) hsize hparts hleft
    have hsome := replaceLoop_some hsub _ _ _ _ _ _ hplain hcounts hsize hmin hloop
    refine ⟨_, newStr, hloop, ?_⟩
    rw [hsome.2, MemBuffer.bytes_new, nil_append, taken_iff]
    exact ⟨hrest, hparts, fun hne => (hfits hne).2⟩

theorem strstr_empty (str : CStr) : strstr str [] = some 0 := by
  cases str with
  | nil => rfl
  | cons c str => rfl

theorem replaceLoop_empty (fuel : Nat) : ∀ (newStr : MemBuffer) (base : CStr) (elemCount : Int),
    newStr.Plain → elemCount ≤ 0 →
    replaceLoop [] newSubStr fuel newStr base elemCount = none := by
  induction fuel with
  | zero =>
    intro newStr base elemCount _ _
    rfl
  | succ fuel ih =>
    intro newStr base elemCount hplain hneg
    rcases @replaceLoop_found newStr newSubStr [] base 0 elemCount hplain (strstr_empty base) with
      ⟨-, hnone⟩ | ⟨-, added, hplain', -, heq⟩
    · exact hnone fuel
    · rw [heq, if_neg (by omega)]
      exact ih _ _ _ hplain' (by omega)

theorem returns_iff_of_nil (hone : elemCount.toInt ≤ 1) :
    Returns capacity str [] newSubStr elemCount ↔ Fits str [] newSubStr elemCount.toInt := by
  have hplain := MemBuffer.plain_new (capacity % 2 ^ 32)
  unfold Returns Fits replaced safeStringReplaceSubStrDup
  rw [if_pos rfl, if_pos rfl]
  by_cases hpos : elemCount.toInt = 1
  · have hspread : spread newSubStr 1 str = newSubStr ++ str := by
      cases str with
      | nil => rw [spread, append_nil]
      | cons c str => rw [spread, spread]
    have hzero : int32 (0 : Nat) = 0 := int32_of_lt (by decide) (by decide)
    rcases @replaceLoop_found _ newSubStr [] str 0 1 hplain (strstr_empty str) with
      ⟨hfail, -⟩ | ⟨-, added, hplain', hbytes, heq⟩
    · omega
    obtain ⟨newStr, hadd, -, hbytes'⟩ := add_countSz hplain' str
    have htaken : newStr.bytes = taken newSubStr ([[]], str) := by
      rw [hbytes', hbytes, MemBuffer.bytes_new, hzero]
      simp [taken]
    have hloop : ∀ fuel, replaceLoop [] newSubStr (fuel + 1) (MemBuffer.new (capacity % 2 ^ 32))
        str 1 = some newStr := by
      intro fuel
      rw [heq, if_pos (by decide)]
      exact hadd
    have hfits := @taken_iff newSubStr ([[]], str)
    simp only [flatMap_cons, flatMap_nil, nil_append, append_nil,
      forall_mem_singleton, length_nil, ne_eq, cons_ne_nil, not_false_eq_true,
      true_implies, Nat.two_pow_pos, true_and, ← htaken] at hfits
    rw [hpos, show countOf 1 str = 1 from rfl, hspread]
    constructor
    · rintro ⟨fuel, newStr', hrun, heq'⟩
      cases fuel with
      | zero => cases hrun
      | succ fuel =>
        rw [hloop, Option.some.injEq] at hrun
        obtain ⟨hstr, hnew⟩ := hfits.mp (hrun ▸ heq')
        exact ⟨rfl, hnew, hstr⟩
    · rintro ⟨-, hnew, hstr⟩
      exact ⟨1, newStr, hloop 0, hfits.mpr ⟨hstr, hnew⟩⟩
  · constructor
    · rintro ⟨fuel, newStr, hloop, -⟩
      rw [replaceLoop_empty fuel _ _ _ hplain (by omega)] at hloop
      cases hloop
    · rintro ⟨heq, -⟩
      exact absurd heq hpos

end Calls

end SafeString

end BrbData
