import Mathlib.Algebra.GroupWithZero.Nat
import BrbFramework.Data.StringArrayExplode

/-!
# Decoding a URL

`BrbStrUrlDecode` decodes a string where it lies: what it writes stays behind what it
reads, so it reads the string as it was. It never looks behind the zero that ends the
string, which the model does not allocate anything behind.
-/

namespace BrbData

namespace UrlDecode

open CStr List

/-- The `%`. -/
def percent : UInt8 := '%'.toUInt8

/-- The bytes that `sscanf` takes for white space. -/
def isSpace (c : UInt8) : Bool := c = ' '.toUInt8 || (9 ≤ c && c ≤ 13)

/-- `sscanf(hexnum, "%x", &x)`: white space is skipped, and there may be a sign and a `0x`
in front of the digits. -/
def sscanfX (hexnum : CStr) : Option Nat :=
  let text : CStr := hexnum.dropWhile isSpace
  let negative := text.head? = some '-'.toUInt8
  let text : CStr := if negative ∨ text.head? = some '+'.toUInt8 then text.tail else text
  let text : CStr :=
    if text.charAt 0 = '0'.toUInt8 ∧ (text.charAt 1 = 'x'.toUInt8 ∨ text.charAt 1 = 'X'.toUInt8)
    then text.drop 2 else text
  let digits := (text.map hexDigit).takeWhile Option.isSome
  let x := digits.foldl (fun x d => 16 * x + d.getD 0) 0
  if digits = [] then none else some (if negative then (2 ^ 32 - x) % 2 ^ 32 else x)

/-- The loop, which reads at `j` and writes at `i`. It fails where it leaves the string
and where `fuel` is used up. -/
def urlDecodeLoop : Nat → List UInt8 → Nat → Nat → Option (List UInt8 × Nat)
  | 0, _, _, _ => none
  | fuel + 1, buf, i, j => do
    let c ← buf[j]?
    if c = 0 then some (buf, i)
    else do
      let buf ← put buf i c
      if c ≠ percent then urlDecodeLoop fuel buf (i + 1) (j + 1)
      else do
        let c₁ ← buf[j + 1]?
        -- `%%` case
        if c₁ = percent then urlDecodeLoop fuel buf (i + 1) (j + 2)
        else if c₁ = 0 then urlDecodeLoop fuel buf (i + 1) (j + 1)
        else do
          let c₂ ← buf[j + 2]?
          if c₂ = 0 then urlDecodeLoop fuel buf (i + 1) (j + 1)
          -- `%00` case
          else if c₁ = '0'.toUInt8 ∧ c₂ = '0'.toUInt8 then urlDecodeLoop fuel buf (i + 1) (j + 3)
          else
            match sscanfX [c₁, c₂] with
            | some x => do
              let buf ← put buf i (UInt8.ofNat (x &&& 0xff))
              urlDecodeLoop fuel buf (i + 1) (j + 3)
            | none => urlDecodeLoop fuel buf (i + 1) (j + 1)

/-- `BrbStrUrlDecode`: what it returns and the string that it leaves. -/
def urlDecode (fuel : Nat) (buf : List UInt8) : Option (Nat × List UInt8) := do
  let (buf, i) ← urlDecodeLoop fuel buf 0 0
  let buf ← put buf i 0
  return (strlen buf, buf)

/-- `t` encodes `s`: any byte may be written as its two hexadecimal digits behind a `%`, and
every `%` is. -/
inductive Encodes : CStr → CStr → Prop
  | nil : Encodes [] []
  | plain {c : UInt8} {s t : CStr} : c ≠ percent → Encodes s t → Encodes (c :: s) (c :: t)
  | escaped {c d₁ d₂ : UInt8} {x₁ x₂ : Nat} {s t : CStr} : hexDigit d₁ = some x₁ →
      hexDigit d₂ = some x₂ → c.toNat = 16 * x₁ + x₂ → Encodes s t →
      Encodes (c :: s) (percent :: d₁ :: d₂ :: t)

/-! ## What is written -/

/-- What the loop makes of `t`. -/
def decoded : CStr → CStr
  | [] => []
  | [c] => [c]
  | [c, c₁] => if c = percent ∧ c₁ = percent then [c] else c :: decoded [c₁]
  | c :: c₁ :: c₂ :: t =>
    if c ≠ percent then c :: decoded (c₁ :: c₂ :: t)
    else if c₁ = percent then c :: decoded (c₂ :: t)
    else if c₁ = '0'.toUInt8 ∧ c₂ = '0'.toUInt8 then c :: decoded t
    else
      match sscanfX [c₁, c₂] with
      | some x => UInt8.ofNat (x &&& 0xff) :: decoded t
      | none => c :: decoded (c₁ :: c₂ :: t)

theorem decoded_cons_of_ne {c : UInt8} (hc : c ≠ percent) (t : CStr) :
    decoded (c :: t) = c :: decoded t := by
  rcases t with _ | ⟨c₁, _ | ⟨c₂, t⟩⟩
  · rfl
  · simp [decoded, hc]
  · rw [decoded, if_pos hc]

theorem length_decoded_le (n : Nat) : ∀ t : CStr, t.length ≤ n → (decoded t).length ≤ t.length := by
  induction n with
  | zero =>
    intro t ht
    have hnil : t = [] := length_eq_zero_iff.mp (Nat.le_zero.mp ht)
    subst hnil
    exact Nat.le_refl 0
  | succ n ih =>
    intro t ht
    rcases t with _ | ⟨c, _ | ⟨c₁, _ | ⟨c₂, t⟩⟩⟩
    · exact Nat.le_refl 0
    · exact Nat.le_refl 1
    · rw [decoded]
      split <;> simp [decoded]
    · simp only [length_cons] at ht
      have hone := ih (c₁ :: c₂ :: t) (by simp only [length_cons]; omega)
      have htwo := ih (c₂ :: t) (by simp only [length_cons]; omega)
      have hthree := ih t (by omega)
      simp only [length_cons] at hone htwo
      rw [decoded]
      by_cases hc : c ≠ percent
      · rw [if_pos hc]
        simp only [length_cons]
        omega
      · rw [if_neg hc]
        by_cases hc₁ : c₁ = percent
        · rw [if_pos hc₁]
          simp only [length_cons]
          omega
        · rw [if_neg hc₁]
          by_cases hzero : c₁ = '0'.toUInt8 ∧ c₂ = '0'.toUInt8
          · rw [if_pos hzero]
            simp only [length_cons]
            omega
          · rw [if_neg hzero]
            cases sscanfX [c₁, c₂] with
            | some x =>
              simp only [length_cons]
              omega
            | none =>
              simp only [length_cons]
              omega

/-! ## The loop -/

theorem read_behind (front t : List UInt8) (k : Nat) : (front ++ t)[front.length + k]? = t[k]? := by
  rw [getElem?_append_right (Nat.le_add_right _ _), Nat.add_sub_cancel_left]

theorem put_front (out gap t : List UInt8) (c b : UInt8) :
    ∃ gap', gap'.length = gap.length ∧
      put (out ++ gap ++ c :: t) out.length b = some ((out ++ [b]) ++ gap' ++ t) := by
  cases gap with
  | nil =>
    refine ⟨[], rfl, ?_⟩
    rw [put, if_pos (by simp)]
    simp
  | cons g gap =>
    refine ⟨gap ++ [c], by simp, ?_⟩
    rw [put, if_pos (by simp)]
    simp

theorem put_again (out rest : List UInt8) (c b : UInt8) :
    put ((out ++ [c]) ++ rest) out.length b = some ((out ++ [b]) ++ rest) := by
  rw [put, if_pos (by simp)]
  simp

theorem urlDecodeLoop_eq (fuel : Nat) : ∀ t out gap : List UInt8, 0 ∉ t → t.length < fuel →
    ∃ rest, rest ≠ [] ∧
      urlDecodeLoop fuel (out ++ gap ++ (t ++ [0])) out.length (out.length + gap.length) =
        some (out ++ decoded t ++ rest, out.length + (decoded t).length) := by
  induction fuel with
  | zero =>
    intro t out gap ht hfuel
    exact absurd hfuel (Nat.not_lt_zero _)
  | succ fuel ih =>
    intro t out gap ht hfuel
    -- the rounds that follow a byte `b` and `skip` bytes which are passed over
    have hnext : ∀ (b : UInt8) (gap' skip t' : List UInt8), gap'.length = gap.length →
        0 ∉ t' → t'.length < fuel → ∃ rest, rest ≠ [] ∧
          urlDecodeLoop fuel ((out ++ [b]) ++ gap' ++ (skip ++ (t' ++ [0]))) (out.length + 1)
              (out.length + gap.length + (skip.length + 1)) =
            some (out ++ (b :: decoded t') ++ rest, out.length + (b :: decoded t').length) := by
      intro b gap' skip t' hgap ht' hfuel'
      obtain ⟨rest, hrest, hloop⟩ := ih t' (out ++ [b]) (gap' ++ skip) ht' hfuel'
      refine ⟨rest, hrest, ?_⟩
      have hi : (out ++ [b]).length = out.length + 1 := by simp
      have hj : (out ++ [b]).length + (gap' ++ skip).length =
          out.length + gap.length + (skip.length + 1) := by
        rw [hi, length_append, hgap]
        omega
      rw [hj, hi] at hloop
      have hmemory : (out ++ [b]) ++ gap' ++ (skip ++ (t' ++ [0])) =
          out ++ [b] ++ (gap' ++ skip) ++ (t' ++ [0]) := by simp
      have hout : out ++ (b :: decoded t') ++ rest = out ++ [b] ++ decoded t' ++ rest := by simp
      have hlen : out.length + (b :: decoded t').length =
          out.length + 1 + (decoded t').length := by
        simp only [length_cons]
        omega
      rw [hmemory, hloop, hout, hlen]
    have hfront : out.length + gap.length = (out ++ gap).length := by simp
    cases t with
    | nil =>
      have hread : (out ++ gap ++ ([] ++ [0]))[out.length + gap.length]? = some 0 := by
        rw [hfront]
        exact read_behind (out ++ gap) [0] 0
      refine ⟨gap ++ [0], by simp, ?_⟩
      rw [urlDecodeLoop, hread]
      simp [decoded]
    | cons c t =>
      obtain ⟨hc, ht⟩ := not_or.mp (mem_cons.not.mp ht)
      simp only [length_cons] at hfuel
      obtain ⟨gap', hgap, hput⟩ := put_front out gap (t ++ [0]) c c
      have hfront' : out.length + gap.length + 1 = ((out ++ [c]) ++ gap').length := by
        simp [hgap]
        omega
      have hread : (out ++ gap ++ (c :: t ++ [0]))[out.length + gap.length]? = some c := by
        rw [hfront]
        exact read_behind (out ++ gap) (c :: t ++ [0]) 0
      have hread₁ : ((out ++ [c]) ++ gap' ++ (t ++ [0]))[out.length + gap.length + 1]? =
          (t ++ [0])[0]? := by
        rw [hfront']
        exact read_behind ((out ++ [c]) ++ gap') (t ++ [0]) 0
      have hread₂ : ((out ++ [c]) ++ gap' ++ (t ++ [0]))[out.length + gap.length + 2]? =
          (t ++ [0])[1]? := by
        rw [show out.length + gap.length + 2 = ((out ++ [c]) ++ gap').length + 1 by omega]
        exact read_behind ((out ++ [c]) ++ gap') (t ++ [0]) 1
      rw [urlDecodeLoop, hread]
      simp only [Option.bind_eq_bind, Option.bind_some, if_neg (Ne.symm hc), cons_append, hput]
      have hplain := hnext c gap' [] t hgap ht (by omega)
      by_cases hpercent : c ≠ percent
      · rw [if_pos hpercent, decoded_cons_of_ne hpercent]
        exact hplain
      rw [if_neg hpercent, hread₁]
      cases t with
      | nil =>
        have hzero : (0 : UInt8) ≠ percent := by decide
        simp only [nil_append, getElem?_cons_zero, Option.bind_some, if_neg hzero, if_pos]
        exact hplain
      | cons c₁ t =>
        obtain ⟨hc₁, ht⟩ := not_or.mp (mem_cons.not.mp ht)
        simp only [length_cons] at hfuel
        simp only [cons_append, getElem?_cons_zero, Option.bind_some] at hread₂ ⊢
        have htwo := hnext c gap' [c₁] t hgap ht (by omega)
        by_cases hpercent₁ : c₁ = percent
        · rw [if_pos hpercent₁]
          have hdecoded : decoded (c :: c₁ :: t) = c :: decoded t := by
            cases t with
            | nil => simp [decoded, not_not.mp hpercent, hpercent₁]
            | cons c₂ t => rw [decoded, if_neg hpercent, if_pos hpercent₁]
          rw [hdecoded]
          exact htwo
        rw [if_neg hpercent₁, if_neg (Ne.symm hc₁), hread₂]
        cases t with
        | nil =>
          have hdecoded : decoded [c, c₁] = c :: decoded [c₁] := by
            simp [decoded, hpercent₁]
          simp only [nil_append, getElem?_cons_succ, getElem?_cons_zero,
            Option.bind_some, if_pos]
          rw [hdecoded]
          exact hplain
        | cons c₂ t =>
          obtain ⟨hc₂, ht⟩ := not_or.mp (mem_cons.not.mp ht)
          simp only [length_cons] at hfuel
          simp only [cons_append, getElem?_cons_succ, getElem?_cons_zero,
            Option.bind_some, if_neg (Ne.symm hc₂)]
          rw [decoded, if_neg hpercent, if_neg hpercent₁]
          by_cases hzero : c₁ = '0'.toUInt8 ∧ c₂ = '0'.toUInt8
          · rw [if_pos hzero, if_pos hzero]
            exact hnext c gap' [c₁, c₂] t hgap ht (by omega)
          rw [if_neg hzero, if_neg hzero]
          cases sscanfX [c₁, c₂] with
          | some x =>
            have hagain := put_again out (gap' ++ c₁ :: c₂ :: (t ++ [0])) c
              (UInt8.ofNat (x &&& 0xff))
            simp only [append_assoc] at hagain ⊢
            simp only [hagain, Option.bind_some]
            simpa using hnext (UInt8.ofNat (x &&& 0xff)) gap' [c₁, c₂] t hgap ht (by omega)
          | none => exact hplain

theorem urlDecode_eq {t : CStr} (ht : 0 ∉ t) {fuel : Nat} (hfuel : t.length < fuel) :
    ∃ rest, urlDecode fuel (t ++ [0]) =
      some (strlen (decoded t ++ 0 :: rest), decoded t ++ 0 :: rest) := by
  obtain ⟨rest, hrest, hloop⟩ := urlDecodeLoop_eq fuel t [] [] ht hfuel
  obtain ⟨b, rest, rfl⟩ := exists_cons_of_ne_nil hrest
  have hput : put (decoded t ++ b :: rest) (decoded t).length 0 =
      some (decoded t ++ 0 :: rest) := by
    rw [put, if_pos (by simp)]
    simp
  simp only [nil_append, length_nil, Nat.zero_add] at hloop
  refine ⟨rest, ?_⟩
  rw [urlDecode, hloop]
  simp only [Option.bind_eq_bind, Option.bind_some, hput, Option.pure_def]

/-! ## What was encoded -/

theorem ne_of_hexDigit {d b : UInt8} {x : Nat} (h : hexDigit d = some x) (hb : hexDigit b = none) :
    d ≠ b := by
  intro heq
  rw [heq, hb] at h
  simp at h

theorem isSpace_of_hexDigit {d : UInt8} {x : Nat} (h : hexDigit d = some x) :
    isSpace d = false := by
  have hspace := ne_of_hexDigit h (b := ' '.toUInt8) (by decide)
  have hlow : ¬ d ≤ 13 := by
    intro hle
    have hle' : d.toNat ≤ 13 := UInt8.le_iff_toNat_le.mp hle
    have hout : ∀ a b : UInt8, 13 < a.toNat → ¬ (a ≤ d ∧ d ≤ b) := by
      intro a b ha hrange
      have hlow := UInt8.le_iff_toNat_le.mp hrange.1
      omega
    have hnone : hexDigit d = none := by
      rw [hexDigit, if_neg (hout _ _ (by decide)), if_neg (hout _ _ (by decide)),
        if_neg (hout _ _ (by decide))]
    rw [hnone] at h
    simp at h
  simp [isSpace, hspace, hlow]

theorem sscanfX_digits {d₁ d₂ : UInt8} {x₁ x₂ : Nat} (h₁ : hexDigit d₁ = some x₁)
    (h₂ : hexDigit d₂ = some x₂) : sscanfX [d₁, d₂] = some (16 * x₁ + x₂) := by
  have hspace := isSpace_of_hexDigit h₁
  have hminus : d₁ ≠ '-'.toUInt8 := ne_of_hexDigit h₁ (by decide)
  have hplus : d₁ ≠ '+'.toUInt8 := ne_of_hexDigit h₁ (by decide)
  have hx : d₂ ≠ 'x'.toUInt8 := ne_of_hexDigit h₂ (by decide)
  have hX : d₂ ≠ 'X'.toUInt8 := ne_of_hexDigit h₂ (by decide)
  simp [sscanfX, hspace, hminus, hplus, hx, hX, charAt, h₁, h₂]

theorem zero_not_mem_of_encodes {s t : CStr} (h : Encodes s t) (hs : 0 ∉ s) : 0 ∉ t := by
  induction h with
  | nil => exact hs
  | plain hc _ ih =>
    obtain ⟨hne, hs⟩ := not_or.mp (mem_cons.not.mp hs)
    simp [hne, ih hs]
  | escaped h₁ h₂ hvalue _ ih =>
    obtain ⟨-, hs⟩ := not_or.mp (mem_cons.not.mp hs)
    have hne₁ := ne_of_hexDigit h₁ (b := 0) (by decide)
    have hne₂ := ne_of_hexDigit h₂ (b := 0) (by decide)
    have hpercent : percent ≠ 0 := by decide
    simp [hne₁.symm, hne₂.symm, hpercent.symm, ih hs]

theorem decoded_of_encodes {s t : CStr} (h : Encodes s t) (hs : 0 ∉ s) : decoded t = s := by
  induction h with
  | nil => rfl
  | plain hc _ ih =>
    obtain ⟨-, hs⟩ := not_or.mp (mem_cons.not.mp hs)
    rw [decoded_cons_of_ne hc, ih hs]
  | @escaped c d₁ d₂ x₁ x₂ s t h₁ h₂ hvalue _ ih =>
    obtain ⟨hc, hs⟩ := not_or.mp (mem_cons.not.mp hs)
    have hpercent : d₁ ≠ percent := ne_of_hexDigit h₁ (by decide)
    have hzero : ¬ (d₁ = '0'.toUInt8 ∧ d₂ = '0'.toUInt8) := by
      intro hboth
      have hdigit : hexDigit '0'.toUInt8 = some 0 := by decide
      rw [hboth.1, hdigit, Option.some_inj] at h₁
      rw [hboth.2, hdigit, Option.some_inj] at h₂
      apply hc
      apply UInt8.toNat_inj.mp
      rw [hvalue, ← h₁, ← h₂]
      rfl
    have hbyte : UInt8.ofNat ((16 * x₁ + x₂) &&& 0xff) = c := by
      have hmod := Nat.and_two_pow_sub_one_eq_mod c.toNat 8
      rw [← hvalue, show 0xff = 2 ^ 8 - 1 from rfl, hmod, Nat.mod_eq_of_lt c.toNat_lt,
        UInt8.ofNat_toNat]
    rw [decoded, if_neg (not_not.mpr rfl), if_neg hpercent, if_neg hzero, sscanfX_digits h₁ h₂,
      ← hbyte, ← ih hs]

end UrlDecode

end BrbData
