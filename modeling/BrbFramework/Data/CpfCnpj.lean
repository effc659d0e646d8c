import BrbFramework.Data.StringArray
import BrbFramework.Lib.Machine

/-!
# CPF and CNPJ

Two check digits follow the others, each from a sum with weights. A CPF whose digits are all
the same is not accepted, nor is the CNPJ of zeros.

A string is let through if it has the length or if `BrbIsNumeric` takes it, so one with a
single part of the two goes on to the sums, which read at fixed places.
-/

namespace BrbData

namespace CpfCnpj

open Machine List

/-- `isdigit`. -/
def isDigit (c : UInt8) : Bool := decide ('0'.toUInt8 ≤ c) && decide (c ≤ '9'.toUInt8)

/-- `INT_VALUE` of a `char`, which is signed. -/
def intValue (c : UInt8) : Int := Int.bmod c.toNat 256 - 48

/-- `BrbIsNumeric`. -/
def isNumeric (str : CStr) : Int :=
  let str : CStr := if str.head? = some '-'.toUInt8 then str.tail else str
  if str.all isDigit then int32 str.length else 0

/-- What may be read of a string, at an index that is an `int`. -/
def memory (str : CStr) : List UInt8 := (str ++ [0]).take 2147483648

/-- The loop that adds up `count` digits. It fails where it reads behind the string. -/
def weigh (next : Int → Int) : List UInt8 → Nat → Int → Int → Option Int
  | _, 0, _, sum => some sum
  | [], _ + 1, _, _ => none
  | c :: memory, count + 1, j, sum =>
    weigh next memory count (next j) (int32 (sum + intValue c * j))

def checkOf (sum : Int) : Int := if sum.tmod 11 < 2 then 0 else 11 - sum.tmod 11

/-- Both check digits, which are at `index₁` and `index₂`. -/
def checkDigits (next : Int → Int) (memory : List UInt8) (count₁ index₁ : Nat) (j₁ : Int)
    (count₂ index₂ : Nat) (j₂ : Int) : Option Bool := do
  let digit1 ← weigh next memory count₁ j₁ 0
  let c ← memory[index₁]?
  if intValue c ≠ checkOf digit1 then return false
  let digit2 ← weigh next memory count₂ j₂ 0
  let c ← memory[index₂]?
  return decide (intValue c = checkOf digit2)

/-- The CPFs that are not accepted: eleven times one digit. -/
def repeated : List CStr := (List.range 10).map fun d => List.replicate 11 (UInt8.ofNat (48 + d))

/-- `BrbIsValidCpf`. -/
def isValidCpf (cpfStr : CStr) : Option Bool :=
  if cpfStr.length ≠ 11 ∧ isNumeric cpfStr = 0 then some false
  else if cpfStr ∈ repeated then some false
  else checkDigits (· - 1) (memory cpfStr) (uint64Sub cpfStr.length 2) 9 10
    (uint64Sub cpfStr.length 1) 10 11

/-- `BrbIsValidCnpj`. -/
def isValidCnpj (cnpjStr : CStr) : Option Bool :=
  if cnpjStr.length ≠ 14 ∧ isNumeric cnpjStr = 0 then some false
  else if cnpjStr = List.replicate 14 '0'.toUInt8 then some false
  else checkDigits (fun j => if j = 2 then 9 else j - 1) (memory cnpjStr) 12 12 5 13 13 6

/-! ## The rule -/

def weightedSum : List Int → CStr → Int
  | w :: weights, c :: digits => w * intValue c + weightedSum weights digits
  | _, _ => 0

/-- The modulo-11 rule for the digit behind these. -/
def checkDigit (weights : List Int) (digits : CStr) : Int :=
  if weightedSum weights digits % 11 < 2 then 0 else 11 - weightedSum weights digits % 11

/-- Digits, of which the last two are the check digits of those in front of them. -/
structure Checked (weights₁ weights₂ : List Int) (str : CStr) : Prop where
  length : str.length = weights₂.length + 1
  digits : ∀ c ∈ str, isDigit c = true
  first : (str[weights₁.length]?.map intValue) =
    some (checkDigit weights₁ (str.take weights₁.length))
  second : (str[weights₂.length]?.map intValue) =
    some (checkDigit weights₂ (str.take weights₂.length))

def CpfChecked : CStr → Prop :=
  Checked [10, 9, 8, 7, 6, 5, 4, 3, 2] [11, 10, 9, 8, 7, 6, 5, 4, 3, 2]

def CnpjChecked : CStr → Prop :=
  Checked [5, 4, 3, 2, 9, 8, 7, 6, 5, 4, 3, 2] [6, 5, 4, 3, 2, 9, 8, 7, 6, 5, 4, 3, 2]

/-! ## Sums of digits -/

theorem toNat_digit {c : UInt8} (h : isDigit c = true) : 48 ≤ c.toNat ∧ c.toNat ≤ 57 := by
  rw [isDigit, Bool.and_eq_true, decide_eq_true_eq, decide_eq_true_eq] at h
  rw [UInt8.le_iff_toNat_le, UInt8.le_iff_toNat_le] at h
  exact h

theorem intValue_digit {c : UInt8} (h : isDigit c = true) : 0 ≤ intValue c ∧ intValue c ≤ 9 := by
  have hbounds := toNat_digit h
  have hbmod : Int.bmod c.toNat 256 = c.toNat := Int.bmod_eq_of_le (by omega) (by omega)
  have hvalue : intValue c = c.toNat - 48 := congrArg (· - 48) hbmod
  omega

def weights (next : Int → Int) : Nat → Int → List Int
  | 0, _ => []
  | count + 1, j => j :: weights next count (next j)

section Sums

variable {next : Int → Int} {str digits rest : CStr}

theorem weigh_eq (hdigits : ∀ c ∈ digits, isDigit c = true) : ∀ (j sum : Int),
    (∀ w ∈ weights next digits.length j, 0 ≤ w ∧ w ≤ 11) → 0 ≤ sum →
    sum + 99 * digits.length < 2 ^ 31 →
    weigh next (digits ++ rest) digits.length j sum =
        some (sum + weightedSum (weights next digits.length j) digits) ∧
      0 ≤ weightedSum (weights next digits.length j) digits := by
  induction digits with
  | nil =>
    intro j sum _ _ _
    rw [nil_append, length_nil, weigh, weights, weightedSum, Int.add_zero]
    · exact ⟨rfl, Int.le_refl 0⟩
    · simp
  | cons c digits ih =>
    intro j sum hweights hsum hlarge
    have hc := intValue_digit (hdigits c mem_cons_self)
    have hj := hweights j mem_cons_self
    have hlow : 0 ≤ intValue c * j := Int.mul_nonneg hc.1 hj.1
    have hhigh : intValue c * j ≤ 9 * 11 := Int.mul_le_mul hc.2 hj.2 hj.1 (by decide)
    rw [length_cons] at hlarge
    have hfits : int32 (sum + intValue c * j) = sum + intValue c * j :=
      int32_of_lt (by omega) (by omega)
    obtain ⟨hrest, hnonneg⟩ := ih (fun d hd => hdigits d (mem_cons_of_mem c hd)) (next j)
      (sum + intValue c * j) (fun w hw => hweights w (mem_cons_of_mem j hw)) (by omega)
      (by omega)
    rw [cons_append, length_cons, weigh, hfits, hrest]
    simp only [weights, weightedSum]
    rw [Int.mul_comm j]
    exact ⟨congrArg some (by omega), by omega⟩

theorem checkOf_eq {ws : List Int} (h : 0 ≤ weightedSum ws digits) :
    checkOf (weightedSum ws digits) = checkDigit ws digits := by
  rw [checkOf, checkDigit, Int.tmod_eq_emod_of_nonneg h]

theorem weigh_memory (hdigits : ∀ c ∈ str, isDigit c = true) (hlen : str.length ≤ 14) {j : Int}
    {ws : List Int} (hws : weights next ws.length j = ws) (hbounds : ∀ w ∈ ws, 0 ≤ w ∧ w ≤ 11)
    (hle : ws.length ≤ str.length) :
    ∃ sum, weigh next (memory str) ws.length j 0 = some sum ∧
      checkOf sum = checkDigit ws (str.take ws.length) := by
  obtain ⟨digits, hfirst⟩ : ∃ digits, str.take ws.length = digits := ⟨_, rfl⟩
  have hcount : digits.length = ws.length := by
    rw [← hfirst, length_take, Nat.min_eq_left hle]
  have hmemory : memory str = digits ++ (str.drop ws.length ++ [0]) := by
    rw [memory, take_of_length_le (by simp; omega), ← hfirst, ← append_assoc,
      take_append_drop]
  have hsum := @weigh_eq next digits (str.drop ws.length ++ [0])
    (fun c hc => hdigits c (mem_of_mem_take (hfirst ▸ hc))) j 0
  rw [hcount, hws] at hsum
  obtain ⟨heq, hnonneg⟩ := hsum hbounds (Int.le_refl 0) (by omega)
  rw [hmemory, heq, Int.zero_add, hfirst]
  exact ⟨_, rfl, checkOf_eq hnonneg⟩

theorem memory_getElem? (hlen : str.length ≤ 14) {i : Nat} (hi : i < str.length) :
    (memory str)[i]? = str[i]? := by
  rw [memory, take_of_length_le (by simp; omega), getElem?_append_left hi]

theorem checkDigits_iff {ws₁ ws₂ : List Int} {j₁ j₂ : Int}
    (hdigits : ∀ c ∈ str, isDigit c = true) (hlen : str.length ≤ 14)
    (hws₁ : weights next ws₁.length j₁ = ws₁) (hws₂ : weights next ws₂.length j₂ = ws₂)
    (hbounds : ∀ w ∈ ws₁ ++ ws₂, 0 ≤ w ∧ w ≤ 11) (hlen₁ : ws₂.length = ws₁.length + 1)
    (hlen₂ : str.length = ws₂.length + 1) :
    ∃ b, checkDigits next (memory str) ws₁.length ws₁.length j₁ ws₂.length ws₂.length j₂ = some b ∧
      (b = true ↔ Checked ws₁ ws₂ str) := by
  obtain ⟨sum₁, hsum₁, hcheck₁⟩ := weigh_memory hdigits hlen hws₁
    (fun w hw => hbounds w (mem_append_left _ hw)) (by omega)
  obtain ⟨sum₂, hsum₂, hcheck₂⟩ := weigh_memory hdigits hlen hws₂
    (fun w hw => hbounds w (mem_append_right _ hw)) (by omega)
  have hget₁ := @memory_getElem? str hlen ws₁.length (by omega)
  have hget₂ := @memory_getElem? str hlen ws₂.length (by omega)
  obtain ⟨c₁, hc₁⟩ : ∃ c, str[ws₁.length]? = some c := ⟨_, getElem?_eq_getElem (by omega)⟩
  obtain ⟨c₂, hc₂⟩ : ∃ c, str[ws₂.length]? = some c := ⟨_, getElem?_eq_getElem (by omega)⟩
  have hchecked : Checked ws₁ ws₂ str ↔ intValue c₁ = checkDigit ws₁ (str.take ws₁.length) ∧
      intValue c₂ = checkDigit ws₂ (str.take ws₂.length) := by
    constructor
    · intro h
      have hfirst := h.first
      have hsecond := h.second
      rw [hc₁] at hfirst
      rw [hc₂] at hsecond
      exact ⟨Option.some.inj hfirst, Option.some.inj hsecond⟩
    · rintro ⟨hfirst, hsecond⟩
      exact ⟨hlen₂, hdigits, by rw [hc₁]; exact congrArg some hfirst,
        by rw [hc₂]; exact congrArg some hsecond⟩
  rw [hchecked, checkDigits]
  simp only [Option.bind_eq_bind, hsum₁, Option.bind_some, hget₁, hc₁, hcheck₁, hsum₂, hget₂, hc₂,
    hcheck₂]
  by_cases hfirst : intValue c₁ = checkDigit ws₁ (str.take ws₁.length)
  · rw [if_neg (not_not.mpr hfirst)]
    exact ⟨_, rfl, by simp [hfirst]⟩
  · rw [if_pos hfirst]
    exact ⟨false, rfl, by simp [hfirst]⟩

end Sums

/-- **CPF and CNPJ.**  Which digits are accepted, and that nothing else of another length is but
what `BrbIsNumeric` takes. -/
theorem isValid_iff (str : CStr) :
    ((str.length = 11 ∧ (∀ c ∈ str, isDigit c = true) ∨ str.length ≠ 11 ∧ isNumeric str = 0) →
      ∃ b, isValidCpf str = some b ∧ (b = true ↔ CpfChecked str ∧ str ∉ repeated)) ∧
    ((str.length = 14 ∧ (∀ c ∈ str, isDigit c = true) ∨ str.length ≠ 14 ∧ isNumeric str = 0) →
      ∃ b, isValidCnpj str = some b ∧
        (b = true ↔ CnpjChecked str ∧ str ≠ List.replicate 14 '0'.toUInt8)) := by
  constructor
  · rintro (⟨hlen, hdigits⟩ | ⟨hlen, hnumeric⟩)
    · rw [isValidCpf, if_neg fun h => h.1 hlen]
      by_cases hrep : str ∈ repeated
      · rw [if_pos hrep]
        exact ⟨false, rfl, by simp [hrep]⟩
      · rw [if_neg hrep, hlen]
        obtain ⟨b, hb, hiff⟩ := @checkDigits_iff (· - 1) str [10, 9, 8, 7, 6, 5, 4, 3, 2]
          [11, 10, 9, 8, 7, 6, 5, 4, 3, 2] 10 11 hdigits (by omega) rfl rfl (by decide) rfl hlen
        exact ⟨b, hb, hiff.trans (and_iff_left hrep).symm⟩
    · rw [isValidCpf, if_pos ⟨hlen, hnumeric⟩]
      exact ⟨false, rfl, iff_of_false Bool.false_ne_true fun h => hlen h.1.length⟩
  · rintro (⟨hlen, hdigits⟩ | ⟨hlen, hnumeric⟩)
    · rw [isValidCnpj, if_neg fun h => h.1 hlen]
      by_cases hrep : str = List.replicate 14 '0'.toUInt8
      · rw [if_pos hrep]
        exact ⟨false, rfl, by simp [hrep]⟩
      · rw [if_neg hrep]
        obtain ⟨b, hb, hiff⟩ := @checkDigits_iff (fun j => if j = 2 then 9 else j - 1) str
          [5, 4, 3, 2, 9, 8, 7, 6, 5, 4, 3, 2] [6, 5, 4, 3, 2, 9, 8, 7, 6, 5, 4, 3, 2] 5 6 hdigits
          (by omega) rfl rfl (by decide) rfl hlen
        exact ⟨b, hb, hiff.trans (and_iff_left hrep).symm⟩
    · rw [isValidCnpj, if_pos ⟨hlen, hnumeric⟩]
      exact ⟨false, rfl, iff_of_false Bool.false_ne_true fun h => hlen h.1.length⟩

def ofDigits (digits : List Nat) : CStr := digits.map fun d => UInt8.ofNat (48 + d)

theorem isValid_iff_valid :
    (∃ b, isValidCpf (ofDigits [0, 3, 2, 0, 8, 2, 5, 5, 1, 5, 2]) = some b ∧
      (b = true ↔ CpfChecked (ofDigits [0, 3, 2, 0, 8, 2, 5, 5, 1, 5, 2]) ∧
        ofDigits [0, 3, 2, 0, 8, 2, 5, 5, 1, 5, 2] ∉ repeated)) ∧
    ∃ b, isValidCnpj (ofDigits [8, 5, 4, 3, 3, 2, 7, 3, 0, 0, 0, 1, 8, 2]) = some b ∧
      (b = true ↔ CnpjChecked (ofDigits [8, 5, 4, 3, 3, 2, 7, 3, 0, 0, 0, 1, 8, 2]) ∧
        ofDigits [8, 5, 4, 3, 3, 2, 7, 3, 0, 0, 0, 1, 8, 2] ≠ List.replicate 14 '0'.toUInt8) :=
  ⟨(isValid_iff _).1 (.inl ⟨rfl, all_eq_true.mp (by decide)⟩),
    (isValid_iff _).2 (.inl ⟨rfl, all_eq_true.mp (by decide)⟩)⟩

/-- The digits of eleven ones are checked, but they are no CPF. -/
theorem ones_not_accepted : ¬ ∃ b, isValidCpf (ofDigits (List.replicate 11 1)) = some b ∧
    (b = true ↔ CpfChecked (ofDigits (List.replicate 11 1))) := by
  rintro ⟨b, hb, hiff⟩
  have hrejected : isValidCpf (ofDigits (List.replicate 11 1)) = some false := by decide
  have hchecked : CpfChecked (ofDigits (List.replicate 11 1)) :=
    ⟨rfl, all_eq_true.mp (by decide), by decide, by decide⟩
  rw [hrejected] at hb
  exact Bool.false_ne_true ((Option.some.inj hb).trans (hiff.mpr hchecked))

end CpfCnpj

end BrbData
