import Mathlib.Algebra.GroupWithZero.Nat
import BrbFramework.Data.KeyValue

/-!
# Parsing a key-value row

`__KVRowParse` writes a zero behind as many bytes as the whole row has, also where
`vsnprintf` has cut it, and `__KVRemoveQuotes` writes as many bytes as it is given. Both
writes fail here where they are not inside the array.
-/

namespace BrbData

namespace KeyValue

open CStr StringArray List

/-- `KV_ROW_MAX`. -/
abbrev kvRowMax : Nat := 8092

/-- The bytes of `key` and of `value`. -/
abbrev kvFieldSz : Nat := 256

/-- The line breaks that `StringArrayStripCRLF` looks for. -/
def isCRLF (c : UInt8) : Bool := c == '\n'.toUInt8 || c == '\r'.toUInt8

/-- `StringArrayStripCRLF` on an element: the string ends at the first line break, its size is
the place of the last. -/
def stripCRLF (str : CStr) : CStr × Nat :=
  let deltaSize := (List.range str.length).foldl
    (fun deltaSize i => if isCRLF (str.charAt i) then str.length - i else deltaSize) 0
  (str.takeWhile (!isCRLF ·), str.length - deltaSize)

/-- The elements of a row and their sizes, without the empty ones, which `StringArrayTrim`
deletes. -/
def rowElems (buf : CStr) : List (CStr × Nat) :=
  ((explodeStrN buf ['='.toUInt8] none none (-1)).map stripCRLF).filter fun elem => elem.2 != 0

/-- What `vsnprintf` leaves of a row in `buf`, with the zero that is written at what it
returned. -/
def rowFormat (row : CStr) : Option CStr :=
  let msgSz : Int := if row.length < 2 ^ 31 then row.length else -1
  if 0 ≤ msgSz ∧ msgSz < kvRowMax then some (row.take (kvRowMax - 3)) else none

/-- `__KVRemoveQuotes`. -/
def removeQuotes : CStr → List UInt8 → Nat → Option (List UInt8 × Nat)
  | [], dst, len => some (dst, len)
  | b :: src, dst, len =>
    if b ≠ '"'.toUInt8 then do
      let dst ← put dst len b
      removeQuotes src dst (len + 1)
    else removeQuotes src dst len

/-- `__KVRowParse` of a row as it is formatted. -/
def rowParse (row : CStr) : Option (Option KeyValue) := do
  let buf ← rowFormat row
  match rowElems buf with
  | (key, keySz) :: (value, _) :: _ =>
    let (dst, valueSz) ← removeQuotes value (List.replicate kvFieldSz 0) 0
    -- `strlcpy` leaves room for a zero
    some (some { key := key.take (kvFieldSz - 1), keySz, value := dst, valueSz })
  | _ => some none

/-! ## The writes -/

def unquoted (value : CStr) : CStr := value.filter (· ≠ '"'.toUInt8)

theorem removeQuotes_eq (src : CStr) : ∀ front rest : List UInt8,
    (unquoted src).length ≤ rest.length →
    removeQuotes src (front ++ rest) front.length =
      some (front ++ unquoted src ++ rest.drop (unquoted src).length,
        front.length + (unquoted src).length) := by
  induction src with
  | nil =>
    intro front rest _
    simp [removeQuotes, unquoted]
  | cons b src ih =>
    intro front rest hfit
    rw [removeQuotes]
    by_cases hb : b = '"'.toUInt8
    · have hskip : unquoted (b :: src) = unquoted src := by simp [unquoted, hb]
      rw [hskip] at hfit ⊢
      rw [if_neg (not_not.mpr hb), ih front rest hfit]
    · have hkeep : unquoted (b :: src) = b :: unquoted src := by simp [unquoted, hb]
      rw [hkeep, length_cons] at hfit
      obtain ⟨c, rest, rfl⟩ := exists_cons_of_length_pos (Nat.zero_lt_of_lt hfit)
      have hput : put (front ++ c :: rest) front.length b = some (front ++ [b] ++ rest) := by
        rw [put, if_pos (by simp)]
        simp
      have hnext := ih (front ++ [b]) rest (Nat.le_of_succ_le_succ hfit)
      rw [length_append, length_singleton] at hnext
      rw [if_pos hb, hput, Option.bind_eq_bind, Option.bind_some, hnext, hkeep, length_cons]
      simp
      omega

theorem removeQuotes_eq_none (src : CStr) : ∀ (dst : List UInt8) (len : Nat), len ≤ dst.length →
    dst.length < len + (unquoted src).length → removeQuotes src dst len = none := by
  induction src with
  | nil =>
    intro dst len hle h
    simp [unquoted] at h
    omega
  | cons b src ih =>
    intro dst len hle h
    rw [removeQuotes]
    by_cases hb : b = '"'.toUInt8
    · have hskip : unquoted (b :: src) = unquoted src := by simp [unquoted, hb]
      rw [if_neg (not_not.mpr hb)]
      exact ih dst len hle (hskip ▸ h)
    · have hkeep : unquoted (b :: src) = b :: unquoted src := by simp [unquoted, hb]
      rw [hkeep, length_cons] at h
      rw [if_pos hb, put]
      by_cases hlt : len < dst.length
      · rw [if_pos hlt]
        exact ih (dst.set len b) (len + 1) (by rw [length_set]; omega)
          (by rw [length_set]; omega)
      · rw [if_neg hlt]
        rfl

theorem removeQuotes_isSome (value : CStr) :
    (removeQuotes value (List.replicate kvFieldSz 0) 0).isSome = true ↔
      (unquoted value).length ≤ kvFieldSz := by
  by_cases hfit : (unquoted value).length ≤ kvFieldSz
  · have heq := removeQuotes_eq value [] (List.replicate kvFieldSz 0)
      (by rwa [length_replicate])
    rw [nil_append, length_nil] at heq
    simp [heq, hfit]
  · have heq := removeQuotes_eq_none value (List.replicate kvFieldSz 0) 0 (Nat.zero_le _)
      (by rw [length_replicate]; omega)
    simp [heq, hfit]

theorem rowFormat_eq {row : CStr} (h : row.length < kvRowMax) :
    rowFormat row = some (row.take (kvRowMax - 3)) := by
  have hint : row.length < 2 ^ 31 := Nat.lt_trans h (by decide)
  simp only [rowFormat, if_pos hint]
  exact if_pos ⟨Int.natCast_nonneg _, Int.ofNat_lt.mpr h⟩

theorem rowFormat_eq_none {row : CStr} (h : kvRowMax ≤ row.length) : rowFormat row = none := by
  simp only [rowFormat]
  apply if_neg
  by_cases hint : row.length < 2 ^ 31
  · rw [if_pos hint]
    intro hin
    omega
  · rw [if_neg hint]
    intro hin
    omega

/-- Which rows are parsed inside the arrays: the row is shorter than its buffer, and without its
quotes the element that is taken for the value fits its array. -/
theorem rowParse_isSome_iff (row : CStr) :
    (rowParse row).isSome = true ↔ row.length < kvRowMax ∧
      ∀ value, (rowElems (row.take (kvRowMax - 3)))[1]? = some value →
        (unquoted value.1).length ≤ kvFieldSz := by
  by_cases hlen : row.length < kvRowMax
  · rw [rowParse, rowFormat_eq hlen]
    simp only [hlen, true_and, Option.bind_eq_bind, Option.bind_some]
    rcases rowElems (row.take (kvRowMax - 3)) with _ | ⟨key, _ | ⟨value, rest⟩⟩
    · simp
    · simp
    · have hquotes := removeQuotes_isSome value.1
      simp only [getElem?_cons_succ, getElem?_cons_zero, Option.some_inj, forall_eq']
      rw [← hquotes]
      cases removeQuotes value.1 (List.replicate kvFieldSz 0) 0 with
      | none => simp
      | some r => simp
  · rw [rowParse, rowFormat_eq_none (Nat.le_of_not_lt hlen)]
    simp [hlen]

/-- A row as long as its buffer: the zero behind it is written behind the buffer. -/
theorem long_row_writes_outside :
    rowParse (List.replicate kvRowMax 'a'.toUInt8) = none := by
  rw [rowParse, rowFormat_eq_none (by rw [length_replicate])]
  rfl

end KeyValue

end BrbData
