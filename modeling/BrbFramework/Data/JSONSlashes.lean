import Mathlib.Algebra.GroupWithZero.Nat
import BrbFramework.Lib.Machine
import BrbFramework.Data.StringArrayExplode

/-!
# Slashes for JSON

`BrbStrAddJSONSlashes` puts the letters of the escapes of C behind a backslash. JSON
has no letter for the bytes `\0`, `\a` and `\v`, and it takes no other control byte
as it is, so a literal comes out only where every control byte is one of the five
which both languages write alike.
-/

namespace BrbData

namespace JSONSlashes

open CStr Machine List

/-- The `"` and the `\`. -/
def quote : UInt8 := '"'.toUInt8

def backslash : UInt8 := '\\'.toUInt8

/-- The cases of the `switch`: a byte and what is put behind the backslash. -/
def slashes : List (UInt8 × UInt8) :=
  [(0, '0'.toUInt8), (7, 'a'.toUInt8), (8, 'b'.toUInt8), (12, 'f'.toUInt8), (10, 'n'.toUInt8),
    (13, 'r'.toUInt8), (9, 't'.toUInt8), (11, 'v'.toUInt8), (backslash, backslash), (quote, quote)]

/-- `calloc(1, sz)`. A negative `sz` is a size that no allocation has. -/
def calloc (sz : Int) : Option (List UInt8) :=
  if sz < 0 then none else some (List.replicate sz.toNat 0)

/-- The loop over what is left of `buf_str`, with the `dst_buf` and the `j` behind it. -/
def addSlashesLoop : List UInt8 → List UInt8 → Nat → Option (List UInt8 × Nat)
  | [], dst, j => some (dst, j)
  | c :: buf, dst, j =>
    match slashes.lookup c with
    | some e => do
      let dst ← put dst j backslash
      let dst ← put dst (j + 1) e
      addSlashesLoop buf dst (j + 2)
    | none => do
      let dst ← put dst j c
      addSlashesLoop buf dst (j + 1)

/-- `BrbStrAddJSONSlashes` on a string and its size: the buffer that is returned. -/
def addJSONSlashes (buf : List UInt8) : Option (List UInt8) := do
  let dst ← calloc (int32 ((buf.length : Int) * 2 + 1))
  let (dst, j) ← addSlashesLoop buf dst 0
  put dst j 0

/-! ## JSON -/

/-- The escapes of JSON which are one character, and the code unit that each stands for. -/
def escapes : List (UInt8 × Nat) :=
  [(quote, 0x22), (backslash, 0x5c), ('/'.toUInt8, 0x2f), ('b'.toUInt8, 0x8), ('f'.toUInt8, 0xc),
    ('n'.toUInt8, 0xa), ('r'.toUInt8, 0xd), ('t'.toUInt8, 0x9)]

/-- The code units of an ASCII literal, from behind its opening quote to its closing
one, behind which there is nothing. -/
def decodeChars : List UInt8 → Option (List Nat)
  | [] => none
  | [c] => if c = quote then some [] else none
  | c :: e :: text =>
    if c = quote then none
    else if c = backslash then
      if e = 'u'.toUInt8 then
        match text with
        | d₁ :: d₂ :: d₃ :: d₄ :: text => do
          let x₁ ← hexDigit d₁
          let x₂ ← hexDigit d₂
          let x₃ ← hexDigit d₃
          let x₄ ← hexDigit d₄
          let units ← decodeChars text
          some ((x₁ <<< 12 + x₂ <<< 8 + x₃ <<< 4 + x₄) :: units)
        | _ => none
      else do
        let unit ← escapes.lookup e
        let units ← decodeChars text
        some (unit :: units)
    else if 0x20 ≤ c ∧ c < 0x80 then do
      let units ← decodeChars (e :: text)
      some (c.toNat :: units)
    else none

/-- The string that an ASCII text is the literal of. -/
def decodeLiteral : List UInt8 → Option (List Nat)
  | [] => none
  | c :: text => if c = quote then decodeChars text else none

/-- What comes back, between two quotes, is a literal of the string. -/
def Decodes (buf : List UInt8) : Prop :=
  ∃ dst, addJSONSlashes buf = some dst ∧
    decodeLiteral (quote :: dst.take (strlen dst) ++ [quote]) = some (buf.map UInt8.toNat)

/-- The control bytes that JSON has a letter for. -/
def named : List UInt8 := [8, 9, 10, 12, 13]

/-! ## What is written -/

/-- What is written for `c`. -/
def slashed (c : UInt8) : List UInt8 :=
  match slashes.lookup c with
  | some e => [backslash, e]
  | none => [c]

theorem slashed_of_some {c e : UInt8} (h : slashes.lookup c = some e) :
    slashed c = [backslash, e] := by
  rw [slashed, h]

theorem slashed_of_none {c : UInt8} (h : slashes.lookup c = none) : slashed c = [c] := by
  rw [slashed, h]

theorem mem_of_lookup {β : Type} {l : List (UInt8 × β)} {c : UInt8} {e : β} (h : l.lookup c = some e) :
    (c, e) ∈ l := by
  obtain ⟨l₁, l₂, hl, -⟩ := lookup_eq_some_iff.mp h
  simp [hl]

theorem length_flatMap_slashed_le (buf : List UInt8) :
    (buf.flatMap slashed).length ≤ buf.length * 2 := by
  induction buf with
  | nil => simp
  | cons c buf ih =>
    have hc : (slashed c).length ≤ 2 := by
      cases h : slashes.lookup c with
      | none => simp [slashed_of_none h]
      | some e => simp [slashed_of_some h]
    rw [flatMap_cons, length_append, length_cons]
    omega

theorem zero_not_mem_slashed (c : UInt8) : 0 ∉ slashed c := by
  cases h : slashes.lookup c with
  | none =>
    have hc : c ≠ 0 := by
      intro hzero
      simp [hzero, slashes] at h
    simpa [slashed_of_none h] using hc.symm
  | some e =>
    have hall : slashes.all (fun p => decide (0 ∉ [backslash, p.2])) = true := by decide
    rw [slashed_of_some h]
    exact of_decide_eq_true (all_eq_true.mp hall (c, e) (mem_of_lookup h))

theorem put_append (done : List UInt8) (m : Nat) (c : UInt8) :
    put (done ++ List.replicate (m + 1) 0) done.length c =
      some ((done ++ [c]) ++ List.replicate m 0) := by
  unfold put
  rw [if_pos (by simp), replicate_succ]
  simp

theorem addSlashesLoop_eq (buf : List UInt8) : ∀ (done : List UInt8) (m : Nat),
    addSlashesLoop buf (done ++ List.replicate ((buf.flatMap slashed).length + m) 0) done.length =
      some (done ++ buf.flatMap slashed ++ List.replicate m 0,
        (done ++ buf.flatMap slashed).length) := by
  induction buf with
  | nil =>
    intro done m
    simp [addSlashesLoop]
  | cons c buf ih =>
    intro done m
    have hih := ih (done ++ slashed c) m
    cases h : slashes.lookup c with
    | none =>
      have hroom : ((c :: buf).flatMap slashed).length + m =
          (buf.flatMap slashed).length + m + 1 := by
        simp [slashed_of_none h]
        omega
      rw [slashed_of_none h] at hih
      rw [hroom, addSlashesLoop, h]
      simp only [put_append, Option.bind_eq_bind, Option.bind_some]
      simpa [slashed_of_none h] using hih
    | some e =>
      have hroom : ((c :: buf).flatMap slashed).length + m =
          (buf.flatMap slashed).length + m + 1 + 1 := by
        simp [slashed_of_some h]
        omega
      have hnext := put_append (done ++ [backslash]) ((buf.flatMap slashed).length + m) e
      rw [length_append, length_singleton] at hnext
      rw [slashed_of_some h] at hih
      rw [hroom, addSlashesLoop, h]
      simp only [put_append, hnext, Option.bind_eq_bind, Option.bind_some]
      simpa [slashed_of_some h] using hih

theorem addJSONSlashes_eq {buf : List UInt8} (h : buf.length < 2 ^ 30) :
    ∃ rest, addJSONSlashes buf = some (buf.flatMap slashed ++ 0 :: rest) := by
  have hle := length_flatMap_slashed_le buf
  obtain ⟨m, hm⟩ := Nat.exists_eq_add_of_le hle
  have hint : int32 ((buf.length : Int) * 2 + 1) = ((buf.length * 2 + 1 : Nat) : Int) := by
    rw [int32_of_lt (by omega) (by omega)]
    omega
  have hcalloc : calloc (int32 ((buf.length : Int) * 2 + 1)) =
      some (List.replicate ((buf.flatMap slashed).length + (m + 1)) 0) := by
    rw [hint, calloc, if_neg (by omega), Int.toNat_natCast, hm, Nat.add_assoc]
  have hloop := addSlashesLoop_eq buf [] (m + 1)
  refine ⟨List.replicate m 0, ?_⟩
  rw [addJSONSlashes, hcalloc]
  simp only [nil_append, length_nil, Option.bind_eq_bind, Option.bind_some] at hloop ⊢
  rw [hloop, Option.bind_some, put_append]
  simp

theorem addJSONSlashes_of_large {buf : List UInt8} (hlarge : 2 ^ 30 ≤ buf.length)
    (hint : buf.length < 2 ^ 31) : addJSONSlashes buf = none := by
  have hnegative : int32 ((buf.length : Int) * 2 + 1) < 0 := by
    unfold int32
    rw [Int.bmod_def]
    have hmod : ((buf.length : Int) * 2 + 1) % ((4294967296 : Nat) : Int) =
        (buf.length : Int) * 2 + 1 := Int.emod_eq_of_lt (by omega) (by omega)
    rw [hmod]
    split <;> omega
  rw [addJSONSlashes, calloc, if_pos hnegative]
  rfl

/-! ## What is read -/

theorem decodeChars_backslash {e : UInt8} (he : e ≠ 'u'.toUInt8) (text : List UInt8) :
    decodeChars (backslash :: e :: text) =
      (escapes.lookup e).bind fun unit => (decodeChars text).map (unit :: ·) := by
  have hquote : backslash ≠ quote := by decide
  conv_lhs => unfold decodeChars
  simp only [if_neg hquote, if_pos, if_neg he]
  cases escapes.lookup e with
  | none => rfl
  | some unit =>
    cases decodeChars text with
    | none => rfl
    | some units => rfl

theorem decodeChars_plain {c : UInt8} (hquote : c ≠ quote) (hslash : c ≠ backslash)
    (text : List UInt8) :
    decodeChars (c :: text) =
      if 0x20 ≤ c ∧ c < 0x80 then (decodeChars text).map (c.toNat :: ·) else none := by
  cases text with
  | nil =>
    have hone : decodeChars [c] = none := by
      conv_lhs => unfold decodeChars
      rw [if_neg hquote]
    have hnone : decodeChars [] = none := rfl
    simp [hone, hnone]
  | cons e text =>
    conv_lhs => unfold decodeChars
    simp only [if_neg hquote, if_neg hslash]
    cases decodeChars (e :: text) with
    | none => rfl
    | some units => rfl

/-- `c` is no control byte, or one that has a letter. -/
def spelled (c : UInt8) : Bool := decide (c < 0x20 → c ∈ named)

theorem all_spelled_iff (buf : List UInt8) :
    buf.all spelled = true ↔ ∀ c ∈ buf, c < 0x20 → c ∈ named := by
  simp only [all_eq_true, spelled, decide_eq_true_eq]

theorem decodeChars_slashed {c : UInt8} (hascii : c < 0x80) (text : List UInt8) :
    decodeChars (slashed c ++ text) =
      if spelled c then (decodeChars text).map (c.toNat :: ·) else none := by
  cases h : slashes.lookup c with
  | some e =>
    have hall : slashes.all (fun p => decide (p.2 ≠ 'u'.toUInt8 ∧
        escapes.lookup p.2 = if spelled p.1 then some p.1.toNat else none)) = true := by decide
    have hentry := of_decide_eq_true (all_eq_true.mp hall (c, e) (mem_of_lookup h))
    rw [slashed_of_some h, cons_append, singleton_append,
      decodeChars_backslash hentry.1, hentry.2]
    cases spelled c with
    | true => rfl
    | false => rfl
  | none =>
    have hout : ∀ p ∈ slashes, c ≠ p.1 := by
      intro p hp
      have hne := lookup_eq_none_iff.mp h p hp
      simpa using hne
    have hquote : c ≠ quote := hout (quote, quote) (by decide)
    have hslash : c ≠ backslash := hout (backslash, backslash) (by decide)
    have hnamed : c ∉ named := by
      have hall : named.all (fun b => (slashes.map Prod.fst).contains b) = true := by decide
      intro hmem
      have hkey := all_eq_true.mp hall c hmem
      obtain ⟨p, hp, heq⟩ := mem_map.mp (contains_iff_mem.mp hkey)
      exact hout p hp heq.symm
    rw [slashed_of_none h, singleton_append, decodeChars_plain hquote hslash]
    by_cases hlow : c < 0x20
    · have hspelled : ¬ spelled c = true := by simp [spelled, hlow, hnamed]
      rw [if_neg fun hrange => absurd hlow (UInt8.not_lt.mpr hrange.1), if_neg hspelled]
    · have hspelled : spelled c = true := by simp [spelled, hlow]
      rw [if_pos ⟨UInt8.not_lt.mp hlow, hascii⟩, if_pos hspelled]

theorem decodeChars_flatMap (buf : List UInt8) (hascii : ∀ c ∈ buf, c < 0x80) :
    decodeChars (buf.flatMap slashed ++ [quote]) =
      if buf.all spelled then some (buf.map UInt8.toNat) else none := by
  induction buf with
  | nil => rfl
  | cons c buf ih =>
    have htail := ih fun b hb => hascii b (mem_cons_of_mem c hb)
    rw [flatMap_cons, append_assoc, decodeChars_slashed (hascii c mem_cons_self),
      htail, all_cons]
    cases spelled c with
    | false => rfl
    | true =>
      cases buf.all spelled with
      | false => rfl
      | true => rfl

/-- The literal is one of the string as long as JSON has a letter for each of its control
bytes, and the size of the buffer is an `int`. -/
theorem decodes_iff (buf : List UInt8) (hascii : ∀ c ∈ buf, c ≤ 0x7f)
    (hint : buf.length < 2 ^ 31) :
    Decodes buf ↔ buf.length < 2 ^ 30 ∧ ∀ c ∈ buf, c < 0x20 → c ∈ named := by
  by_cases hsize : buf.length < 2 ^ 30
  · obtain ⟨rest, hdst⟩ := addJSONSlashes_eq hsize
    have hzero : 0 ∉ buf.flatMap slashed := by
      intro hmem
      obtain ⟨c, -, hc⟩ := mem_flatMap.mp hmem
      exact zero_not_mem_slashed c hc
    have htext : (buf.flatMap slashed ++ 0 :: rest).take
        (strlen (buf.flatMap slashed ++ 0 :: rest)) = buf.flatMap slashed := by
      rw [strlen_append_zero hzero, take_left]
    have hread := decodeChars_flatMap buf fun c hc => UInt8.lt_of_le_of_lt (hascii c hc) (by decide)
    have hliteral : decodeLiteral (quote :: buf.flatMap slashed ++ [quote]) =
        if buf.all spelled then some (buf.map UInt8.toNat) else none := by
      rw [cons_append, decodeLiteral, if_pos rfl, hread]
    constructor
    · intro h
      obtain ⟨dst, hret, hdecoded⟩ := h
      have heq : dst = buf.flatMap slashed ++ 0 :: rest := Option.some_inj.mp (hret.symm.trans hdst)
      rw [heq, htext, hliteral] at hdecoded
      refine ⟨hsize, ?_⟩
      apply (all_spelled_iff buf).mp
      by_contra hbad
      rw [if_neg hbad] at hdecoded
      simp at hdecoded
    · intro h
      refine ⟨_, hdst, ?_⟩
      rw [htext, hliteral, if_pos ((all_spelled_iff buf).mpr h.2)]
  · constructor
    · intro h
      obtain ⟨dst, hret, -⟩ := h
      rw [addJSONSlashes_of_large (Nat.not_lt.mp hsize) hint] at hret
      simp at hret
    · intro h
      exact absurd h.1 hsize

/-- A line with a break comes back. -/
theorem decodes_iff_line : Decodes (['a', '"', '\n'].map Char.toUInt8) :=
  (decodes_iff (['a', '"', '\n'].map Char.toUInt8) (by simp; decide) (by simp)).mpr
    ⟨by simp, (all_spelled_iff _).mp rfl⟩

/-- The bell is written as `\a`, which is no escape of JSON. -/
theorem bell_is_no_escape : ¬ Decodes [7] := by
  intro h
  obtain ⟨dst, hret, hdecoded⟩ := h
  have hone : int32 ((([7] : List UInt8).length : Int) * 2 + 1) = 3 :=
    int32_of_lt (by decide) (by decide)
  have hdst : addJSONSlashes [7] = some [backslash, 'a'.toUInt8, 0] := by
    rw [addJSONSlashes, hone]
    decide
  have heq : dst = [backslash, 'a'.toUInt8, 0] := Option.some_inj.mp (hret.symm.trans hdst)
  rw [heq] at hdecoded
  revert hdecoded
  decide

end JSONSlashes

end BrbData
