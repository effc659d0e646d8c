import BrbFramework.Crypto.Base64

/-!
# The three base64 encoders

`brb_base64_encode_bin_into` closes a parenthesis of its guard in the wrong place: what
is compared to the size of `result` is whether there are both input left and output
written, a zero or a one. Up to a size of 5 it encodes nothing, from a size of 7 on it
does not stop, and with the size of 6 it encodes one quantum of whatever there is.
-/

namespace Base64

open BrbData List

/-- The loop of `brb_base64_encode_bin_into`, which reads the memory at `data` from `i` on. -/
def encodeIntoLoop (data : Nat → UInt8) (size : Int) :
    Nat → Int → Nat → Nat → Nat → List UInt8 → Option (List UInt8 × Nat × Nat)
  | 0, _, _, _, _, _ => none
  | fuel + 1, len, i, bits, charCount, result =>
    if (if len ≠ 0 ∧ result.length ≠ 0 then 1 else 0 : Int) < size - 5 then
      let bits := bits + (data i).toNat
      if charCount + 1 = 3 then
        encodeIntoLoop data size fuel (len - 1) (i + 1) 0 0 (result ++ [code (bits >>> 18),
          code ((bits >>> 12) &&& 0x3f), code ((bits >>> 6) &&& 0x3f), code (bits &&& 0x3f)])
      else encodeIntoLoop data size fuel (len - 1) (i + 1) (bits <<< 8) (charCount + 1) result
    else some (result, bits, charCount)

/-- `brb_base64_encode_bin_into`: what it writes to `result`, which is nothing where `fuel` is
used up. -/
def encodeBinInto (fuel : Nat) (data : Nat → UInt8) (len size : Int) : Option (List UInt8) :=
  (encodeIntoLoop data size fuel len 0 0 0 []).map encodeEnd

/-- A `MemBufferAdd` for each character. -/
def addEach (mb : MemBuffer) (chars : List UInt8) : MemBuffer :=
  chars.foldl (fun mb c => mb.add [c]) mb

/-- The loop of `brb_base64_encode_to_mb`. -/
def encodeToMbLoop : List UInt8 → Nat → Nat → MemBuffer → MemBuffer × Nat × Nat
  | [], bits, charCount, mb => (mb, bits, charCount)
  | c :: data, bits, charCount, mb =>
    let bits := bits + c.toNat
    if charCount + 1 = 3 then
      encodeToMbLoop data 0 0 (addEach mb [code (bits >>> 18), code ((bits >>> 12) &&& 0x3f),
        code ((bits >>> 6) &&& 0x3f), code (bits &&& 0x3f)])
    else encodeToMbLoop data (bits <<< 8) (charCount + 1) mb

/-- What `brb_base64_encode_to_mb` does behind its loop. -/
def encodeToMbEnd : MemBuffer × Nat × Nat → MemBuffer
  | (mb, bits, charCount) =>
    if charCount ≠ 0 then
      let bits := bits <<< (16 - 8 * charCount)
      let mb := addEach mb [code (bits >>> 18), code ((bits >>> 12) &&& 0x3f)]
      if charCount = 1 then (addEach mb [pad, pad]).putNULLTerminator
      else (addEach mb [code ((bits >>> 6) &&& 0x3f), pad]).putNULLTerminator
    else mb.putNULLTerminator

/-- `brb_base64_encode_to_mb`: the buffer that it leaves. -/
def encodeToMb (data : List UInt8) (mb : MemBuffer) : MemBuffer :=
  encodeToMbEnd (encodeToMbLoop data 0 0 mb)

def input (data : Nat → UInt8) (len : Nat) : List UInt8 := (List.range len).map data

/-- The encoder stops, within `size` bytes, and where these have room for the text it is the
one of `brb_base64_encode_bin`, which `brb_base64_encode_to_mb` adds to any buffer. -/
def Agrees (data : Nat → UInt8) (len : Nat) (size : Int) : Prop :=
  ∃ fuel written, encodeBinInto fuel data len size = some written ∧
    (written.length : Int) ≤ size ∧
    (4 * (quanta (input data len) : Int) + 1 ≤ size →
      written = encodeBin (input data len) ∧
      ∀ mb : MemBuffer, mb.WF →
        MemBufferContent.content (encodeToMb (input data len) mb) ++ [0] =
          MemBufferContent.content mb ++ written)

/-! ## The encoder to a buffer -/

theorem wf_addEach (chars : List UInt8) : ∀ {mb : MemBuffer}, mb.WF → (addEach mb chars).WF := by
  induction chars with
  | nil =>
    intro mb h
    exact h
  | cons c chars ih =>
    intro mb h
    exact ih (h.add [c])

theorem content_addEach (chars : List UInt8) : ∀ {mb : MemBuffer}, mb.WF →
    MemBufferContent.content (addEach mb chars) = MemBufferContent.content mb ++ chars := by
  induction chars with
  | nil =>
    intro mb _
    exact (append_nil _).symm
  | cons c chars ih =>
    intro mb h
    have hfirst : MemBufferContent.content (mb.add [c]) = MemBufferContent.content mb ++ [c] :=
      MemBuffer.take_add h [c]
    have hrest := ih (h.add [c])
    rw [hfirst, append_assoc] at hrest
    exact hrest

theorem content_last {mb : MemBuffer} (h : mb.WF) (p q : List UInt8) :
    MemBufferContent.content (addEach (addEach mb p) q).putNULLTerminator =
      MemBufferContent.content mb ++ (p ++ q) := by
  have hfirst := wf_addEach p h
  rw [MemBufferContent.content_putNULLTerminator (wf_addEach q hfirst), content_addEach q hfirst,
    content_addEach p h, append_assoc]

theorem content_encodeToMb {x : List UInt8} {mb : MemBuffer} (h : mb.WF) :
    MemBufferContent.content (encodeToMb x mb) = MemBufferContent.content mb ++ textOf x := by
  unfold encodeToMb
  induction x using textOf.induct generalizing mb with
  | case1 a b c x ih =>
    have hbits : ((0 + a.toNat) <<< 8 + b.toNat) <<< 8 + c.toNat =
        a.toNat <<< 16 + b.toNat <<< 8 + c.toNat := by omega
    have hnext := ih (wf_addEach (quantum (a.toNat <<< 16 + b.toNat <<< 8 + c.toNat)) h)
    rw [content_addEach _ h] at hnext
    simp only [encodeToMbLoop, if_true, hbits]
    rw [textOf, ← append_assoc]
    exact hnext
  | case2 a b =>
    have hbits : ((0 + a.toNat) <<< 8 + b.toNat) <<< 8 = a.toNat <<< 16 + b.toNat <<< 8 := by omega
    have hlast := content_last h [code ((a.toNat <<< 16 + b.toNat <<< 8) >>> 18),
      code ((a.toNat <<< 16 + b.toNat <<< 8) >>> 12 &&& 0x3f)]
      [code ((a.toNat <<< 16 + b.toNat <<< 8) >>> 6 &&& 0x3f), pad]
    simp only [encodeToMbLoop, hbits]
    simpa [encodeToMbEnd, textOf, quantum] using hlast
  | case3 a =>
    have hbits : (0 + a.toNat) <<< 8 <<< 8 = a.toNat <<< 16 := by omega
    have hlast := content_last h [code (a.toNat <<< 16 >>> 18),
      code (a.toNat <<< 16 >>> 12 &&& 0x3f)] [pad, pad]
    simp only [encodeToMbLoop]
    simpa [encodeToMbEnd, textOf, quantum, ← hbits] using hlast
  | case4 => simp [encodeToMbLoop, encodeToMbEnd, MemBufferContent.content_putNULLTerminator, h, textOf]

/-! ## The bounded encoder -/

section Into

variable {data : Nat → UInt8} {size : Int}

theorem encodeIntoLoop_eq_none (hsize : 7 ≤ size) (fuel : Nat) :
    ∀ (len : Int) (i bits charCount : Nat) (result : List UInt8),
      encodeIntoLoop data size fuel len i bits charCount result = none := by
  induction fuel with
  | zero =>
    intro len i bits charCount result
    rfl
  | succ fuel ih =>
    intro len i bits charCount result
    have hguard : (if len ≠ 0 ∧ result.length ≠ 0 then 1 else 0 : Int) < size - 5 := by
      split <;> omega
    simp only [encodeIntoLoop, if_pos hguard, ih, ite_self]

theorem encodeIntoLoop_mono {fuel : Nat} {r : List UInt8 × Nat × Nat} :
    ∀ {len : Int} {i bits charCount : Nat} {result : List UInt8},
      encodeIntoLoop data size fuel len i bits charCount result = some r → ∀ k,
        encodeIntoLoop data size (fuel + k) len i bits charCount result = some r := by
  induction fuel with
  | zero =>
    intro len i bits charCount result h
    simp [encodeIntoLoop] at h
  | succ fuel ih =>
    intro len i bits charCount result h k
    rw [Nat.succ_add]
    simp only [encodeIntoLoop] at h ⊢
    by_cases hguard : (if len ≠ 0 ∧ result.length ≠ 0 then 1 else 0 : Int) < size - 5
    · rw [if_pos hguard] at h ⊢
      by_cases hchar : charCount + 1 = 3
      · rw [if_pos hchar] at h ⊢
        exact ih h k
      · rw [if_neg hchar] at h ⊢
        exact ih h k
    · rw [if_neg hguard] at h ⊢
      exact h

theorem encodeBinInto_of_le (hsize : size ≤ 5) (fuel : Nat) (len : Int) :
    encodeBinInto (fuel + 1) data len size = some [0] := by
  have hguard : ¬ (if len ≠ 0 ∧ ([] : List UInt8).length ≠ 0 then 1 else 0 : Int) < size - 5 := by
    rw [if_neg fun h => h.2 rfl]
    omega
  simp only [encodeBinInto, encodeIntoLoop, if_neg hguard]
  rfl

/-- The three bytes that are encoded in any case with a size of 6. -/
def firstWord (data : Nat → UInt8) : Nat :=
  (data 0).toNat <<< 16 + (data 1).toNat <<< 8 + (data 2).toNat

theorem firstWord_eq (data : Nat → UInt8) :
    ((0 + (data 0).toNat) <<< 8 + (data 1).toNat) <<< 8 + (data 2).toNat = firstWord data := by
  rw [firstWord]
  omega

theorem encodeBinInto_six (fuel : Nat) {len : Int} (hlen : len ≠ 3) :
    encodeBinInto (fuel + 4) data len 6 = some (quantum (firstWord data) ++ [0]) := by
  have hleft : len - 1 - 1 - 1 ≠ 0 := by omega
  have hword := firstWord_eq data
  simp [encodeBinInto, encodeIntoLoop, encodeEnd, hleft, quantum, ← hword]

theorem encodeBinInto_six_three (fuel : Nat) :
    ∃ written, encodeBinInto (fuel + 5) data 3 6 = some written ∧ written.length = 9 := by
  simp [encodeBinInto, encodeIntoLoop, encodeEnd]

theorem encodeBinInto_cases {fuel : Nat} {len : Int} {written : List UInt8}
    (h : encodeBinInto fuel data len size = some written) :
    (size ≤ 5 ∧ written = [0]) ∨
    (size = 6 ∧ len = 3 ∧ written.length = 9) ∨
    (size = 6 ∧ len ≠ 3 ∧ written = quantum (firstWord data) ++ [0]) := by
  have hmore : ∀ k, encodeBinInto (fuel + k) data len size = some written := by
    intro k
    obtain ⟨r, hr, rfl⟩ := Option.map_eq_some_iff.mp h
    rw [encodeBinInto, encodeIntoLoop_mono hr k, Option.map_some]
  by_cases hlow : size ≤ 5
  · have hall := hmore 1
    rw [encodeBinInto_of_le hlow] at hall
    exact .inl ⟨hlow, (Option.some_inj.mp hall).symm⟩
  by_cases hsix : size = 6
  · subst hsix
    by_cases hthree : len = 3
    · subst hthree
      have hall := hmore 5
      obtain ⟨w, hw, hnine⟩ := @encodeBinInto_six_three data fuel
      rw [hw] at hall
      exact .inr (.inl ⟨rfl, rfl, Option.some_inj.mp hall ▸ hnine⟩)
    · have hall := hmore 4
      rw [encodeBinInto_six fuel hthree] at hall
      exact .inr (.inr ⟨rfl, hthree, (Option.some_inj.mp hall).symm⟩)
  · rw [encodeBinInto, encodeIntoLoop_eq_none (by omega)] at h
    simp at h

end Into

theorem code_ne_pad {i : Nat} (hi : i < 64) : code i ≠ pad := by
  have hall : ∀ i < 64, code i ≠ pad := by decide
  exact hall i hi

theorem length_input (data : Nat → UInt8) (len : Nat) : (input data len).length = len := by
  simp [input]

theorem quantum_ne_textOf (data : Nat → UInt8) {len : Nat} (hlen : len < 3) (v : Nat) :
    quantum v ≠ textOf (input data len) := by
  intro heq
  have hlast : v &&& 0x3f < 64 := by
    rw [and_0x3f]
    exact Nat.mod_lt v (by decide)
  have hpad := code_ne_pad hlast
  rcases len with _ | _ | _ | len
  · simp [quantum, input, textOf] at heq
  · have hinput : input data 1 = [data 0] := rfl
    rw [hinput, textOf, quantum] at heq
    simp [quantum, hpad] at heq
  · have hinput : input data 2 = [data 0, data 1] := rfl
    rw [hinput, textOf, quantum] at heq
    simp [quantum, hpad] at heq
  · omega

/-- The three encoders agree where the bounded one stops and has no room for the text, and
where there is nothing to encode. -/
theorem agrees_iff (data : Nat → UInt8) (len : Nat) (size : Int) :
    Agrees data len size ↔
      (1 ≤ size ∧ size ≤ 6) ∧
        (size < 4 * (quanta (input data len) : Int) + 1 ∨ (len = 0 ∧ size ≤ 5)) := by
  have hquanta : quanta (input data len) = (len + 2) / 3 := by rw [quanta, length_input]
  have hsz : resultSz = 131070 := rfl
  constructor
  · intro h
    obtain ⟨fuel, written, hinto, hbound, htext⟩ := h
    by_cases hroom : size < 4 * (quanta (input data len) : Int) + 1
    · have hsize := encodeBinInto_cases hinto
      obtain ⟨hlow, rfl⟩ | ⟨rfl, -, hnine⟩ | ⟨rfl, -, rfl⟩ := hsize
      · exact ⟨⟨hbound, by omega⟩, .inl hroom⟩
      · omega
      · exact ⟨⟨by decide, by decide⟩, .inl hroom⟩
    · have hsame := (htext (by omega)).1
      obtain ⟨hlow, rfl⟩ | ⟨rfl, -, hnine⟩ | ⟨rfl, hthree, rfl⟩ := encodeBinInto_cases hinto
      · rw [encodeBin_eq (by omega)] at hsame
        have hnil : textOf (input data len) = [] := by simpa using hsame.symm
        refine ⟨⟨hbound, by omega⟩, .inr ⟨?_, hlow⟩⟩
        rw [← length_input data len]
        cases hx : input data len using textOf.fun_cases with
        | case1 a b c x =>
          rw [hx, textOf, quantum] at hnil
          simp at hnil
        | case2 a b =>
          rw [hx, textOf, quantum] at hnil
          simp at hnil
        | case3 a =>
          rw [hx, textOf, quantum] at hnil
          simp at hnil
        | case4 => rfl
      · omega
      · rw [encodeBin_eq (by omega)] at hsame
        exact absurd (append_cancel_right hsame) (quantum_ne_textOf data (by omega) _)
  · intro h
    obtain ⟨⟨hlow, hhigh⟩, hroom⟩ := h
    by_cases hsix : size = 6
    · subst hsix
      have hlarge : (6 : Int) < 4 * (quanta (input data len) : Int) + 1 := by
        rcases hroom with hroom | ⟨-, habsurd⟩
        · exact hroom
        · omega
      refine ⟨4, quantum (firstWord data) ++ [0], encodeBinInto_six 0 (by omega), ?_, ?_⟩
      · simp [quantum]
      · intro hfits
        omega
    · refine ⟨1, [0], encodeBinInto_of_le (by omega) 0 len, by simpa using hlow, ?_⟩
      intro hfits
      have hzero : len = 0 := by
        rcases hroom with hroom | ⟨hzero, -⟩
        · omega
        · exact hzero
      subst hzero
      have hnil : input data 0 = [] := rfl
      refine ⟨by rw [hnil]; rfl, ?_⟩
      intro mb hmb
      rw [content_encodeToMb hmb, append_assoc]
      rfl

/-- Three bytes and a buffer for five times their text: the bounded encoder does not stop. -/
theorem room_for_the_text_does_not_stop :
    ¬ Agrees (fun _ => 65) 3 25 ∧ ∀ fuel, encodeBinInto fuel (fun _ => 65) 3 25 = none := by
  have hnone : ∀ fuel, encodeBinInto fuel (fun _ => 65) 3 25 = none := by
    intro fuel
    rw [encodeBinInto, encodeIntoLoop_eq_none (by decide), Option.map_none]
  refine ⟨?_, hnone⟩
  intro h
  obtain ⟨fuel, written, hinto, -⟩ := h
  have hnever := (hnone fuel).symm.trans hinto
  simp at hnever

end Base64
