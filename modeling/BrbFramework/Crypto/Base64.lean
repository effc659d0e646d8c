import Mathlib.Logic.Function.Basic
import BrbFramework.Data.MemBufferContent

/-!
# The base64 coder of `crypto/base64.c`

`brb_base64_encode_bin` fills a static `result` of fixed size. The decoders give
the pad character the value zero and take no notice of how many there are, so a
text decodes to whole quanta of three bytes: what was encoded, filled up with
zeros.
-/

namespace Base64

open BrbData List

/-- `BRB_BASE64_RESULT_SZ`. -/
def resultSz : Nat := 65535 * 2

def pad : UInt8 := '='.toUInt8

/-- `brb_base64_code`, the characters of the values from 0 to 63. -/
def codes : List UInt8 :=
  ['A', 'B', 'C', 'D', 'E', 'F', 'G', 'H', 'I', 'J', 'K', 'L', 'M', 'N', 'O', 'P', 'Q', 'R', 'S',
    'T', 'U', 'V', 'W', 'X', 'Y', 'Z', 'a', 'b', 'c', 'd', 'e', 'f', 'g', 'h', 'i', 'j', 'k', 'l',
    'm', 'n', 'o', 'p', 'q', 'r', 's', 't', 'u', 'v', 'w', 'x', 'y', 'z', '0', '1', '2', '3', '4',
    '5', '6', '7', '8', '9', '+', '/'].map Char.toUInt8

def code (i : Nat) : UInt8 := codes.getD i 0

/-- `brb_base64_value`, as `brb_base64_init` fills it. -/
def value : UInt8 → Int :=
  Function.update
    ((List.range 64).foldl (fun value i => Function.update value (code i) (i : Int)) fun _ => -1)
    pad 0

/-- The loop of `brb_base64_encode_bin`: what `result`, `bits` and `char_count`
are behind it. -/
def encodeLoop : List UInt8 → Nat → Nat → List UInt8 → List UInt8 × Nat × Nat
  | [], bits, charCount, result => (result, bits, charCount)
  | c :: data, bits, charCount, result =>
    if result.length < resultSz - 5 then
      let bits := bits + c.toNat
      if charCount + 1 = 3 then
        encodeLoop data 0 0 (result ++ [code (bits >>> 18), code ((bits >>> 12) &&& 0x3f),
          code ((bits >>> 6) &&& 0x3f), code (bits &&& 0x3f)])
      else encodeLoop data (bits <<< 8) (charCount + 1) result
    else (result, bits, charCount)

/-- What `brb_base64_encode_bin` does behind its loop. -/
def encodeEnd : List UInt8 × Nat × Nat → List UInt8
  | (result, bits, charCount) =>
    if charCount ≠ 0 then
      let bits := bits <<< (16 - 8 * charCount)
      let result := result ++ [code (bits >>> 18), code ((bits >>> 12) &&& 0x3f)]
      if charCount = 1 then result ++ [pad, pad] ++ [0]
      else result ++ [code ((bits >>> 6) &&& 0x3f), pad] ++ [0]
    else result ++ [0]

/-- `brb_base64_encode_bin`: the text and its terminator. -/
def encodeBin (data : List UInt8) : List UInt8 := encodeEnd (encodeLoop data 0 0 [])

section Decode

variable {σ : Type} (more : σ → Bool) (put : List UInt8 → σ → σ)

/-- The loop of the decoders on `c`, `val` and what they write. `more` is what the
condition of the loop says of it, and `put` writes a quantum. -/
def decodeLoop : List UInt8 → Nat → Nat → σ → σ
  | [], _, _, out => out
  | p :: text, c, val, out =>
    if p ≠ 0 ∧ more out then
      if value p < 0 then decodeLoop text c val out
      else
        let val := (val <<< 6) + (value p).toNat
        if c + 1 < 4 then decodeLoop text (c + 1) val out
        else
          decodeLoop text 0 0 (put [UInt8.ofNat (val >>> 16), UInt8.ofNat ((val >>> 8) &&& 0xff),
            UInt8.ofNat (val &&& 0xff)] out)
    else out

end Decode

/-- `brb_base64_decode_bin`: what it returns and the bytes written to `out_ptr`. -/
def decodeBin (text : List UInt8) (outSz : Int) : Nat × List UInt8 :=
  let out := decodeLoop (fun out => (out.length : Int) + 4 < outSz)
    (fun quantum out => out ++ quantum) text 0 0 []
  (out.length, out)

/-- `brb_base64_decode_to_mb`: what it returns, whose `j` nothing counts up, and the
buffer it leaves. -/
def decodeToMb (text : List UInt8) (fileMb : MemBuffer) : Nat × MemBuffer :=
  (0, decodeLoop (fun _ => true) (fun quantum mb => mb.add quantum) text 0 0 fileMb)

/-! ## What is encoded and what is decoded -/

def quantum (v : Nat) : List UInt8 :=
  [code (v >>> 18), code ((v >>> 12) &&& 0x3f), code ((v >>> 6) &&& 0x3f), code (v &&& 0x3f)]

/-- The text of `x`, three bytes to a quantum. -/
def textOf : List UInt8 → List UInt8
  | a :: b :: c :: x => quantum (a.toNat <<< 16 + b.toNat <<< 8 + c.toNat) ++ textOf x
  | [a, b] => (quantum (a.toNat <<< 16 + b.toNat <<< 8)).take 3 ++ [pad]
  | [a] => (quantum (a.toNat <<< 16)).take 2 ++ [pad, pad]
  | [] => []

/-- `x` with zeros up to a multiple of three bytes. -/
def padded (x : List UInt8) : List UInt8 := x ++ List.replicate ((3 - x.length % 3) % 3) 0

/-- The number of quanta `x` is encoded to. -/
def quanta (x : List UInt8) : Nat := (x.length + 2) / 3

/-- `brb_base64_decode_bin` returns `x` and its length, in every output that is large
enough for the loop. -/
def ReturnsBin (x : List UInt8) : Prop :=
  ∀ outSz : Int, 3 * (quanta x : Int) + 1 < outSz → decodeBin (encodeBin x) outSz = (x.length, x)

/-- `brb_base64_decode_to_mb` leaves `x` behind what the buffer held. -/
def ReturnsToMb (x : List UInt8) : Prop :=
  ∀ mb : MemBuffer, mb.WF → (decodeToMb (encodeBin x) mb).2.WF ∧
    MemBufferContent.content (decodeToMb (encodeBin x) mb).2 = MemBufferContent.content mb ++ x

theorem length_padded (x : List UInt8) : (padded x).length = 3 * quanta x := by
  rw [padded, quanta, length_append, length_replicate]
  omega

theorem padded_eq_self_iff (x : List UInt8) : padded x = x ↔ x.length % 3 = 0 := by
  constructor
  · intro h
    have hlength := length_padded x
    rw [h] at hlength
    omega
  · intro h
    rw [padded, h, Nat.sub_zero, Nat.mod_self, replicate_zero, append_nil]

theorem padded_cons₃ (a b c : UInt8) (x : List UInt8) :
    padded (a :: b :: c :: x) = [a, b, c] ++ padded x := by
  have hmod : (a :: b :: c :: x).length % 3 = x.length % 3 := by
    simp only [length_cons]
    omega
  rw [padded, padded, hmod]
  simp only [cons_append, nil_append]

/-! ## The table -/

theorem code_ne_zero {i : Nat} (hi : i < 64) : code i ≠ 0 := by
  have hall : ∀ i < 64, code i ≠ 0 := by decide
  exact hall i hi

theorem value_code {i : Nat} (hi : i < 64) : value (code i) = i := by
  have hall : ∀ i < 64, value (code i) = (i : Int) := by decide
  exact hall i hi

theorem value_pad : value pad = 0 := Function.update_self ..

/-! ## The encoder -/

theorem encodeEnd_encodeLoop {x result : List UInt8}
    (hroom : result.length + 4 * quanta x + 1 < resultSz) :
    encodeEnd (encodeLoop x 0 0 result) = result ++ textOf x ++ [0] := by
  have hsz : resultSz = 131070 := rfl
  induction x using textOf.induct generalizing result with
  | case1 a b c x ih =>
    have hquanta : quanta (a :: b :: c :: x) = quanta x + 1 := by
      simp only [quanta, length_cons]
      omega
    have hin : result.length < resultSz - 5 := by omega
    have hbits : ((0 + a.toNat) <<< 8 + b.toNat) <<< 8 + c.toNat =
        a.toNat <<< 16 + b.toNat <<< 8 + c.toNat := by omega
    have hnext := @ih (result ++ quantum (a.toNat <<< 16 + b.toNat <<< 8 + c.toNat)) (by
      rw [length_append, quantum]
      simp only [length_cons, length_nil]
      omega)
    simp only [encodeLoop, hin, if_true, hbits]
    rw [textOf, ← append_assoc]
    exact hnext
  | case2 a b =>
    have hin : result.length < resultSz - 5 := by
      simp only [quanta, length_cons, length_nil] at hroom
      omega
    have hbits : ((0 + a.toNat) <<< 8 + b.toNat) <<< 8 = a.toNat <<< 16 + b.toNat <<< 8 := by omega
    simp only [encodeLoop, hin, if_true, hbits]
    simp [encodeEnd, textOf, quantum]
  | case3 a =>
    have hin : result.length < resultSz - 5 := by
      simp only [quanta, length_cons, length_nil] at hroom
      omega
    have hbits : (0 + a.toNat) <<< 8 <<< 8 = a.toNat <<< 16 := by omega
    simp only [encodeLoop, hin, if_true]
    simp [encodeEnd, textOf, quantum, ← hbits]
  | case4 => simp [encodeLoop, encodeEnd, textOf]

theorem encodeBin_eq {x : List UInt8} (hfits : 4 * quanta x + 1 ≤ resultSz) :
    encodeBin x = textOf x ++ [0] := by
  have hsz : resultSz = 131070 := rfl
  have hroom : ([] : List UInt8).length + 4 * quanta x + 1 < resultSz := by
    rw [length_nil]
    omega
  have hall := encodeEnd_encodeLoop hroom
  rwa [nil_append] at hall

/-! ## The decoders -/

section Decoders

variable {σ : Type} {more : σ → Bool} {put : List UInt8 → σ → σ}

theorem decodeLoop_cons {p : UInt8} {n : Nat} (hp : p ≠ 0) (hvalue : value p = n) {out : σ}
    (hmore : more out = true) (text : List UInt8) (c val : Nat) :
    decodeLoop more put (p :: text) c val out =
      if c + 1 < 4 then decodeLoop more put text (c + 1) ((val <<< 6) + n) out
      else decodeLoop more put text 0 0 (put [UInt8.ofNat (((val <<< 6) + n) >>> 16),
        UInt8.ofNat ((((val <<< 6) + n) >>> 8) &&& 0xff),
        UInt8.ofNat (((val <<< 6) + n) &&& 0xff)] out) := by
  have hnonneg : ¬ value p < 0 := by omega
  have hnat : (value p).toNat = n := by omega
  simp only [decodeLoop, hp, hmore, hnonneg, hnat, ne_eq, not_false_eq_true, and_self, if_true,
    if_false]

theorem and_0x3f (v : Nat) : v &&& 0x3f = v % 64 := Nat.and_two_pow_sub_one_eq_mod v 6

theorem and_0xff (v : Nat) : v &&& 0xff = v % 256 := Nat.and_two_pow_sub_one_eq_mod v 8

theorem decodeLoop_quantum {a b c : UInt8} {p₁ p₂ p₃ p₄ : UInt8}
    (hne : p₁ ≠ 0 ∧ p₂ ≠ 0 ∧ p₃ ≠ 0 ∧ p₄ ≠ 0) {v : Nat}
    (hv : v = a.toNat <<< 16 + b.toNat <<< 8 + c.toNat)
    (h₁ : value p₁ = (v >>> 18 : Nat)) (h₂ : value p₂ = ((v >>> 12) &&& 0x3f : Nat))
    (h₃ : value p₃ = ((v >>> 6) &&& 0x3f : Nat)) (h₄ : value p₄ = (v &&& 0x3f : Nat))
    {out : σ} (hmore : more out = true) (text : List UInt8) :
    decodeLoop more put (p₁ :: p₂ :: p₃ :: p₄ :: text) 0 0 out =
      decodeLoop more put text 0 0 (put [a, b, c] out) := by
  have hb := b.toNat_lt
  have hc := c.toNat_lt
  have hword : ((((0 <<< 6 + v >>> 18) <<< 6 + (v >>> 12) % 64) <<< 6 + (v >>> 6) % 64) <<< 6 +
      v % 64) = v := by omega
  have hhigh : v >>> 16 = a.toNat := by omega
  have hmid : (v >>> 8) % 256 = b.toNat := by omega
  have hlow : v % 256 = c.toNat := by omega
  rw [decodeLoop_cons hne.1 h₁ hmore, if_pos (by decide), decodeLoop_cons hne.2.1 h₂ hmore,
    if_pos (by decide), decodeLoop_cons hne.2.2.1 h₃ hmore, if_pos (by decide),
    decodeLoop_cons hne.2.2.2 h₄ hmore, if_neg (by decide)]
  simp only [and_0x3f, and_0xff, hword, hhigh, hmid, hlow, UInt8.ofNat_toNat]

/-- A decoder that holds `bs` and takes every quantum up to `limit` bytes holds, after
the text of `x`, the padded `x` behind them. -/
theorem decodeLoop_textOf {Holds : List UInt8 → σ → Prop} {limit : Nat}
    (hmore : ∀ bs out, Holds bs out → bs.length + 3 ≤ limit → more out = true)
    (hput : ∀ bs out a b c, Holds bs out → Holds (bs ++ [a, b, c]) (put [a, b, c] out))
    {x bs : List UInt8} {out : σ} (hholds : Holds bs out)
    (hlimit : bs.length + 3 * quanta x ≤ limit) :
    Holds (bs ++ padded x) (decodeLoop more put (textOf x ++ [0]) 0 0 out) := by
  have hfour : ∀ {v : Nat}, v < 2 ^ 24 → v >>> 18 < 64 ∧ (v >>> 12) &&& 0x3f < 64 ∧
      (v >>> 6) &&& 0x3f < 64 ∧ v &&& 0x3f < 64 := by
    intro v hv
    simp only [and_0x3f]
    omega
  have hend : ∀ out : σ, decodeLoop more put [0] 0 0 out = out := by
    intro out
    simp [decodeLoop]
  induction x using textOf.induct generalizing bs out with
  | case1 a b c x ih =>
    have ha := a.toNat_lt
    have hb := b.toNat_lt
    have hc := c.toNat_lt
    have hquanta : quanta (a :: b :: c :: x) = quanta x + 1 := by
      simp only [quanta, length_cons]
      omega
    obtain ⟨h₁, h₂, h₃, h₄⟩ := hfour (by omega : a.toNat <<< 16 + b.toNat <<< 8 + c.toNat < 2 ^ 24)
    have hnext := ih (hput bs out a b c hholds) (by
      rw [length_append]
      simp only [length_cons, length_nil]
      omega)
    rw [textOf, quantum, padded_cons₃, ← append_assoc]
    simp only [cons_append, nil_append]
    rw [decodeLoop_quantum ⟨code_ne_zero h₁, code_ne_zero h₂, code_ne_zero h₃, code_ne_zero h₄⟩ rfl
      (value_code h₁) (value_code h₂) (value_code h₃) (value_code h₄)
      (hmore bs out hholds (by omega))]
    exact hnext
  | case2 a b =>
    have ha := a.toNat_lt
    have hb := b.toNat_lt
    have hquanta : quanta [a, b] = 1 := by simp only [quanta, length_cons, length_nil]
    have hlow : (a.toNat <<< 16 + b.toNat <<< 8) &&& 0x3f = 0 := by
      rw [and_0x3f]
      omega
    obtain ⟨h₁, h₂, h₃, -⟩ := hfour (by omega : a.toNat <<< 16 + b.toNat <<< 8 < 2 ^ 24)
    have hone : decodeLoop more put (textOf [a, b] ++ [0]) 0 0 out = put [a, b, 0] out := by
      rw [textOf, quantum]
      simp only [take_succ_cons, take_zero, cons_append, nil_append]
      rw [decodeLoop_quantum (a := a) (b := b) (c := 0) (v := a.toNat <<< 16 + b.toNat <<< 8)
        ⟨code_ne_zero h₁, code_ne_zero h₂, code_ne_zero h₃, by decide⟩
        (by rw [UInt8.toNat_zero, Nat.add_zero])
        (value_code h₁) (value_code h₂) (value_code h₃) (by rw [hlow]; exact value_pad)
        (hmore bs out hholds (by omega)), hend]
    rw [hone]
    exact hput bs out a b 0 hholds
  | case3 a =>
    have ha := a.toNat_lt
    have hquanta : quanta [a] = 1 := by simp only [quanta, length_cons, length_nil]
    have hmid : (a.toNat <<< 16) >>> 6 &&& 0x3f = 0 := by
      rw [and_0x3f]
      omega
    have hlow : (a.toNat <<< 16) &&& 0x3f = 0 := by
      rw [and_0x3f]
      omega
    obtain ⟨h₁, h₂, -, -⟩ := hfour (by omega : a.toNat <<< 16 < 2 ^ 24)
    have hone : decodeLoop more put (textOf [a] ++ [0]) 0 0 out = put [a, 0, 0] out := by
      rw [textOf, quantum]
      simp only [take_succ_cons, take_zero, cons_append, nil_append]
      rw [decodeLoop_quantum (a := a) (b := 0) (c := 0) (v := a.toNat <<< 16)
        ⟨code_ne_zero h₁, code_ne_zero h₂, by decide, by decide⟩
        (by rw [UInt8.toNat_zero, Nat.zero_shiftLeft, Nat.add_zero])
        (value_code h₁) (value_code h₂) (by rw [hmid]; exact value_pad)
        (by rw [hlow]; exact value_pad) (hmore bs out hholds (by omega)), hend]
    rw [hone]
    exact hput bs out a 0 0 hholds
  | case4 =>
    rw [textOf, nil_append, hend, padded]
    simpa using hholds

end Decoders

theorem decodeBin_encodeBin {x : List UInt8} (hfits : 4 * quanta x + 1 ≤ resultSz) {outSz : Int}
    (hsz : 3 * (quanta x : Int) + 1 < outSz) :
    decodeBin (encodeBin x) outSz = ((padded x).length, padded x) := by
  have hloop := @decodeLoop_textOf (List UInt8) (fun out => (out.length : Int) + 4 < outSz)
    (fun quantum out => out ++ quantum) (fun bs out => out = bs) (3 * quanta x)
    (by
      intro bs out hout hlimit
      rw [hout]
      exact decide_eq_true (by omega))
    (by
      intro bs out a b c hout
      rw [hout])
    x [] [] rfl (by simp)
  rw [nil_append] at hloop
  rw [encodeBin_eq hfits, decodeBin, hloop]

theorem decodeToMb_encodeBin {x : List UInt8} (hfits : 4 * quanta x + 1 ≤ resultSz) {mb : MemBuffer}
    (hwf : mb.WF) :
    (decodeToMb (encodeBin x) mb).2.WF ∧
      MemBufferContent.content (decodeToMb (encodeBin x) mb).2 =
        MemBufferContent.content mb ++ padded x := by
  have hloop := @decodeLoop_textOf MemBuffer (fun _ => true) (fun quantum mb => mb.add quantum)
    (fun bs mb' => mb'.WF ∧ MemBufferContent.content mb' = MemBufferContent.content mb ++ bs)
    (3 * quanta x)
    (by
      intro bs mb' _ _
      rfl)
    (by
      intro bs mb' a b c hmb
      constructor
      · exact hmb.1.add _
      · rw [MemBufferContent.content, MemBuffer.take_add hmb.1, ← append_assoc, ← hmb.2]
        rfl)
    x [] mb ⟨hwf, (append_nil _).symm⟩ (by simp)
  rw [nil_append] at hloop
  rw [encodeBin_eq hfits]
  exact hloop

/-- Only what fills its quanta comes back, the text being one that fits `result`. -/
theorem roundTrips_iff {x : List UInt8} (hfits : 4 * quanta x + 1 ≤ resultSz) :
    (ReturnsBin x ↔ x.length % 3 = 0) ∧ (ReturnsToMb x ↔ x.length % 3 = 0) := by
  rw [← padded_eq_self_iff]
  constructor
  · constructor
    · intro h
      have hsome := h (3 * (quanta x : Int) + 2) (by omega)
      rw [decodeBin_encodeBin hfits (by omega)] at hsome
      exact (Prod.mk.inj hsome).2
    · intro hx outSz hsz
      rw [decodeBin_encodeBin hfits hsz, hx]
  · constructor
    · intro h
      have hwf := MemBuffer.wf_new 0
      have hadded := (decodeToMb_encodeBin hfits hwf).2
      rw [(h _ hwf).2] at hadded
      exact (append_cancel_left hadded).symm
    · intro hx mb hwf
      have hadded := decodeToMb_encodeBin hfits hwf
      rw [hx] at hadded
      exact hadded

theorem roundTrips_iff_threeBytes :
    (ReturnsBin [65, 66, 67] ↔ [65, 66, 67].length % 3 = 0) ∧
      (ReturnsToMb [65, 66, 67] ↔ [65, 66, 67].length % 3 = 0) :=
  @roundTrips_iff [65, 66, 67] (by decide)

/-- One byte comes back as three, from either decoder. -/
theorem one_byte_comes_back_padded :
    decodeBin (encodeBin [65]) 64 = (3, [65, 0, 0]) ∧ ¬ ReturnsBin [65] ∧
      (decodeToMb (encodeBin [65]) (MemBuffer.new 0)).2.bytes = [65, 0, 0] ∧
        ¬ ReturnsToMb [65] := by
  have hdecoded : decodeBin (encodeBin [65]) 64 = (3, [65, 0, 0]) := by decide
  have hadded : MemBufferContent.content (decodeToMb (encodeBin [65]) (MemBuffer.new 0)).2 =
      [65, 0, 0] := by decide
  refine ⟨hdecoded, ?_, by decide, ?_⟩
  · intro h
    have hback := h 64 (by decide)
    rw [hdecoded] at hback
    exact absurd hback (by decide)
  · intro h
    have hback := (h (MemBuffer.new 0) (MemBuffer.wf_new 0)).2
    rw [hadded] at hback
    exact absurd hback (by decide)

end Base64
