import BrbFramework.Crypto.Blowfish
import BrbFramework.Data.MemBufferContent
import BrbFramework.Lib.LittleEndian

/-!
# The encryption of a memory buffer

`MemBufferEncryptData` enciphers the pairs of words that cover the content and
sets the size to the end of the last one; `MemBufferDecryptData` deciphers pairs
of words until it meets a zero word, and sets the size to where it stopped. The
first takes four bytes of the key, the second all of them.

`roundTrip_iff` says which contents come back.
-/

namespace BrbData

open Blowfish Handler Machine List

namespace MemBufferCrypt

open MemBufferContent

/-! ## Pairs of words -/

/-- The word of 64 bits in the first eight bytes. -/
def wordOf (bs : List UInt8) : UInt64 := UInt64.ofNat (LittleEndian.toNat (bs.take 8))

def wordBytes (w : UInt64) : List UInt8 := LittleEndian.ofNat 8 w.toNat

def pairOf (bs : List UInt8) : UInt64 × UInt64 := (wordOf bs, wordOf (bs.drop 8))

def pairBytes (x : UInt64 × UInt64) : List UInt8 := wordBytes x.1 ++ wordBytes x.2

/-- The pair of words at `pos`. -/
def pairAt (data : List UInt8) (pos : Nat) : UInt64 × UInt64 := pairOf ((data.drop pos).take 16)

@[simp] theorem length_pairBytes (x : UInt64 × UInt64) : (pairBytes x).length = 16 := by
  simp [pairBytes, wordBytes]

theorem wordOf_wordBytes (w : UInt64) (bs : List UInt8) : wordOf (wordBytes w ++ bs) = w := by
  have htake : (wordBytes w ++ bs).take 8 = wordBytes w := take_left' (by simp [wordBytes])
  have hlt : w.toNat < 256 ^ 8 := w.toNat_lt
  rw [wordOf, htake, wordBytes, LittleEndian.toNat_ofNat, Nat.mod_eq_of_lt hlt,
    UInt64.ofNat_toNat]

theorem pairOf_pairBytes (x : UInt64 × UInt64) : pairOf (pairBytes x) = x := by
  have hdrop : (pairBytes x).drop 8 = wordBytes x.2 ++ [] := by
    rw [pairBytes, drop_left' (by simp [wordBytes]), append_nil]
  rw [pairOf, hdrop, wordOf_wordBytes, pairBytes, wordOf_wordBytes]

theorem wordBytes_wordOf {bs : List UInt8} (h : 8 ≤ bs.length) :
    wordBytes (wordOf bs) = bs.take 8 := by
  have hlen : (bs.take 8).length = 8 := by rw [length_take]; omega
  have hlt := LittleEndian.toNat_lt (bs.take 8)
  have hback := LittleEndian.ofNat_toNat (bs.take 8)
  rw [hlen] at hlt hback
  rw [wordBytes, wordOf, UInt64.toNat_ofNat_of_lt' (by simpa using hlt), hback]

theorem pairBytes_pairOf {bs : List UInt8} (h : bs.length = 16) : pairBytes (pairOf bs) = bs := by
  have hdrop : (bs.drop 8).take 8 = bs.drop 8 := take_of_length_le (by simp [h])
  rw [pairBytes, pairOf, wordBytes_wordOf (by omega), wordBytes_wordOf (by simp [h]), hdrop,
    take_append_drop]

/-! ## The two calls -/

/-- The words of `enc_key`, each with the seed for the next one. -/
def encKeyWords (seed : UInt32) : List UInt32 :=
  ((List.range 16).foldl (fun (st : List UInt32 × UInt32) i =>
    let word := (UInt32.ofNat i + st.2) * st.2 + 13 * UInt32.ofNat i
    (st.1 ++ [word], word * st.2)) ([], seed)).1

/-- `enc_key` as bytes. -/
def encKey (seed : UInt32) : List UInt8 :=
  (encKeyWords seed).flatMap fun word => LittleEndian.ofNat 4 word.toNat

/-- The context of `MemBufferEncryptData`: the key length is `sizeof(enc_key[16])`. -/
def encryptCtx (seed : UInt32) : Ctx := Blowfish.init (encKey seed) 4

/-- The context of `MemBufferDecryptData`: the key length is `sizeof(enc_key)`. -/
def decryptCtx (seed : UInt32) : Ctx := Blowfish.init (encKey seed) 64

/-- `raw_data_ptr` as a position in the allocation. -/
def rawData (offset : Nat) : M Nat := do
  let mb ← get
  if offset = 0 then pure mb.offset
  else
    assertThat (offset ≤ mb.capacity) .null
    pure (uint64 (mb.offset + offset))

/-- The loop of `MemBufferEncryptData` over `n` pairs. -/
def encryptPairs (ctx : Ctx) : Nat → Nat → M PUnit
  | 0, _ => pure ()
  | n + 1, pos => do
      let mb ← get
      assertThat (pos + 16 ≤ mb.data.length) .outside
      set { mb with data := splice mb.data pos (pairBytes (encrypt ctx (pairAt mb.data pos))) }
      encryptPairs ctx n (pos + 16)

/-- The loop of `MemBufferDecryptData` over at most `n` pairs, and how many of
them it deciphered. Where the first word is zero the second one is not read. -/
def decryptPairs (ctx : Ctx) : Nat → Nat → M Nat
  | 0, _ => pure 0
  | n + 1, pos => do
      let mb ← get
      let x := pairAt mb.data pos
      assertThat (pos + 16 ≤ mb.data.length ∨ pos + 8 ≤ mb.data.length ∧ x.1 = 0) .outside
      if x.1 = 0 ∨ x.2 = 0 then pure 0
      else
        set { mb with data := splice mb.data pos (pairBytes (decrypt ctx x)) }
        let r ← decryptPairs ctx n (pos + 16)
        pure (r + 1)

/-- `MemBufferEncryptData`. -/
def encryptData (seed : UInt32) (offset : Nat) : M PUnit := do
  let mb ← get
  let dataSize := uint64 (uint64Sub mb.size mb.offset + offset)
  let blocks := dataSize / 8 + 2
  checkForGrow (uint64 ((blocks + 1) * 8))
  let pos ← rawData offset
  let pairs := (blocks + 1) / 2
  encryptPairs (encryptCtx seed) pairs pos
  modify fun mb => { mb with size := uint64 (16 * pairs + offset) }

/-- `MemBufferDecryptData`. -/
def decryptData (seed : UInt32) (offset : Nat) : M PUnit := do
  let mb ← get
  let dataSize := uint64Sub (uint64Sub mb.size mb.offset) offset
  let blocks := dataSize / 8 + 2
  checkForGrow (uint64 ((blocks + 1) * 8))
  let pos ← rawData offset
  let pairs ← decryptPairs (decryptCtx seed) ((blocks + 1) / 2) pos
  modify fun mb => { mb with size := uint64 (16 * pairs + offset) }

/-! ## What the loops leave -/

/-- The `n` pairs of words from `pos` on were replaced by what `f` makes of them. -/
structure Paired (f : UInt64 × UInt64 → UInt64 × UInt64) (n pos : Nat) (data data' : List UInt8) :
    Prop where
  length : data'.length = data.length
  inside : ∀ i < n, pairAt data' (pos + 16 * i) = f (pairAt data (pos + 16 * i))
  outside : ∀ j, j < pos ∨ pos + 16 * n ≤ j → data'[j]? = data[j]?

section Loops

variable {f : UInt64 × UInt64 → UInt64 × UInt64} {data data' : List UInt8} {pos n : Nat}

theorem pairAt_congr (h : ∀ j, pos ≤ j → j < pos + 16 → data'[j]? = data[j]?) :
    pairAt data' pos = pairAt data pos := by
  have hslice : (data'.drop pos).take 16 = (data.drop pos).take 16 := by
    refine ext_getElem? fun j => ?_
    by_cases hj : j < 16
    · rw [getElem?_take_of_lt hj, getElem?_take_of_lt hj, getElem?_drop,
        getElem?_drop, h _ (by omega) (by omega)]
    · rw [getElem?_take_eq_none (by omega), getElem?_take_eq_none (by omega)]
  rw [pairAt, hslice, pairAt]

theorem pairAt_splice (x : UInt64 × UInt64) (h : pos + 16 ≤ data.length) :
    pairAt (splice data pos (pairBytes x)) pos = x := by
  have hslice := @take_drop_splice _ data (pairBytes x) pos (by omega)
  rw [length_pairBytes] at hslice
  rw [pairAt, hslice, pairOf_pairBytes]

theorem getElem?_pairBytes (h : pos + 16 ≤ data.length) {j : Nat} (hj : j < 16) :
    (pairBytes (pairAt data pos))[j]? = data[pos + j]? := by
  have hlen : ((data.drop pos).take 16).length = 16 := by
    rw [length_take, length_drop]
    omega
  rw [pairAt, pairBytes_pairOf hlen, getElem?_take_of_lt hj, getElem?_drop]

theorem Paired.zero : Paired f 0 pos data data where
  length := rfl
  inside i hi := absurd hi (Nat.not_lt_zero i)
  outside _ _ := rfl

theorem Paired.succ (h : pos + 16 ≤ data.length)
    (hrest : Paired f n (pos + 16) (splice data pos (pairBytes (f (pairAt data pos)))) data') :
    Paired f (n + 1) pos data data' where
  length := by
    rw [hrest.length, length_splice (by rw [length_pairBytes]; exact h)]
  inside i hi := by
    cases i with
    | zero =>
        have hsame : pairAt data' pos =
            pairAt (splice data pos (pairBytes (f (pairAt data pos)))) pos :=
          pairAt_congr fun j _ hj => hrest.outside j (.inl hj)
        rw [Nat.mul_zero, Nat.add_zero, hsame, pairAt_splice _ h]
    | succ i =>
        have hthere := hrest.inside i (by omega)
        have hsame : pairAt (splice data pos (pairBytes (f (pairAt data pos))))
            (pos + 16 + 16 * i) = pairAt data (pos + 16 + 16 * i) :=
          pairAt_congr fun j hj _ => splice_above (by rw [length_pairBytes]; exact h)
            (by rw [length_pairBytes]; omega)
        rw [show pos + 16 * (i + 1) = pos + 16 + 16 * i by omega, hthere, hsame]
  outside j hj := by
    rw [hrest.outside j (by omega)]
    rcases hj with hj | hj
    · exact splice_below (by rw [length_pairBytes]; exact h) hj
    · exact splice_above (by rw [length_pairBytes]; exact h) (by rw [length_pairBytes]; omega)

variable {mb : MemBuffer} (ctx : Ctx)

theorem encryptPairs_ends (h : pos + 16 * n ≤ mb.data.length) :
    Ends (encryptPairs ctx n pos) mb
      (fun _ mb' => ∃ data', mb' = { mb with data := data' } ∧
        Paired (encrypt ctx) n pos mb.data data')
      fun _ _ => False := by
  induction n generalizing pos mb with
  | zero => exact ⟨mb.data, rfl, .zero⟩
  | succ n ih =>
      have hin : pos + 16 ≤ mb.data.length := by omega
      unfold encryptPairs
      rw [ends_bind, ends_get, ends_bind, ends_assertThat]
      refine ⟨fun _ => ?_, fun hout => absurd hin (of_decide_eq_false hout)⟩
      rw [ends_bind, ends_set]
      refine (ih ?_).imp ?_
      · simp only
        rw [length_splice (by rw [length_pairBytes]; exact hin)]
        omega
      · rintro _ _ ⟨data', rfl, hrest⟩
        exact ⟨data', rfl, .succ hin hrest⟩

/-- The pair of words at `pos` ends the deciphering. -/
def Stops (x : UInt64 × UInt64) : Prop := x.1 = 0 ∨ x.2 = 0

theorem decryptPairs_ends (h : pos + 16 * n ≤ mb.data.length) :
    Ends (decryptPairs ctx n pos) mb
      (fun r mb' => r ≤ n ∧ (∀ i < r, ¬ Stops (pairAt mb.data (pos + 16 * i))) ∧
        (r < n → Stops (pairAt mb.data (pos + 16 * r))) ∧
        ∃ data', mb' = { mb with data := data' } ∧ Paired (decrypt ctx) r pos mb.data data')
      fun _ _ => False := by
  induction n generalizing pos mb with
  | zero =>
      exact ⟨le_rfl, fun i hi => absurd hi (Nat.not_lt_zero i), fun h => absurd h (lt_irrefl 0),
        mb.data, rfl, .zero⟩
  | succ n ih =>
      have hin : pos + 16 ≤ mb.data.length := by omega
      unfold decryptPairs
      rw [ends_bind, ends_get, ends_bind, ends_assertThat]
      refine ⟨fun _ => ?_, fun hout => absurd (.inl hin) (of_decide_eq_false hout)⟩
      rw [ends_ite]
      refine ⟨fun hzero => ?_, fun hzero => ?_⟩
      · rw [ends_pure]
        exact ⟨Nat.zero_le _, fun i hi => absurd hi (Nat.not_lt_zero i), fun _ => hzero,
          mb.data, rfl, .zero⟩
      · rw [ends_bind, ends_set, ends_bind]
        have hlen : (splice mb.data pos (pairBytes (decrypt ctx (pairAt mb.data pos)))).length =
            mb.data.length := length_splice (by rw [length_pairBytes]; exact hin)
        -- the pairs behind this one are what they were
        have hsame : ∀ i, pairAt (splice mb.data pos (pairBytes (decrypt ctx (pairAt mb.data pos))))
            (pos + 16 + 16 * i) = pairAt mb.data (pos + 16 * (i + 1)) := fun i => by
          rw [show pos + 16 * (i + 1) = pos + 16 + 16 * i by omega]
          exact pairAt_congr fun j hj _ => splice_above (by rw [length_pairBytes]; exact hin)
            (by rw [length_pairBytes]; omega)
        refine (ih ?_).imp ?_
        · simp only
          omega
        · rintro r _ ⟨hr, hgoes, hstops, data', rfl, hrest⟩
          simp only [hsame] at hgoes hstops
          rw [ends_pure]
          refine ⟨Nat.succ_le_succ hr, fun i hi => ?_, fun hlt => hstops (by omega), data', rfl,
            .succ hin hrest⟩
          cases i with
          | zero => exact hzero
          | succ i => exact hgoes i (by omega)

end Loops

section Back

variable {f₁ f₂ : UInt64 × UInt64 → UInt64 × UInt64} {offset n r : Nat}
  {d d₁ d₁' d₂ : List UInt8}

/-- The bytes that `f₁` and then `f₂` made of those of `d` are those of `d` again
where no pair stopped the second loop early and every pair comes back. -/
theorem back_iff (size : Nat) (h₁ : Paired f₁ n offset d d₁)
    (hkept : ∀ j < 16 * n + offset, d₁'[j]? = d₁[j]?)
    (hgoes : ∀ i < r, ¬ Stops (pairAt d₁' (offset + 16 * i)))
    (hstops : r < n + 1 → Stops (pairAt d₁' (offset + 16 * r)))
    (h₂ : Paired f₂ r offset d₁' d₂) (hcover : size ≤ 16 * n + offset)
    (hd : 16 * n + offset ≤ d.length) (hd₁ : 16 * n + offset ≤ d₁'.length) :
    (size ≤ 16 * r + offset ∧ ∀ j < size, d₂[j]? = d[j]?) ↔
      ∀ i, offset + 16 * i < size →
        ¬ Stops (f₁ (pairAt d (offset + 16 * i))) ∧
          (pairBytes (f₂ (f₁ (pairAt d (offset + 16 * i))))).take (size - (offset + 16 * i)) =
            (pairBytes (pairAt d (offset + 16 * i))).take (size - (offset + 16 * i)) := by
  have hcipher : ∀ i < n, pairAt d₁' (offset + 16 * i) = f₁ (pairAt d (offset + 16 * i)) :=
    fun i hi => (pairAt_congr fun j _ hj => hkept j (by omega)).trans (h₁.inside i hi)
  have hback : ∀ i, i < n → i < r → ∀ j < 16,
      (pairBytes (f₂ (f₁ (pairAt d (offset + 16 * i)))))[j]? = d₂[offset + 16 * i + j]? := by
    intro i hin hir j hj
    rw [← hcipher i hin, ← h₂.inside i hir]
    exact getElem?_pairBytes (by rw [h₂.length]; omega) hj
  have hthere : ∀ i, i < n → ∀ j < 16,
      (pairBytes (pairAt d (offset + 16 * i)))[j]? = d[offset + 16 * i + j]? :=
    fun i hin j hj => getElem?_pairBytes (by omega) hj
  constructor
  · rintro ⟨hsize, hsame⟩ i hi
    have hin : i < n := by omega
    have hir : i < r := by omega
    refine ⟨hcipher i hin ▸ hgoes i hir, ext_getElem? fun j => ?_⟩
    by_cases hj : j < size - (offset + 16 * i)
    · rw [getElem?_take_of_lt hj, getElem?_take_of_lt hj]
      by_cases hj16 : j < 16
      · rw [hback i hin hir j hj16, hthere i hin j hj16, hsame _ (by omega)]
      · rw [getElem?_eq_none (by rw [length_pairBytes]; omega),
          getElem?_eq_none (by rw [length_pairBytes]; omega)]
    · rw [getElem?_take_eq_none (by omega), getElem?_take_eq_none (by omega)]
  · intro hpairs
    have hsize : size ≤ 16 * r + offset := by
      by_contra hshort
      have hrn : r < n := by omega
      have hstop := hstops (by omega)
      rw [hcipher r hrn] at hstop
      exact (hpairs r (by omega)).1 hstop
    refine ⟨hsize, fun j hj => ?_⟩
    rcases Nat.lt_or_ge j offset with hlow | hlow
    · rw [h₂.outside j (.inl hlow), hkept j (by omega), h₁.outside j (.inl hlow)]
    · -- the pair with the byte
      obtain ⟨i, k, hk, rfl⟩ : ∃ i k, k < 16 ∧ j = offset + 16 * i + k :=
        ⟨(j - offset) / 16, (j - offset) % 16, Nat.mod_lt _ (by decide), by omega⟩
      have hin : i < n := by omega
      have htake := congrArg (·[k]?) (hpairs i (by omega)).2
      simp only [getElem?_take_of_lt (show k < size - (offset + 16 * i) by omega)] at htake
      rw [← hback i hin (by omega) k hk, htake, hthere i hin k hk]

end Back

/-! ## The round trip -/

/-- Whoever deciphers with the same seed and offset finds what was in use, and
behind it at most the padding of the last pair. -/
def RoundTrip (seed : UInt32) (offset : Nat) (mb : MemBuffer) : Prop :=
  Ends (do encryptData seed offset; decryptData seed offset) mb
    (fun _ mb' => mb.bytes <+: mb'.bytes) fun _ _ => False

/-- The buffer as `MemBufferEncryptData` finds it after it asked for room. -/
def grown (offset : Nat) (mb : MemBuffer) : MemBuffer :=
  mb.checkForGrow (((mb.size + offset) / 8 + 2 + 1) * 8)

/-- Every pair of words with bytes of the content is enciphered to two words
other than zero, and the key of 64 bytes enciphers a pair with the same bytes of
the content to them. -/
def Survives (seed : UInt32) (offset : Nat) (mb : MemBuffer) : Prop :=
  ∀ i, offset + 16 * i < mb.size →
    ¬ Stops (encrypt (encryptCtx seed) (pairAt (grown offset mb).data (offset + 16 * i))) ∧
      ∃ x, encrypt (decryptCtx seed) x =
          encrypt (encryptCtx seed) (pairAt (grown offset mb).data (offset + 16 * i)) ∧
        (pairBytes x).take (mb.size - (offset + 16 * i)) =
          (pairBytes (pairAt (grown offset mb).data (offset + 16 * i))).take
            (mb.size - (offset + 16 * i))

section Calls

variable {mb : MemBuffer} {seed : UInt32} {offset : Nat}

theorem ends_rawData {Q : Nat → MemBuffer → Prop} {E : Fault → MemBuffer → Prop}
    (hbase : mb.offset = 0) (hin : offset ≤ mb.capacity) (hlt : offset < 2 ^ 64) :
    Ends (rawData offset) mb Q E ↔ Q offset mb := by
  unfold rawData
  rw [ends_bind, ends_get]
  by_cases hzero : offset = 0
  · rw [if_pos hzero, ends_pure, hbase, hzero]
  · rw [if_neg hzero, ends_bind, ends_assertThat]
    simp [hin, hbase, uint64_of_lt hlt]

def Small (mb : MemBuffer) : Prop := mb.capacity + mb.growRate < 2 ^ 60

theorem encryptData_ends (h : mb.Plain) (hsmall : Small mb) (hoffset : offset ≤ mb.size) :
    Ends (encryptData seed offset) mb
      (fun _ mb' => ∃ data, mb' = { grown offset mb with
          data := data, size := 16 * (((mb.size + offset) / 8 + 2 + 1) / 2) + offset } ∧
        Paired (encrypt (encryptCtx seed)) (((mb.size + offset) / 8 + 2 + 1) / 2) offset
          (grown offset mb).data data)
      fun _ _ => False := by
  have hused := h.used
  unfold Small at hsmall
  have hsize : uint64 (uint64Sub mb.size mb.offset + offset) = mb.size + offset := by
    rw [h.offset, uint64Sub_of_le (Nat.zero_le _) (by omega), uint64_of_lt (by omega), Nat.sub_zero]
  have hgrow : uint64 (((mb.size + offset) / 8 + 2 + 1) * 8) =
      ((mb.size + offset) / 8 + 2 + 1) * 8 := uint64_of_lt (by omega)
  have hroom : Room mb (((mb.size + offset) / 8 + 2 + 1) * 8) := by
    unfold Room
    omega
  have hcap := MemBuffer.room_checkForGrow (((mb.size + offset) / 8 + 2 + 1) * 8) h.toWF
  have hdata := (h.toWF.checkForGrow (((mb.size + offset) / 8 + 2 + 1) * 8)).allocated
  have hbase : (mb.checkForGrow (((mb.size + offset) / 8 + 2 + 1) * 8)).offset = 0 := by
    rw [MemBuffer.checkForGrow_offset, h.offset]
  unfold encryptData grown
  rw [ends_bind, ends_get]
  simp only [hsize, hgrow]
  rw [ends_bind, ends_checkForGrow hroom, ends_bind, ends_rawData hbase (by omega) (by omega),
    ends_bind]
  refine (encryptPairs_ends (encryptCtx seed) (by omega)).imp ?_
  rintro _ _ ⟨data, rfl, hpaired⟩
  rw [ends_modify, uint64_of_lt (by omega)]
  exact ⟨data, rfl, hpaired⟩

theorem decryptData_ends {n : Nat} (h : mb.Plain) (hsize : mb.size = 16 * n + offset)
    (hlt : mb.capacity + mb.growRate < 2 ^ 62) :
    Ends (decryptData seed offset) mb
      (fun _ mb' => ∃ r data, r ≤ n + 1 ∧
        (∀ i < r, ¬ Stops (pairAt (mb.checkForGrow ((2 * n + 3) * 8)).data (offset + 16 * i))) ∧
        (r < n + 1 → Stops (pairAt (mb.checkForGrow ((2 * n + 3) * 8)).data (offset + 16 * r))) ∧
        mb' = { mb.checkForGrow ((2 * n + 3) * 8) with data := data, size := 16 * r + offset } ∧
        Paired (decrypt (decryptCtx seed)) r offset (mb.checkForGrow ((2 * n + 3) * 8)).data data)
      fun _ _ => False := by
  have hused := h.used
  have hdiff : uint64Sub (uint64Sub mb.size mb.offset) offset = 16 * n := by
    rw [h.offset, uint64Sub_of_le (Nat.zero_le _) (by omega),
      uint64Sub_of_le (by omega) (by omega)]
    omega
  have hblocks : 16 * n / 8 + 2 + 1 = 2 * n + 3 := by omega
  have hpairs : (2 * n + 3) / 2 = n + 1 := by omega
  have hgrow : uint64 ((2 * n + 3) * 8) = (2 * n + 3) * 8 := uint64_of_lt (by omega)
  have hroom : Room mb ((2 * n + 3) * 8) := by
    unfold Room
    omega
  have hcap := MemBuffer.room_checkForGrow ((2 * n + 3) * 8) h.toWF
  have hdata := (h.toWF.checkForGrow ((2 * n + 3) * 8)).allocated
  have hbase : (mb.checkForGrow ((2 * n + 3) * 8)).offset = 0 := by
    rw [MemBuffer.checkForGrow_offset, h.offset]
  unfold decryptData
  rw [ends_bind, ends_get]
  simp only [hdiff, hblocks, hpairs, hgrow]
  rw [ends_bind, ends_checkForGrow hroom, ends_bind, ends_rawData hbase (by omega) (by omega),
    ends_bind]
  refine (decryptPairs_ends (decryptCtx seed) (by omega)).imp ?_
  rintro r _ ⟨hr, hgoes, hstops, data, rfl, hpaired⟩
  rw [ends_modify, uint64_of_lt (by omega)]
  exact ⟨r, data, hr, hgoes, hstops, rfl, hpaired⟩

theorem plain_encrypted (h : mb.Plain) (hoffset : offset ≤ mb.size) {data : List UInt8}
    (hdata : data.length = (grown offset mb).data.length) :
    MemBuffer.Plain { grown offset mb with
      data := data, size := 16 * (((mb.size + offset) / 8 + 2 + 1) / 2) + offset } where
  allocated := by
    simp only [hdata]
    exact (h.toWF.checkForGrow _).allocated
  used := by
    have hcap := MemBuffer.room_checkForGrow (((mb.size + offset) / 8 + 2 + 1) * 8) h.toWF
    simp only [grown]
    omega
  offset := by
    rw [← h.offset]
    exact MemBuffer.checkForGrow_offset _

theorem take_prefix_take_iff {l l' : List UInt8} {a b : Nat} (ha : a ≤ l.length)
    (hb : b ≤ l'.length) : l.take a <+: l'.take b ↔ a ≤ b ∧ ∀ j < a, l'[j]? = l[j]? := by
  constructor
  · intro h
    have hlen := h.length_le
    rw [length_take, length_take, Nat.min_eq_left ha, Nat.min_eq_left hb] at hlen
    refine ⟨hlen, fun j hj => ?_⟩
    have hat := prefix_iff_getElem?.mp h j (by rw [length_take]; omega)
    rw [getElem?_take_of_lt (by omega)] at hat
    rw [hat, getElem_take, getElem?_eq_getElem]
  · rintro ⟨hlen, hsame⟩
    refine prefix_iff_getElem?.mpr fun j hj => ?_
    rw [length_take] at hj
    rw [getElem?_take_of_lt (by omega), hsame j (by omega), getElem_take,
      getElem?_eq_getElem]

theorem exists_encrypt_iff {ctx : Ctx} {y : UInt64 × UInt64} {P : UInt64 × UInt64 → Prop} :
    (∃ x, encrypt ctx x = y ∧ P x) ↔ P (decrypt ctx y) := by
  constructor
  · rintro ⟨x, rfl, hx⟩
    rwa [decrypt_encrypt]
  · exact fun hy => ⟨decrypt ctx y, encrypt_decrypt ctx y, hy⟩

theorem encrypt_decrypt_ends (h : mb.Plain) (hsmall : Small mb) (hoffset : offset ≤ mb.size) :
    Ends (do encryptData seed offset; decryptData seed offset) mb
      (fun _ mb' => mb.bytes <+: mb'.bytes ↔ Survives seed offset mb) fun _ _ => False := by
  have hused := h.used
  have hallocated := h.allocated
  have hlow : ∀ j < mb.size, (grown offset mb).data[j]? = mb.data[j]? := fun j hj =>
    MemBuffer.checkForGrow_data _ h.toWF hj
  have hroom : mb.size + ((mb.size + offset) / 8 + 2 + 1) * 8 ≤ (grown offset mb).capacity :=
    MemBuffer.room_checkForGrow _ h.toWF
  have hcap : (grown offset mb).capacity ≤
      mb.capacity + mb.growRate + ((mb.size + offset) / 8 + 2 + 1) * 8 :=
    MemBuffer.checkForGrow_capacity_le _
  have hrate : (grown offset mb).growRate = mb.growRate := MemBuffer.checkForGrow_growRate _
  have hgrown := (h.toWF.checkForGrow (((mb.size + offset) / 8 + 2 + 1) * 8)).allocated
  change (grown offset mb).capacity ≤ (grown offset mb).data.length at hgrown
  unfold Small at hsmall
  rw [ends_bind]
  refine (encryptData_ends h hsmall hoffset).imp ?_
  rintro _ _ ⟨data, rfl, hencrypted⟩
  have hplain := plain_encrypted h hoffset hencrypted.length
  generalize hn : ((mb.size + offset) / 8 + 2 + 1) / 2 = n at *
  refine (decryptData_ends hplain rfl ?_).imp ?_
  · simp only [hrate]
    omega
  rintro _ _ ⟨r, data', hr, hgoes, hstops, rfl, hdecrypted⟩
  have hroom' := MemBuffer.room_checkForGrow ((2 * n + 3) * 8) hplain.toWF
  have hkept : ∀ j < 16 * n + offset, _ := fun j hj =>
    MemBuffer.checkForGrow_data ((2 * n + 3) * 8) hplain.toWF (i := j) hj
  have hwf' := hplain.toWF.checkForGrow ((2 * n + 3) * 8)
  have hbase' := (MemBuffer.checkForGrow_offset ((2 * n + 3) * 8)).trans hplain.offset
  generalize MemBuffer.checkForGrow _ ((2 * n + 3) * 8) = grown' at *
  have hallocated' := hwf'.allocated
  simp only at hroom' hkept
  have hplain' : MemBuffer.Plain { grown' with data := data', size := 16 * r + offset } :=
    ⟨⟨by simp only [hdecrypted.length]; exact hallocated', by simp only; omega⟩, hbase'⟩
  rw [h.bytes, hplain'.bytes, take_prefix_take_iff (by omega)
    (by simp only [hdecrypted.length]; omega)]
  have hback := back_iff mb.size hencrypted hkept hgoes hstops hdecrypted (by omega)
    (by omega) (by omega)
  have hsame : (∀ j < mb.size, data'[j]? = mb.data[j]?) ↔
      ∀ j < mb.size, data'[j]? = (grown offset mb).data[j]? :=
    forall₂_congr fun j hj => by rw [hlow j hj]
  simp only [hsame, hback, Survives, exists_encrypt_iff]

/-- **A content comes back exactly if it survives.** -/
theorem roundTrip_iff (seed : UInt32) (offset : Nat) (mb : MemBuffer) (h : mb.Plain)
    (hsmall : Small mb) (hoffset : offset ≤ mb.size) :
    RoundTrip seed offset mb ↔ Survives seed offset mb :=
  ends_iff (encrypt_decrypt_ends h hsmall hoffset)

/-- With a byte in front that is not enciphered. -/
theorem roundTrip_iff_three :
    RoundTrip 7 1 ((MemBuffer.new 4).add [1, 2, 3]) ↔
      Survives 7 1 ((MemBuffer.new 4).add [1, 2, 3]) :=
  roundTrip_iff 7 1 _ ((MemBuffer.plain_new 4).add [1, 2, 3]) (by unfold Small; decide) (by decide)

theorem not_roundTrip_pair {x : UInt64 × UInt64} (h : mb.Plain) (hsmall : Small mb)
    (hbytes : mb.bytes = pairBytes x) (hx : Stops (encrypt (encryptCtx seed) x)) :
    ¬ RoundTrip seed 0 mb := by
  have hsize : mb.size = 16 := by rw [← h.length_bytes, hbytes, length_pairBytes]
  have hfirst : pairAt (grown 0 mb).data 0 = x := by
    have hsame : (grown 0 mb).data.take mb.size = mb.data.take mb.size :=
      MemBuffer.take_checkForGrow h.toWF _
    rw [pairAt, drop_zero, ← hsize, hsame, ← h.bytes, hbytes, pairOf_pairBytes]
  intro hback
  have hgoes := ((ends_iff (encrypt_decrypt_ends h hsmall (Nat.zero_le _))).mp hback 0
    (by omega)).1
  rw [Nat.mul_zero, Nat.add_zero, hfirst] at hgoes
  exact hgoes hx

/-- The content that is enciphered to two zero words is not deciphered. -/
theorem not_roundTrip_zero : ¬ RoundTrip 1 0
    ((MemBuffer.new 64).add (pairBytes (decrypt (encryptCtx 1) (0, 0)))) := by
  have hstops : Stops (encrypt (encryptCtx 1) (decrypt (encryptCtx 1) (0, 0))) := by
    rw [encrypt_decrypt]
    exact .inl rfl
  refine not_roundTrip_pair ((MemBuffer.plain_new 64).add _) ?_ ?_ hstops
  · simp [Small, MemBuffer.add, MemBuffer.new, MemBuffer.checkForGrow]
  · rw [(MemBuffer.plain_new 64).bytes_add, MemBuffer.bytes_new, nil_append]

end Calls

end MemBufferCrypt

end BrbData
