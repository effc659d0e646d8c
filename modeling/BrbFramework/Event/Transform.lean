import BrbFramework.Crypto.Md5
import BrbFramework.Crypto.Rc4
import BrbFramework.Data.MemBuffer
import Mathlib.Data.List.SplitLengths

/-!
# The content transformer of `event/aio/ev_kq_aio_transform.c`

Both ends of a connection enable the cipher with the same key. The sender
transforms each write into a buffer of its own, the receiver each read, and
neither knows where the other one cut the stream. With RC4 the two agree as
long as `BRB_RC4_Crypt`, whose length is an `int`, takes the same bytes on both
sides: `roundTrip_rc4_iff`. With RC4_MD5 each write starts with a header of 30
bytes, and the receiver hides the first 30 bytes of each read:
`roundTrip_rc4Md5_iff`.
-/

namespace EvAIOReqTransform

open BrbData Machine List

/-- `COMM_CRYPTO_FUNC_*`. -/
inductive CryptoFunc
  | none | rc4 | rc4Md5 | blowfish
  deriving DecidableEq

/-- `CRYPTO_OPERATION_READ` and `CRYPTO_OPERATION_WRITE`, with what `arc4random`
gave for the salt of a write. -/
inductive CryptoOperation
  | read
  | write (randomSalt : UInt32)

/-- `CommEvCryptoInfo`. No operation uses the Blowfish contexts. -/
structure CommEvCryptoInfo where
  algoCode : CryptoFunc := .none
  enabled : Bool := false
  readState : Rc4.State := .zero
  writeState : Rc4.State := .zero

/-- `EvAIOReqTransform_CryptoEnable`. `BRB_RC4_Init` divides by the length of
the key. -/
def cryptoEnable (crypto : CommEvCryptoInfo) (algoCode : CryptoFunc) (key : List UInt8) :
    Option CommEvCryptoInfo :=
  match algoCode with
  | .rc4 | .rc4Md5 =>
      if key = [] then Option.none
      else some ⟨algoCode, true, Rc4.init key, Rc4.init key⟩
  | .blowfish => some ⟨algoCode, true, .zero, .zero⟩
  | .none => some { crypto with readState := .zero, writeState := .zero }

/-- `BRB_RC4_Crypt` in place, on the first `buflen` bytes of a buffer. -/
def rc4Crypt (state : Rc4.State) (buf : List UInt8) (buflen : Nat) : List UInt8 × Rc4.State :=
  let out := Rc4.crypt state (buf.take buflen)
  (out.1 ++ buf.drop buflen, out.2)

/-- The `buflen` of a buffer of `n` bytes, which is an `int`. -/
def cryptLen (n : Nat) : Nat := (int32 n).toNat

/-- `MemBufferNew` for `dataSz` bytes; the grow rate has 32 bits. -/
def newBuffer (dataSz : Nat) : MemBuffer := .new ((dataSz + 64) % 2 ^ 32)

/-- The salt, the known string, the digest and a NULL separator. -/
def header (randomSalt : UInt32) (data : List UInt8) : List (List UInt8) :=
  [LittleEndian.ofNat 8 randomSalt.toNat, [0x48, 0x41, 0x53, 0x48, 0x3a],
    (Md5.final (Md5.update {} data)).toList, [0]]

/-- The label `rc4_transform`. -/
def rc4Transform (crypto : CommEvCryptoInfo) (mb : MemBuffer) :
    CryptoOperation → MemBuffer × CommEvCryptoInfo
  | .read =>
      let out := rc4Crypt crypto.readState mb.bytes (cryptLen mb.getSize)
      let mb := { mb with data := splice mb.data mb.offset out.1 }
      (if crypto.algoCode = .rc4Md5 then { mb with offset := 8 + 5 + 16 + 1 } else mb,
        { crypto with readState := out.2 })
  | .write _ =>
      let out := rc4Crypt crypto.writeState mb.bytes (cryptLen mb.getSize)
      ({ mb with data := splice mb.data mb.offset out.1 }, { crypto with writeState := out.2 })

/-- `EvAIOReqTransform_CryptoRaw`. -/
def cryptoRaw (crypto : CommEvCryptoInfo) (data : List UInt8) (op : CryptoOperation) :
    Option MemBuffer × CommEvCryptoInfo :=
  if crypto.enabled then
    match crypto.algoCode with
    | .rc4Md5 =>
        let mb :=
          match op with
          | .write salt => ((header salt data).foldl MemBuffer.add (newBuffer data.length)).add data
          | .read => (newBuffer data.length).add data
        let out := rc4Transform crypto mb op
        (some out.1, out.2)
    | .rc4 =>
        let out := rc4Transform crypto ((newBuffer data.length).add data) op
        (some out.1, out.2)
    | .blowfish | .none => (Option.none, crypto)
  else (Option.none, crypto)

/-- `EvAIOReqTransform_WriteData`. -/
def writeData (crypto : CommEvCryptoInfo) (randomSalt : UInt32) (data : List UInt8) :
    Option MemBuffer × CommEvCryptoInfo := cryptoRaw crypto data (.write randomSalt)

/-- `EvAIOReqTransform_ReadData`. -/
def readData (crypto : CommEvCryptoInfo) (data : List UInt8) :
    Option MemBuffer × CommEvCryptoInfo := cryptoRaw crypto data .read

/-! ## A stream -/

/-- What `MemBufferDeref` and `MemBufferGetSize` show of a buffer, whose size is
not to wrap. -/
def visible (mb : MemBuffer) : Option (List UInt8) :=
  if mb.offset ≤ mb.size then some mb.bytes else none

/-- The bytes a sequence of writes puts on the wire. What is not transformed is
sent as it is. -/
def sent : CommEvCryptoInfo → List (UInt32 × List UInt8) → List UInt8
  | _, [] => []
  | crypto, (salt, data) :: writes =>
      let out := writeData crypto salt data
      (out.1.map MemBuffer.bytes).getD data ++ sent out.2 writes

/-- The bytes a sequence of reads hands to the upper layer. -/
def received : CommEvCryptoInfo → List (List UInt8) → Option (List UInt8)
  | _, [] => some []
  | crypto, data :: reads =>
      let out := readData crypto data
      (out.1.elim (some data) visible).bind fun shown =>
        (received out.2 reads).map (shown ++ ·)

/-- The sender writes with some salts, and the receiver, who has the same key,
reads the stream in chunks of the given sizes. -/
def RoundTrip (algoCode : CryptoFunc) (key : List UInt8) (writes : List (UInt32 × List UInt8))
    (sizes : List Nat) : Prop :=
  ∃ crypto, cryptoEnable {} algoCode key = some crypto ∧
    received crypto (sizes.splitLengths (sent crypto writes)) = some (writes.flatMap Prod.snd)

/-! ## What a call adds to the bytes -/

/-- The bytes that `BRB_RC4_Crypt` adds to a buffer of `n`, none behind its
length. -/
def mask (state : Rc4.State) (n : Nat) : List UInt8 :=
  Rc4.keyStream state (cryptLen n) ++ List.replicate (n - cryptLen n) 0

/-- The state of the cipher after a buffer of `n` bytes. -/
def after (state : Rc4.State) (n : Nat) : Rc4.State := Rc4.advance state (cryptLen n)

/-- The bytes added to a stream that was cut into buffers of these sizes. -/
def masks : Rc4.State → List Nat → List UInt8
  | _, [] => []
  | state, n :: sizes => mask state n ++ masks (after state n) sizes

theorem cryptLen_of_lt {n : Nat} (h : n < 2 ^ 31) : cryptLen n = n := by
  rw [cryptLen, int32_of_lt (by omega) (by omega), Int.toNat_natCast]

theorem cryptLen_le (n : Nat) : cryptLen n ≤ n := by
  unfold cryptLen int32
  rw [Int.bmod_def]
  split <;> omega

section Masks

variable (state : Rc4.State)

@[simp] theorem length_mask (n : Nat) : (mask state n).length = n := by
  rw [mask, length_append, Rc4.length_keyStream, length_replicate,
    Nat.add_sub_cancel' (cryptLen_le n)]

theorem length_masks (sizes : List Nat) : (masks state sizes).length = sizes.sum := by
  induction sizes generalizing state with
  | nil => rfl
  | cons n sizes ih => rw [masks, length_append, length_mask, ih, sum_cons]

theorem masks_of_lt {sizes : List Nat} (h : ∀ n ∈ sizes, n < 2 ^ 31) :
    masks state sizes = Rc4.keyStream state sizes.sum := by
  induction sizes generalizing state with
  | nil => rfl
  | cons n sizes ih =>
      have hn := cryptLen_of_lt (h n (.head _))
      have hmask : mask state n = Rc4.keyStream state n := by
        rw [mask, hn, Nat.sub_self, replicate_zero, append_nil]
      have hafter : after state n = Rc4.advance state n := by rw [after, hn]
      rw [masks, ih _ fun k hk => h k (.tail _ hk), sum_cons, Rc4.keyStream_add, hmask, hafter]

theorem zipWith_xor_zero (bs : List UInt8) :
    List.zipWith (· ^^^ ·) bs (List.replicate bs.length 0) = bs := by
  induction bs with
  | nil => rfl
  | cons b bs ih => simp [replicate_succ, ih]

theorem rc4Crypt_eq (buf : List UInt8) :
    rc4Crypt state buf (cryptLen buf.length) =
      (List.zipWith (· ^^^ ·) buf (mask state buf.length), after state buf.length) := by
  have hle := cryptLen_le buf.length
  unfold mask after
  generalize cryptLen buf.length = n at hle ⊢
  have hlen : (buf.take n).length = n := length_take_of_le hle
  have hrest := zipWith_xor_zero (buf.drop n)
  rw [length_drop] at hrest
  have hsplit : List.zipWith (· ^^^ ·) buf
      (Rc4.keyStream state n ++ List.replicate (buf.length - n) 0) =
        List.zipWith (· ^^^ ·) (buf.take n) (Rc4.keyStream state n) ++ buf.drop n := by
    calc List.zipWith (· ^^^ ·) buf (Rc4.keyStream state n ++ List.replicate (buf.length - n) 0)
        = List.zipWith (· ^^^ ·) (buf.take n ++ buf.drop n)
            (Rc4.keyStream state n ++ List.replicate (buf.length - n) 0) := by
          rw [take_append_drop]
      _ = List.zipWith (· ^^^ ·) (buf.take n) (Rc4.keyStream state n) ++ buf.drop n := by
          rw [zipWith_append (by rw [hlen, Rc4.length_keyStream]), hrest]
  rw [hsplit]
  simp only [rc4Crypt, Rc4.crypt_eq_keyStream, hlen]

end Masks

/-! ## The calls -/

def plain (algoCode : CryptoFunc) (w : UInt32 × List UInt8) : List UInt8 :=
  if algoCode = .rc4Md5 then (header w.1 w.2).flatten ++ w.2 else w.2

def hidden (algoCode : CryptoFunc) : Nat := if algoCode = .rc4Md5 then 8 + 5 + 16 + 1 else 0

/-- A cipher that is enabled with one of the two algorithms. -/
structure Enabled (crypto : CommEvCryptoInfo) : Prop where
  enabled : crypto.enabled = true
  algoCode : crypto.algoCode = .rc4 ∨ crypto.algoCode = .rc4Md5

section Calls

variable {crypto : CommEvCryptoInfo}

theorem plain_newBuffer (dataSz : Nat) : (newBuffer dataSz).Plain := MemBuffer.plain_new _

theorem plain_foldl_add {mb : MemBuffer} (h : mb.Plain) (pieces : List (List UInt8)) :
    (pieces.foldl MemBuffer.add mb).Plain ∧
      (pieces.foldl MemBuffer.add mb).bytes = mb.bytes ++ pieces.flatten := by
  induction pieces generalizing mb with
  | nil => exact ⟨h, by simp⟩
  | cons piece pieces ih =>
      obtain ⟨hplain, hbytes⟩ := ih (h.add piece)
      exact ⟨hplain, by simp [hbytes, h.bytes_add]⟩

theorem write_buffer (crypto : CommEvCryptoInfo) (salt : UInt32) (data : List UInt8) :
    ∃ mb : MemBuffer, mb.Plain ∧ mb.bytes = plain crypto.algoCode (salt, data) ∧
      (Enabled crypto → writeData crypto salt data =
        (some (rc4Transform crypto mb (.write salt)).1,
          (rc4Transform crypto mb (.write salt)).2)) := by
  have hnew : (newBuffer data.length).bytes = [] := MemBuffer.bytes_new _
  by_cases hmd5 : crypto.algoCode = .rc4Md5
  · obtain ⟨hplain, hbytes⟩ := plain_foldl_add (plain_newBuffer data.length) (header salt data)
    refine ⟨_, hplain.add data, ?_, fun h => ?_⟩
    · rw [hplain.bytes_add, hbytes, hnew, plain, if_pos hmd5, nil_append]
    · simp only [writeData, cryptoRaw, h.enabled, if_true, hmd5]
  · refine ⟨_, (plain_newBuffer data.length).add data, ?_, fun h => ?_⟩
    · rw [(plain_newBuffer data.length).bytes_add, hnew, plain, if_neg hmd5, nil_append]
    · have hrc4 := h.algoCode.resolve_right hmd5
      simp only [writeData, cryptoRaw, h.enabled, if_true, hrc4]

theorem writeData_eq (h : Enabled crypto) (salt : UInt32) (data : List UInt8) :
    ((writeData crypto salt data).1.map MemBuffer.bytes).getD data =
        List.zipWith (· ^^^ ·) (plain crypto.algoCode (salt, data))
          (mask crypto.writeState (plain crypto.algoCode (salt, data)).length) ∧
      (writeData crypto salt data).2 = { crypto with
        writeState := after crypto.writeState (plain crypto.algoCode (salt, data)).length } := by
  obtain ⟨mb, hplain, hbytes, hwrite⟩ := write_buffer crypto salt data
  have hcrypt := rc4Crypt_eq crypto.writeState mb.bytes
  rw [hplain.length_bytes, ← hplain.getSize] at hcrypt
  have hsize : (plain crypto.algoCode (salt, data)).length = mb.getSize := by
    rw [← hbytes, hplain.length_bytes, hplain.getSize]
  have hlen : (List.zipWith (· ^^^ ·) mb.bytes (mask crypto.writeState mb.getSize)).length =
      mb.size := by
    rw [length_zipWith, length_mask, hplain.length_bytes, hplain.getSize, Nat.min_self]
  have hrewrite := hplain.rewrite hlen
  rw [hwrite h]
  simp only [rc4Transform, hcrypt, Option.map_some, Option.getD_some, hsize]
  exact ⟨by rw [hrewrite.2, hbytes], trivial⟩

theorem visible_offset {mb : MemBuffer} (h : mb.Plain) (k : Nat) :
    visible { mb with offset := k } = if k ≤ mb.size then some (mb.bytes.drop k) else none := by
  unfold visible
  by_cases hk : k ≤ mb.size
  · rw [if_pos hk, if_pos hk, h.bytes]
    simp only [MemBuffer.bytes, MemBuffer.offsetRead, MemBuffer.getSize, Nat.add_zero,
      drop_take]
  · rw [if_neg hk, if_neg hk]

theorem readData_eq (h : Enabled crypto) (data : List UInt8) :
    (readData crypto data).1.elim (some data) visible =
        (if hidden crypto.algoCode ≤ data.length then
          some ((List.zipWith (· ^^^ ·) data (mask crypto.readState data.length)).drop
            (hidden crypto.algoCode))
        else none) ∧
      (readData crypto data).2 =
        { crypto with readState := after crypto.readState data.length } := by
  have hplain := (plain_newBuffer data.length).add data
  have hbytes : ((newBuffer data.length).add data).bytes = data := by
    rw [(plain_newBuffer data.length).bytes_add, newBuffer, MemBuffer.bytes_new, nil_append]
  have hread : readData crypto data =
      (some (rc4Transform crypto ((newBuffer data.length).add data) .read).1,
        (rc4Transform crypto ((newBuffer data.length).add data) .read).2) := by
    rcases h.algoCode with halgo | halgo <;>
      simp only [readData, cryptoRaw, h.enabled, if_true, halgo]
  generalize (newBuffer data.length).add data = mb at *
  subst hbytes
  have hcrypt := rc4Crypt_eq crypto.readState mb.bytes
  rw [hplain.length_bytes, ← hplain.getSize] at hcrypt
  have hlen : (List.zipWith (· ^^^ ·) mb.bytes (mask crypto.readState mb.getSize)).length =
      mb.size := by
    rw [length_zipWith, length_mask, hplain.length_bytes, hplain.getSize, Nat.min_self]
  obtain ⟨hplain', hbytes'⟩ := hplain.rewrite hlen
  have hvisible := visible_offset hplain' (hidden crypto.algoCode)
  rw [hbytes'] at hvisible
  rw [hread, hplain.length_bytes, ← hplain.getSize]
  simp only [rc4Transform, hcrypt, Option.elim_some]
  refine ⟨?_, trivial⟩
  rw [hplain.getSize] at hvisible ⊢
  rw [← hvisible]
  rcases h.algoCode with halgo | halgo
  · simp only [halgo, hidden, reduceCtorEq, if_false, hplain.offset]
  · simp only [halgo, hidden, if_true]

theorem Enabled.read (h : Enabled crypto) (state : Rc4.State) :
    Enabled { crypto with readState := state } := ⟨h.enabled, h.algoCode⟩

theorem Enabled.write (h : Enabled crypto) (state : Rc4.State) :
    Enabled { crypto with writeState := state } := ⟨h.enabled, h.algoCode⟩

theorem sent_eq (h : Enabled crypto) (writes : List (UInt32 × List UInt8)) :
    sent crypto writes = List.zipWith (· ^^^ ·) (writes.flatMap (plain crypto.algoCode))
      (masks crypto.writeState (writes.map fun w => (plain crypto.algoCode w).length)) := by
  induction writes generalizing crypto with
  | nil => rfl
  | cons w writes ih =>
      obtain ⟨hout, hnext⟩ := writeData_eq h w.1 w.2
      rw [sent, hout, hnext, ih (h.write _), flatMap_cons, map_cons, masks,
        zipWith_append (by rw [length_mask])]

theorem received_cons (h : Enabled crypto) (data : List UInt8) (reads : List (List UInt8)) :
    received crypto (data :: reads) =
      if hidden crypto.algoCode ≤ data.length then
        (received { crypto with readState := after crypto.readState data.length } reads).map
          ((List.zipWith (· ^^^ ·) data (mask crypto.readState data.length)).drop
            (hidden crypto.algoCode) ++ ·)
      else none := by
  obtain ⟨hout, hnext⟩ := readData_eq h data
  rw [received, hout, hnext]
  split <;> rfl

theorem received_eq (h : Enabled crypto) (hrc4 : crypto.algoCode = .rc4)
    (reads : List (List UInt8)) :
    received crypto reads = some (List.zipWith (· ^^^ ·) reads.flatten
      (masks crypto.readState (reads.map List.length))) := by
  induction reads generalizing crypto with
  | nil => rfl
  | cons data reads ih =>
      have hzero : hidden crypto.algoCode = 0 := by rw [hrc4]; rfl
      have hrest := ih (h.read (after crypto.readState data.length)) hrc4
      rw [received_cons h, hzero, if_pos (Nat.zero_le _), hrest, Option.map_some, drop_zero,
        flatten_cons, map_cons, masks, zipWith_append (by rw [length_mask])]

end Calls

/-! ## RC4 -/

theorem xor_xor_eq_iff (a b c : UInt8) : a ^^^ b ^^^ c = a ↔ b = c := by
  constructor
  · intro h
    calc b = a ^^^ (a ^^^ b) := by rw [← UInt8.xor_assoc, UInt8.xor_self, UInt8.zero_xor]
      _ = a ^^^ b ^^^ (a ^^^ b ^^^ c) := by rw [h, UInt8.xor_comm a (a ^^^ b)]
      _ = c := by rw [← UInt8.xor_assoc, UInt8.xor_self, UInt8.zero_xor]
  · rintro rfl
    rw [UInt8.xor_assoc, UInt8.xor_self, UInt8.xor_zero]

theorem zipWith_xor_xor_iff {bs m m' : List UInt8} (hm : m.length = bs.length)
    (hm' : m'.length = bs.length) :
    List.zipWith (· ^^^ ·) (List.zipWith (· ^^^ ·) bs m) m' = bs ↔ m = m' := by
  induction bs generalizing m m' with
  | nil =>
      rw [length_nil, length_eq_zero_iff] at hm hm'
      simp [hm, hm']
  | cons b bs ih =>
      obtain ⟨k, m, rfl⟩ := exists_cons_of_length_eq_add_one hm
      obtain ⟨k', m', rfl⟩ := exists_cons_of_length_eq_add_one hm'
      simp only [length_cons, Nat.add_right_cancel_iff] at hm hm'
      simp only [zipWith_cons_cons, List.cons.injEq, xor_xor_eq_iff, ih hm hm']

theorem enabled_init (algoCode : CryptoFunc) (halgo : algoCode = .rc4 ∨ algoCode = .rc4Md5)
    (state : Rc4.State) : Enabled ⟨algoCode, true, state, state⟩ := ⟨rfl, halgo⟩

theorem cryptoEnable_iff {algoCode : CryptoFunc} (halgo : algoCode = .rc4 ∨ algoCode = .rc4Md5)
    {key : List UInt8} {crypto : CommEvCryptoInfo} :
    cryptoEnable {} algoCode key = some crypto ↔
      key ≠ [] ∧ crypto = ⟨algoCode, true, Rc4.init key, Rc4.init key⟩ := by
  by_cases hkey : key = []
  · rcases halgo with rfl | rfl <;> simp [cryptoEnable, hkey]
  · rcases halgo with rfl | rfl <;> simp [cryptoEnable, hkey, eq_comm]

theorem received_sent_iff (state : Rc4.State) (writes : List (UInt32 × List UInt8))
    (sizes : List Nat) (hsizes : sizes.sum = (writes.map fun w => w.2.length).sum) :
    received ⟨.rc4, true, state, state⟩
        (sizes.splitLengths (sent ⟨.rc4, true, state, state⟩ writes)) =
          some (writes.flatMap Prod.snd) ↔
      masks state (writes.map fun w => w.2.length) = masks state sizes := by
  have henabled := enabled_init .rc4 (.inl rfl) state
  have hplain : plain .rc4 = Prod.snd := funext fun w => if_neg (by decide)
  have hflat : (writes.flatMap Prod.snd).length = sizes.sum := by
    rw [length_flatMap, hsizes]
  have hcipher := sent_eq henabled writes
  simp only [hplain] at hcipher
  have hlen : (sent ⟨.rc4, true, state, state⟩ writes).length = sizes.sum := by
    rw [hcipher, length_zipWith, length_masks, hflat, hsizes, Nat.min_self]
  rw [received_eq henabled rfl, flatten_splitLengths _ _ hlen.le,
    map_splitLengths_length _ _ hlen.ge, hcipher, Option.some_inj]
  exact zipWith_xor_xor_iff (by rw [length_masks, hflat, hsizes]) (by rw [length_masks, hflat])

/-- **A stream comes through, however it is cut, exactly if both sides lay the same
bytes over it.** -/
theorem roundTrip_rc4_iff (key : List UInt8) (writes : List (UInt32 × List UInt8))
    (sizes : List Nat) (hsizes : sizes.sum = (writes.map fun w => w.2.length).sum) :
    RoundTrip .rc4 key writes sizes ↔
      key ≠ [] ∧ masks (Rc4.init key) (writes.map fun w => w.2.length) =
        masks (Rc4.init key) sizes := by
  simp only [RoundTrip, cryptoEnable_iff (.inl rfl), and_assoc, exists_and_left, exists_eq_left,
    received_sent_iff _ writes sizes hsizes]

theorem masks_eq_of_lt (state : Rc4.State) {sizes sizes' : List Nat}
    (h : ∀ n ∈ sizes, n < 2 ^ 31) (h' : ∀ n ∈ sizes', n < 2 ^ 31) (hsum : sizes.sum = sizes'.sum) :
    masks state sizes = masks state sizes' := by
  rw [masks_of_lt state h, masks_of_lt state h', hsum]

theorem roundTrip_rc4_iff_three :
    RoundTrip .rc4 [1, 2] [(0, [10, 11]), (7, [12])] [1, 2] :=
  (roundTrip_rc4_iff [1, 2] [(0, [10, 11]), (7, [12])] [1, 2] rfl).mpr
    ⟨by decide, masks_eq_of_lt _ (by decide) (by decide) rfl⟩

/-! ## A write of 2 GiB -/

/-- The key that leaves the permutation as it is: `1 - i` at each `i` but the first. -/
def identityKey : List UInt8 := 0 :: (List.range 255).map fun i => 0 - UInt8.ofNat i

theorem swapBytes_self (perm : UInt8 → UInt8) (a : UInt8) : Rc4.swapBytes perm a a = perm := by
  simp [Rc4.swapBytes]

theorem length_identityKey : identityKey.length = 256 := by
  simp [identityKey]

theorem identityKey_getD {i : Nat} (hi : i < 255) :
    identityKey.getD ((i + 1) % identityKey.length) 0 = 0 - UInt8.ofNat i := by
  rw [length_identityKey, Nat.mod_eq_of_lt (by omega)]
  simp [identityKey, getD_eq_getElem?_getD, hi]

theorem foldl_identityKey (n : Nat) (hn : n < 256) :
    (List.range (n + 1)).foldl (Rc4.keyStep identityKey) (id, 0) = (id, UInt8.ofNat n) := by
  induction n with
  | zero => simp [Rc4.keyStep, identityKey, swapBytes_self]
  | succ n ih =>
      have hbyte := identityKey_getD (i := n) (by omega)
      have hj : UInt8.ofNat n + (UInt8.ofNat (n + 1) + (0 - UInt8.ofNat n)) =
          UInt8.ofNat (n + 1) := by grind
      rw [range_succ, foldl_append, ih (by omega)]
      simp only [foldl_cons, foldl_nil, Rc4.keyStep, id_eq, hbyte, hj, swapBytes_self]

theorem init_identityKey : Rc4.init identityKey = ⟨id, 0, 0⟩ := by
  rw [Rc4.init, foldl_identityKey 255 (by omega)]

theorem masks_ne {state : Rc4.State} {n : Nat} (hn : 0 < n) (hlen : cryptLen n = 0)
    (hbyte : state.next.keyByte ≠ 0) : masks state [n] ≠ masks state [1, n - 1] := by
  have hwhole : masks state [n] = List.replicate n 0 := by
    rw [masks, masks, mask, hlen, Rc4.keyStream, nil_append, Nat.sub_zero, append_nil]
  have hone : mask state 1 = [state.next.keyByte] := by
    rw [mask, cryptLen_of_lt (by decide), Rc4.keyStream, Rc4.keyStream, Nat.sub_self,
      replicate_zero, append_nil]
  obtain ⟨k, rfl⟩ := Nat.exists_eq_succ_of_ne_zero hn.ne'
  rw [hwhole, masks, hone, singleton_append, replicate_succ]
  exact fun heq => hbyte (List.cons.inj heq).1.symm

theorem not_roundTrip_of_cryptLen {n : Nat} (hn : 0 < n) (hlen : cryptLen n = 0) :
    ¬ RoundTrip .rc4 identityKey [(0, List.replicate n 0)] [1, n - 1] := by
  rintro ⟨crypto, henable, hback⟩
  obtain ⟨-, rfl⟩ := (cryptoEnable_iff (.inl rfl)).mp henable
  have hsum : [1, n - 1].sum =
      ([((0 : UInt32), List.replicate n (0 : UInt8))].map fun w => w.2.length).sum := by
    simp
    omega
  rw [received_sent_iff _ _ _ hsum, map_singleton, length_replicate] at hback
  refine masks_ne hn hlen ?_ hback
  rw [init_identityKey]
  decide

/-- 2 GiB in one write are sent as they are, and deciphered where they are read. -/
theorem not_roundTrip_rc4 :
    ¬ RoundTrip .rc4 identityKey [(0, List.replicate (2 ^ 31) 0)] [1, 2 ^ 31 - 1] :=
  not_roundTrip_of_cryptLen (by decide) (by decide +kernel)

end EvAIOReqTransform
