import BrbFramework.Icmp.Base
import BrbFramework.Lib.LittleEndian

/-!
# The checksum of an ICMP packet

The words are added in a `long`, and the carries are folded into it twice, which is enough
below `65535 * 65536`. Words lie in memory with the low byte first.
-/

namespace EvICMP

open List LittleEndian

/-- `CommEvICMPHeader`, with the part of the payload that is sent. -/
structure CommEvICMPHeader where
  icmpType : UInt8
  icmpCode : UInt8
  icmpCksum : UInt16
  icmpId : UInt16
  icmpSeq : UInt16
  payload : List UInt8
  fits : (payload.length : Int) ≤ maxPayload

def CommEvICMPHeader.bytes (packet : CommEvICMPHeader) : List UInt8 :=
  packet.icmpType :: packet.icmpCode :: (LittleEndian.ofNat 2 packet.icmpCksum.toNat ++
    (LittleEndian.ofNat 2 packet.icmpId.toNat ++ (LittleEndian.ofNat 2 packet.icmpSeq.toNat ++
      packet.payload)))

/-- The loop of `CommEvICMPCheckSum`, and the odd byte. -/
def sumLoop : List UInt8 → Nat → Nat
  | low :: high :: ptr, sum => sumLoop ptr (sum + LittleEndian.toNat [low, high])
  | [oddbyte], sum => sum + LittleEndian.toNat [oddbyte, 0]
  | [], sum => sum

/-- `CommEvICMPCheckSum`. -/
def checkSum (ptr : List UInt8) : UInt16 :=
  let sum := sumLoop ptr 0
  let sum := (sum >>> 16) + (sum &&& 0xffff)
  let sum := sum + (sum >>> 16)
  ~~~ UInt16.ofNat sum

/-- The packet with its checksum, which is computed with a zero in its place. -/
def CommEvICMPHeader.completed (packet : CommEvICMPHeader) : CommEvICMPHeader :=
  { packet with icmpCksum := checkSum { packet with icmpCksum := 0 }.bytes }

/-- The part of `CommEvICMPRequestSend` that fills the packet. -/
def requestPacket (icmpType icmpCode : UInt8) (icmpId icmpSeq : UInt16) (payload : List UInt8) :
    CommEvICMPHeader :=
  let payload' := payload.take maxPayload.toNat
  let packet : CommEvICMPHeader :=
    { icmpType, icmpCode, icmpCksum := 0, icmpId, icmpSeq, payload := payload'
      fits := Int.ofNat_le.mpr (List.length_take_le _ payload) }
  { packet with icmpCksum := checkSum packet.bytes }

def sumWords : List UInt8 → Nat
  | low :: high :: ptr => LittleEndian.toNat [low, high] + sumWords ptr
  | [oddbyte] => LittleEndian.toNat [oddbyte, 0]
  | [] => 0

/-- Their one's-complement sum: the carry is added at the other end. -/
def onesSum : List UInt8 → Nat
  | low :: high :: ptr =>
    let sum := LittleEndian.toNat [low, high] + onesSum ptr
    if sum ≤ 0xffff then sum else sum - 0xffff
  | [oddbyte] => LittleEndian.toNat [oddbyte, 0]
  | [] => 0

/-! ## Sums of words -/

theorem toNat_pair_lt (low high : UInt8) : toNat [low, high] < 65536 := by
  have hlow := low.toNat_lt
  have hhigh := high.toNat_lt
  simp only [LittleEndian.toNat]
  omega

theorem sumLoop_eq (ptr : List UInt8) : ∀ sum, sumLoop ptr sum = sum + sumWords ptr := by
  induction ptr using sumWords.induct with
  | case1 low high ptr ih =>
    intro sum
    rw [sumLoop, sumWords, ih, Nat.add_assoc]
  | case2 oddbyte => exact fun _ => rfl
  | case3 => exact fun _ => rfl

theorem sumWords_le (ptr : List UInt8) : sumWords ptr ≤ 65535 * ptr.length := by
  induction ptr using sumWords.induct with
  | case1 low high ptr ih =>
    have hword := toNat_pair_lt low high
    rw [sumWords, length_cons, length_cons]
    omega
  | case2 oddbyte =>
    have hword := toNat_pair_lt oddbyte 0
    rw [sumWords, length_singleton]
    omega
  | case3 => exact Nat.le_refl 0

theorem onesSum_spec (ptr : List UInt8) : onesSum ptr ≤ 0xffff ∧
    onesSum ptr % 65535 = sumWords ptr % 65535 ∧ (onesSum ptr = 0 → sumWords ptr = 0) := by
  induction ptr using sumWords.induct with
  | case1 low high ptr ih =>
    have hword := toNat_pair_lt low high
    obtain ⟨hle, hmod, hzero⟩ := ih
    simp only [onesSum, sumWords]
    by_cases hcarry : toNat [low, high] + onesSum ptr ≤ 0xffff
    · rw [if_pos hcarry]
      refine ⟨hcarry, by omega, fun hnone => ?_⟩
      have hrest := hzero (by omega)
      omega
    · rw [if_neg hcarry]
      omega
  | case2 oddbyte =>
    have hword := toNat_pair_lt oddbyte 0
    rw [onesSum, sumWords]
    omega
  | case3 => exact ⟨Nat.zero_le _, rfl, fun _ => rfl⟩

theorem fold_eq {high low : Nat} (hhigh : high < 65535) (hlow : low < 65536) :
    (high + low + (high + low) / 65536) % 65536 =
      if high + low < 65536 then high + low else high + low - 65535 := by
  by_cases hcarry : high + low < 65536
  · rw [if_pos hcarry, Nat.div_eq_of_lt hcarry, Nat.add_zero, Nat.mod_eq_of_lt hcarry]
  · have hone : (high + low) / 65536 = 1 := by omega
    rw [if_neg hcarry, hone]
    omega

theorem toNat_checkSum {ptr : List UInt8} {high low : Nat} (hhigh : high < 65535)
    (hlow : low < 65536) (hsum : sumWords ptr = 65536 * high + low) :
    (checkSum ptr).toNat =
      65535 - if high + low < 65536 then high + low else high + low - 65535 := by
  have hmask : sumWords ptr &&& 0xffff = low := by
    rw [hsum, Nat.and_two_pow_sub_one_eq_mod _ 16]
    omega
  have hshift : sumWords ptr / 2 ^ 16 = high := by omega
  have hfold := fold_eq hhigh hlow
  unfold checkSum
  simp only [sumLoop_eq, Nat.zero_add, hmask, Nat.shiftRight_eq_div_pow, hshift]
  rw [UInt16.toNat_not, UInt16.toNat_ofNat']
  exact congrArg (65535 - ·) hfold

theorem sum_add_checkSum {ptr : List UInt8} (h : sumWords ptr < 65535 * 65536) :
    ∃ k, sumWords ptr + (checkSum ptr).toNat = 65535 * (k + 1) := by
  obtain ⟨high, low, hlow, hsum⟩ : ∃ high low, low < 65536 ∧ sumWords ptr = 65536 * high + low :=
    ⟨sumWords ptr / 65536, sumWords ptr % 65536, Nat.mod_lt _ (by decide),
      (Nat.div_add_mod _ _).symm⟩
  have hhigh : high < 65535 := by omega
  rw [toNat_checkSum hhigh hlow hsum, hsum]
  by_cases hcarry : high + low < 65536
  · rw [if_pos hcarry]
    exact ⟨high, by omega⟩
  · rw [if_neg hcarry]
    exact ⟨high + 1, by omega⟩

theorem checkSum_eq_zero {ptr : List UInt8} {k : Nat} (hk : k < 65535)
    (hsum : sumWords ptr = 65535 * (k + 1)) : checkSum ptr = 0 ∧ onesSum ptr = 0xffff := by
  have hcheck := @toNat_checkSum ptr k (65535 - k) hk (by omega) (by omega)
  rw [if_pos (by omega)] at hcheck
  obtain ⟨hle, hmod, hzero⟩ := onesSum_spec ptr
  refine ⟨UInt16.toNat_inj.mp (hcheck.trans ?_), ?_⟩
  · have hall : k + (65535 - k) = 65535 := by omega
    rw [hall]
    rfl
  · have hne : onesSum ptr ≠ 0 := fun hnone => by
      have hnothing := hzero hnone
      omega
    omega

section Packet

variable (packet : CommEvICMPHeader)

def CommEvICMPHeader.rest : List UInt8 :=
  LittleEndian.ofNat 2 packet.icmpId.toNat ++ (LittleEndian.ofNat 2 packet.icmpSeq.toNat ++
    packet.payload)

theorem sumWords_bytes : sumWords packet.bytes =
    toNat [packet.icmpType, packet.icmpCode] +
      (packet.icmpCksum.toNat + sumWords packet.rest) := by
  have hcksum : toNat (ofNat 2 packet.icmpCksum.toNat) =
      packet.icmpCksum.toNat := by
    rw [toNat_ofNat]
    exact Nat.mod_eq_of_lt packet.icmpCksum.toNat_lt
  rw [CommEvICMPHeader.bytes, sumWords]
  simp only [ofNat, cons_append, nil_append] at hcksum ⊢
  rw [sumWords, hcksum]
  rfl

theorem sumWords_rest_le : sumWords packet.rest ≤ 65535 * 8096 := by
  have hfits := packet.fits
  have hlen : packet.rest.length = packet.payload.length + 4 := by
    simp [CommEvICMPHeader.rest]
    omega
  refine (sumWords_le packet.rest).trans (Nat.mul_le_mul_left _ ?_)
  rw [hlen]
  simp only [maxPayload] at hfits
  omega

theorem checkSum_completed :
    checkSum packet.completed.bytes = 0 ∧ onesSum packet.completed.bytes = 0xffff := by
  have hrest := sumWords_rest_le packet
  have hhead := toNat_pair_lt packet.icmpType packet.icmpCode
  obtain ⟨cksum, hcksum⟩ :
    ∃ cksum, checkSum { packet with icmpCksum := 0 }.bytes = cksum := ⟨_, rfl⟩
  have hcksumLt := cksum.toNat_lt
  have hsum : sumWords { packet with icmpCksum := 0 }.bytes =
      toNat [packet.icmpType, packet.icmpCode] + (0 + sumWords packet.rest) :=
    sumWords_bytes _
  have hsum' : sumWords { packet with icmpCksum := cksum }.bytes =
      toNat [packet.icmpType, packet.icmpCode] +
        (cksum.toNat + sumWords packet.rest) :=
    sumWords_bytes _
  obtain ⟨k, hk⟩ := @sum_add_checkSum { packet with icmpCksum := 0 }.bytes (by omega)
  rw [CommEvICMPHeader.completed]
  rw [hcksum] at hk ⊢
  refine @checkSum_eq_zero _ k ?_ ?_
  · omega
  · omega

end Packet

/-- **The checksum.**  Once it is in its place the words of a packet add up to ones only, and the
checksum over it is zero. So it is in the packet of a request. -/
theorem checkSum_all_ones :
    (∀ packet : CommEvICMPHeader,
      checkSum packet.completed.bytes = 0 ∧ onesSum packet.completed.bytes = 0xffff) ∧
      ∀ icmpType icmpCode icmpId icmpSeq payload,
        checkSum (requestPacket icmpType icmpCode icmpId icmpSeq payload).bytes = 0 := by
  refine ⟨checkSum_completed, fun icmpType icmpCode icmpId icmpSeq payload => ?_⟩
  exact (checkSum_completed
    { icmpType, icmpCode, icmpCksum := 0, icmpId, icmpSeq
      payload := payload.take maxPayload.toNat
      fits := Int.ofNat_le.mpr (length_take_le _ payload) }).1

end EvICMP
