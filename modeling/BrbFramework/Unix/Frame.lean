import BrbFramework.Lib.LittleEndian

/-!
# Frames of the UNIX socket protocol

A frame is a control header of 32 bytes and, behind a request's header, the
payload that its `data_sz` announces. An acknowledgement has the size `-1` and
no payload.
-/

namespace Unix

open LittleEndian List

/-- `CommEvUNIXControlData`, in the order of its fields. -/
structure CommEvUNIXControlData where
  dataSz : Int := 0
  magicCode : Int := 0
  reqId : Int := 0
  flags : Int := 0
  fdCount : Int := 0
  seqId : Int := 0
  deriving DecidableEq

/-- `sizeof(CommEvUNIXControlData)`, padding included. -/
def controlDataSz : Nat := 32

/-- `COMM_UNIX_MAGIC_CODE00`. -/
def magicCode00 : Int := 0x31337

/-- `COMM_UNIX_MAX_FDARR_SZ`. -/
def maxFdArrSz : Nat := 8

/-- `COMM_UNIX_MAX_WRITE_SIZE`. -/
def maxWriteSize : Nat := 524280

/-- `COMM_UNIX_MIN_DATA_SZ`. -/
def minDataSz : Nat := controlDataSz + maxFdArrSz * 4 + 64

/-- `COMM_UNIX_READ_BUFFER_SIZE`. -/
def readBufferSize : Nat := 65535

/-- `COMM_UNIX_CONTROL_FLAGS_REQUEST`, `_REPLY` and `_WANT_ACK`, as `EBIT_SET` sets them. -/
def flagRequest : Nat := 1

def flagReply : Nat := 2

def flagWantAck : Nat := 4

/-- `EBIT_TEST`. -/
def ebitTest (flags : Int) (flag : Nat) : Bool := flags / flag % 2 = 1

namespace CommEvUNIXControlData

def encode (c : CommEvUNIXControlData) : List UInt8 :=
  ofInt 8 c.dataSz ++ (ofInt 4 c.magicCode ++ (ofInt 4 c.reqId ++ (ofInt 4 c.flags ++
    (ofInt 4 c.fdCount ++ (ofInt 4 c.seqId ++ List.replicate 4 0)))))

def decode (bytes : List UInt8) : CommEvUNIXControlData where
  dataSz := toInt (bytes.take 8)
  magicCode := toInt ((bytes.drop 8).take 4)
  reqId := toInt ((bytes.drop 12).take 4)
  flags := toInt ((bytes.drop 16).take 4)
  fdCount := toInt ((bytes.drop 20).take 4)
  seqId := toInt ((bytes.drop 24).take 4)

structure InRange (c : CommEvUNIXControlData) : Prop where
  dataSz : -(2 ^ 63) ≤ c.dataSz ∧ c.dataSz < 2 ^ 63
  magicCode : -(2 ^ 31) ≤ c.magicCode ∧ c.magicCode < 2 ^ 31
  reqId : -(2 ^ 31) ≤ c.reqId ∧ c.reqId < 2 ^ 31
  flags : -(2 ^ 31) ≤ c.flags ∧ c.flags < 2 ^ 31
  fdCount : -(2 ^ 31) ≤ c.fdCount ∧ c.fdCount < 2 ^ 31
  seqId : -(2 ^ 31) ≤ c.seqId ∧ c.seqId < 2 ^ 31

@[simp] theorem length_encode (c : CommEvUNIXControlData) : c.encode.length = controlDataSz := by
  simp [encode, controlDataSz]

theorem toInt_ofInt_long {x : Int} (h : -(2 ^ 63) ≤ x ∧ x < 2 ^ 63) :
    toInt (ofInt 8 x) = x :=
  toInt_ofInt (by omega) (by omega)

theorem toInt_ofInt_int {x : Int} (h : -(2 ^ 31) ≤ x ∧ x < 2 ^ 31) :
    toInt (ofInt 4 x) = x :=
  toInt_ofInt (by omega) (by omega)

theorem take_drop_append {l₁ l₂ l₃ : List UInt8} {off len : Nat} (h₁ : l₁.length = off)
    (h₂ : l₂.length = len) : ((l₁ ++ (l₂ ++ l₃)).drop off).take len = l₂ := by
  subst h₁ h₂
  rw [drop_left, take_left]

theorem decode_encode {c : CommEvUNIXControlData} (h : c.InRange) : decode c.encode = c := by
  have hdata : (c.encode).take 8 = ofInt 8 c.dataSz := by
    unfold encode
    rw [take_left' (length_ofInt 8 _)]
  have hmagic : ((c.encode).drop 8).take 4 = ofInt 4 c.magicCode := by
    unfold encode
    exact take_drop_append (length_ofInt 8 _) (length_ofInt 4 _)
  have hreq : ((c.encode).drop 12).take 4 = ofInt 4 c.reqId := by
    unfold encode
    rw [← append_assoc]
    exact take_drop_append (by simp) (length_ofInt 4 _)
  have hflags : ((c.encode).drop 16).take 4 = ofInt 4 c.flags := by
    unfold encode
    rw [← append_assoc, ← append_assoc]
    exact take_drop_append (by simp) (length_ofInt 4 _)
  have hfd : ((c.encode).drop 20).take 4 = ofInt 4 c.fdCount := by
    unfold encode
    rw [← append_assoc, ← append_assoc, ← append_assoc]
    exact take_drop_append (by simp) (length_ofInt 4 _)
  have hseq : ((c.encode).drop 24).take 4 = ofInt 4 c.seqId := by
    unfold encode
    rw [← append_assoc, ← append_assoc, ← append_assoc, ← append_assoc]
    exact take_drop_append (by simp) (length_ofInt 4 _)
  unfold decode
  rw [hdata, hmagic, hreq, hflags, hfd, hseq, toInt_ofInt_long h.dataSz,
    toInt_ofInt_int h.magicCode, toInt_ofInt_int h.reqId, toInt_ofInt_int h.flags,
    toInt_ofInt_int h.fdCount, toInt_ofInt_int h.seqId]

theorem decode_append {bytes rest : List UInt8} (h : controlDataSz ≤ bytes.length) :
    decode (bytes ++ rest) = decode bytes := by
  have hfield : ∀ off len, off + len ≤ controlDataSz →
      ((bytes ++ rest).drop off).take len = (bytes.drop off).take len := fun off len hle => by
    rw [drop_append_of_le_length (by omega), take_append_of_le_length (by
      rw [length_drop]
      omega)]
  have hfirst := hfield 0 8 (by decide)
  rw [drop_zero, drop_zero] at hfirst
  unfold decode
  rw [hfirst, hfield 8 4 (by decide), hfield 12 4 (by decide), hfield 16 4 (by decide),
    hfield 20 4 (by decide), hfield 24 4 (by decide)]

end CommEvUNIXControlData

/-- The header of `CommEvUNIXIOReplyACK`. -/
def ackHeader (reqId : Int) : CommEvUNIXControlData where
  dataSz := -1
  magicCode := magicCode00
  reqId := reqId
  flags := flagReply

end Unix
