import Mathlib.Algebra.GroupWithZero.Nat
import Mathlib.Data.List.Basic

/-!
# DNS messages

The part of RFC 1035 the resolver has: queries are packed, replies are
unpacked. A reply is read from a buffer that is longer than the datagram; what
lies behind the buffer is whatever the stack holds, and `skipName` is the one
reader that does not check where it is.
-/

namespace Rfc1035

def maxHostNameSz : Nat := 256

def maxLabelSz : Nat := 63

def unpackError : Int := 15

def typeA : Nat := 1

def typePtr : Nat := 12

def typeAaaa : Nat := 28

def classIn : Nat := 1

/-- `rfc1035_message`, the header fields. -/
structure Message where
  id : Nat
  qr : Nat := 0
  opcode : Nat := 0
  aa : Nat := 0
  tc : Nat := 0
  rd : Nat := 0
  ra : Nat := 0
  rcode : Nat := 0
  qdcount : Nat := 0
  ancount : Nat := 0
  nscount : Nat := 0
  arcount : Nat := 0
deriving DecidableEq

/-- `rfc1035_rr`. -/
structure Rr where
  name : List UInt8 := []
  type : Nat := 0
  cls : Nat := 0
  ttl : Nat := 0
  rdlength : Nat := 0
  rdata : List UInt8 := []
deriving DecidableEq

/-! ## Packing -/

def packShort (n : Nat) : List UInt8 := [.ofNat (n / 256), .ofNat n]

/-- `rfc1035HeaderPack`. -/
def headerPack (hdr : Message) : List UInt8 :=
  packShort hdr.id ++
  packShort (hdr.qr * 2 ^ 15 + hdr.opcode * 2 ^ 11 + hdr.aa * 2 ^ 10 + hdr.tc * 2 ^ 9 +
    hdr.rd * 2 ^ 8 + hdr.ra * 2 ^ 7 + hdr.rcode) ++
  packShort hdr.qdcount ++ packShort hdr.ancount ++ packShort hdr.nscount ++
  packShort hdr.arcount

/-- `rfc1035LabelPack`. -/
def labelPack (label : List UInt8) : List UInt8 :=
  .ofNat (min label.length maxLabelSz) :: label.take maxLabelSz

/-- `rfc1035NamePack`: the labels `strtok` finds, and the root. -/
def namePack (name : List UInt8) : List UInt8 :=
  (((name.splitOn 46).filter (· ≠ [])).map labelPack).flatten ++ labelPack []

/-- `rfc1035QuestionPack`. -/
def questionPack (name : List UInt8) (type cls : Nat) : List UInt8 :=
  namePack name ++ packShort type ++ packShort cls

/-- `rfc1035BuildAQuery` and `rfc1035BuildAAAAQuery`, which differ in the type
of their question. -/
def buildQuery (type : Nat) (hostname : List UInt8) (qid : Nat) : List UInt8 :=
  headerPack { id := qid, rd := 1, qdcount := 1 } ++ questionPack hostname type classIn

def buildAQuery : List UInt8 → Nat → List UInt8 := buildQuery typeA

def buildAAAAQuery : List UInt8 → Nat → List UInt8 := buildQuery typeAaaa

/-! ## Unpacking -/

section Unpack

variable (buf : Nat → UInt8)

/-- A 16-bit field at `off`. -/
def short (off : Nat) : Nat := (buf off).toNat * 256 + (buf (off + 1)).toNat

/-- A 32-bit field at `off`. -/
def long (off : Nat) : Nat := short buf off * 65536 + short buf (off + 2)

/-- The octets from `off` on. -/
def octets (off len : Nat) : List UInt8 := (List.range len).map fun i => buf (off + i)

/-- `rfc1035HeaderUnpack`, at offset zero of a message of `sz` octets. -/
def headerUnpack (sz : Nat) : Option Message :=
  if sz < 12 then
    none
  else
    let t := short buf 2
    some
      { id := short buf 0
        qr := t / 2 ^ 15 % 2
        opcode := t / 2 ^ 11 % 16
        aa := t / 2 ^ 10 % 2
        tc := t / 2 ^ 9 % 2
        rd := t / 2 ^ 8 % 2
        ra := t / 2 ^ 7 % 2
        rcode := t % 16
        qdcount := short buf 4
        ancount := short buf 6
        nscount := short buf 8
        arcount := short buf 10 }

/-- How the labels of a name end: at the root, at a pointer, or badly. -/
inductive Labels
  | bad
  | root (off no rd : Nat) (name : List UInt8)
  | jump (off ptr no rd : Nat) (name : List UInt8)

/-- The loop of `rfc1035NameUnpack`, with the labels read so far. A round takes
an octet at least, so `sz` rounds are enough. -/
def labels (sz ns : Nat) : Nat → (off no rd : Nat) → List UInt8 → Labels
  | 0, _, _, _, _ => .bad
  | fuel + 1, off, no, rd, name =>
      if sz ≤ off then .bad
      else
        let c := (buf off).toNat
        if 191 < c then
          if sz < off + 2 then .bad
          else
            let ptr := short buf off % 0x4000
            if sz ≤ ptr then .bad else .jump (off + 2) ptr no rd name
        else if maxLabelSz < c then .bad
        else if c = 0 then .root (off + 1) no rd name
        else if ns - no - 1 < c then .bad
        else if sz ≤ off + 1 + c then .bad
        else
          let name := name ++ octets buf (off + 1) c ++ [46]
          if no + c + 1 < ns then
            labels sz ns fuel (off + 1 + c) (no + c + 1) (rd + c + 1) name
          else .root (off + 1 + c) (no + c + 1) (rd + c + 1) name

/-- `rfc1035NameUnpack`: the name, the offset behind it and its length. `depth`
pointers may still be followed. -/
def nameUnpack (sz : Nat) : (depth ns off : Nat) → Option (List UInt8 × Nat × Nat)
  | depth, ns, off =>
      match labels buf sz ns sz off 0 0 [] with
      | .bad => none
      | .root off _ rd name => some (name.dropLast, off, rd)
      | .jump off ptr no rd name =>
          match depth with
          | 0 => none
          | depth + 1 =>
              (nameUnpack sz depth (ns - no) ptr).map fun (rest, _, rd') =>
                (name ++ rest, off, rd + rd')

/-- `rfc1035RRUnpack`: the record and the offset behind it, or what a failure
leaves in the record. -/
def rrUnpack (sz off : Nat) : Except Rr (Rr × Nat) :=
  match nameUnpack buf sz 65 maxHostNameSz off with
  | none => .error {}
  | some (name, off, _) =>
      if sz < off + 10 then .error {}
      else
        let rdlength := short buf (off + 8)
        let rr : Rr :=
          { name := name, type := short buf off, cls := short buf (off + 2)
            ttl := long buf (off + 4), rdlength := rdlength }
        let off := off + 10
        if sz < off + rdlength then .error {}
        else if rr.type = typePtr then
          match nameUnpack buf sz 65 maxHostNameSz off with
          | none => .error { rr with rdlength := 0 }
          | some (rdata, rdataOff, len) =>
              if off + rdlength < rdataOff then .error {}
              else .ok ({ rr with rdlength := len, rdata := rdata }, off + rdlength)
        else .ok ({ rr with rdata := octets buf off rdlength }, off + rdlength)

inductive Skipped
  | done (off : Nat)
  | illegal
  | overrun

/-- The labels of a question, which are skipped wherever they lead. The offset
is an `int`. -/
def skipName : Nat → Nat → Skipped
  | 0, _ => .overrun
  | fuel + 1, off =>
      let l := (buf off).toNat
      if 191 < l then .done (off + 2)
      else if maxLabelSz < l then .illegal
      else if 0 < l then skipName fuel (off + 1 + l)
      else .done (off + 1)

def skipQuestions (sz : Nat) : Nat → Nat → Skipped
  | 0, off => .done off
  | n + 1, off =>
      match skipName buf (2 ^ 31) off with
      | .done off => if sz < off + 4 then .illegal else skipQuestions sz n (off + 4)
      | s => s

/-- The loop over the answers. The records are filled from the last to the
first, so a short reply leaves cleared records in front: `recs` are those behind
the `i` that are still clear. -/
def answersLoop (sz : Nat) : (i off : Nat) → (recs : List Rr) → (nr : Nat) → List Rr × Nat
  | 0, _, recs, nr => (recs, nr)
  | i + 1, off, recs, nr =>
      if sz ≤ off then (List.replicate (i + 1) {} ++ recs, nr)
      else
        match rrUnpack buf sz off with
        | .error rr => (List.replicate i {} ++ rr :: recs, nr)
        | .ok (rr, off) => answersLoop sz i off (rr :: recs) (nr + 1)

/-- What `rfc1035AnswersUnpack` returns and what it stores through its last two
arguments. -/
structure Unpacked where
  replyCount : Int
  records : List Rr := []
  id : Option Nat := none

/-- `rfc1035AnswersUnpack`. `none` if a question leads out of the stack. -/
def answersUnpack (sz : Nat) : Option Unpacked :=
  match headerUnpack buf sz with
  | none => some { replyCount := -unpackError }
  | some hdr =>
      if hdr.rcode ≠ 0 then some { replyCount := -hdr.rcode, id := hdr.id }
      else
        match skipQuestions buf sz hdr.qdcount 12 with
        | .overrun => none
        | .illegal => some { replyCount := -unpackError, id := hdr.id }
        | .done off =>
            if hdr.ancount = 0 then some { replyCount := 0, id := hdr.id }
            else
              let (recs, nr) := answersLoop buf sz hdr.ancount off [] 0
              if nr = 0 then some { replyCount := -unpackError, id := hdr.id }
              else some { replyCount := nr, records := recs, id := hdr.id }

end Unpack

section Lemmas

variable {buf : Nat → UInt8} {sz : Nat} {u : Unpacked}

theorem headerUnpack_none : headerUnpack buf sz = none ↔ sz < 12 := by
  unfold headerUnpack
  split <;> simp [*]

theorem headerUnpack_id {hdr : Message} (h : headerUnpack buf sz = some hdr) :
    hdr.id = short buf 0 := by
  unfold headerUnpack at h
  split at h
  · cases h
  · cases h
    rfl

/-- **Where the id comes from.**  The caller's variable is set exactly when the
datagram has a header, to the id in it. -/
theorem answersUnpack_id (h : answersUnpack buf sz = some u) :
    u.id = if sz < 12 then none else some (short buf 0) := by
  unfold answersUnpack at h
  cases hhdr : headerUnpack buf sz with
  | none =>
      rw [if_pos (headerUnpack_none.mp hhdr)]
      simp only [hhdr, Option.some.injEq] at h
      exact h ▸ rfl
  | some hdr =>
      have hlong : ¬sz < 12 := fun hlt => by simp [headerUnpack_none.mpr hlt] at hhdr
      rw [if_neg hlong, ← headerUnpack_id hhdr]
      simp only [hhdr] at h
      split at h
      · cases h
        rfl
      · split at h
        · cases h
        · cases h
          rfl
        · split at h
          · cases h
            rfl
          · split at h <;> (cases h; rfl)

theorem answersUnpack_short (h : sz < 12) :
    answersUnpack buf sz = some { replyCount := -unpackError } := by
  simp [answersUnpack, headerUnpack_none.mpr h]

theorem length_buildQuery (type : Nat) (hostname : List UInt8) (qid : Nat) :
    (buildQuery type hostname qid).length = 16 + (namePack hostname).length := by
  simp [buildQuery, headerPack, questionPack, packShort]
  omega

end Lemmas

end Rfc1035
