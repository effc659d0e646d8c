import BrbFramework.Crypto.Md5
import Mathlib.Algebra.GroupWithZero.Nat

/-!
# MD5 in pieces

A context that was given its data in pieces has the blocks that are full behind it and the rest
in its input. What else is in the input depends on the pieces; the digest does not.
-/

namespace Md5

open Machine List

/-- The data, a `1` bit, zeros, and the length in bits, of whole blocks. -/
def padded (data : List UInt8) : List UInt8 :=
  data ++ 0x80 :: replicate ((119 - data.length % 64) % 64) 0 ++
    LittleEndian.ofNat 8 (8 * data.length)

/-- The digest as MD5 defines it: all blocks of the padded data, one after the other. -/
def md5 (data : List UInt8) : List UInt8 :=
  (blocks ((padded data).length / 64) ({} : Ctx).buf (padded data)).bytes

/-- The context has taken in `data`. -/
structure Holds (ctx : Ctx) (data : List UInt8) : Prop where
  bytes : ctx.bytes.toNat = data.length % 2 ^ 32
  bytesHigh : ctx.bytesHigh.toNat = data.length / 2 ^ 32 % 2 ^ 32
  buf : ctx.buf = blocks (data.length / 64) ({} : Ctx).buf data
  size : ctx.input.length = 64
  input : ctx.input.take (data.length % 64) = data.drop (64 * (data.length / 64))

/-! ## Blocks -/

theorem blocks_append (n : Nat) : ∀ {buf : Words} {data more : List UInt8},
    64 * n ≤ data.length → blocks n buf (data ++ more) = blocks n buf data := by
  induction n with
  | zero =>
    intro buf data more _
    rfl
  | succ n ih =>
    intro buf data more h
    rw [blocks, blocks, take_append_of_le_length (by omega), drop_append_of_le_length (by omega)]
    exact ih (by rw [length_drop]; omega)

theorem blocks_add (m n : Nat) : ∀ {buf : Words} {data : List UInt8},
    blocks (m + n) buf data = blocks n (blocks m buf data) (data.drop (64 * m)) := by
  induction m with
  | zero =>
    intro buf data
    rw [Nat.zero_add, Nat.mul_zero, drop_zero, blocks]
  | succ m ih =>
    intro buf data
    rw [Nat.succ_add, blocks, blocks, ih, drop_drop, Nat.mul_succ, Nat.add_comm 64]

theorem blocks_block {n : Nat} {buf : Words} {block rest : List UInt8} (h : block.length = 64) :
    blocks (n + 1) buf (block ++ rest) = blocks n (transform buf block) rest := by
  rw [blocks, take_left' h, drop_left' h]

/-! ## Pieces -/

section Pieces

variable {ctx : Ctx} {data piece : List UInt8}

theorem holds_new : Holds {} [] where
  bytes := rfl
  bytesHigh := rfl
  buf := rfl
  size := rfl
  input := rfl

theorem Holds.bytes_mod (h : Holds ctx data) : ctx.bytes.toNat % 64 = data.length % 64 := by
  have hbytes := h.bytes
  omega

/-- The low word carries once at most, which is enough for a piece of less than 4 GB. -/
theorem Holds.count (h : Holds ctx data) (hsmall : piece.length < 2 ^ 32) :
    (update ctx piece).bytes.toNat = (data ++ piece).length % 2 ^ 32 ∧
      (update ctx piece).bytesHigh.toNat = (data ++ piece).length / 2 ^ 32 % 2 ^ 32 := by
  have hlow := h.bytes
  have hhigh := h.bytesHigh
  have hbytes : (UInt32.ofNat (ctx.bytes.toNat + piece.length)).toNat =
      (ctx.bytes.toNat + piece.length) % 2 ^ 32 := UInt32.toNat_ofNat'
  have hnext : (ctx.bytesHigh + 1).toNat = (ctx.bytesHigh.toNat + 1) % 2 ^ 32 := by
    rw [UInt32.toNat_add, show (1 : UInt32).toNat = 1 from rfl]
  have hfields : (update ctx piece).bytes = UInt32.ofNat (ctx.bytes.toNat + piece.length) ∧
      (update ctx piece).bytesHigh =
        if (UInt32.ofNat (ctx.bytes.toNat + piece.length)).toNat < ctx.bytes.toNat then
          ctx.bytesHigh + 1 else ctx.bytesHigh := by
    unfold update
    constructor <;> (dsimp only; split <;> rfl)
  rw [hfields.1, hfields.2, length_append, hbytes]
  refine ⟨by omega, ?_⟩
  split
  · have hcarry : (data.length + piece.length) / 2 ^ 32 = data.length / 2 ^ 32 + 1 := by omega
    rw [hnext, hcarry, hhigh]
    omega
  · have hsame : (data.length + piece.length) / 2 ^ 32 = data.length / 2 ^ 32 := by omega
    rw [hsame, hhigh]

theorem Holds.update_short (h : Holds ctx data) (hsmall : piece.length < 2 ^ 32)
    (hroom : 64 - data.length % 64 > piece.length) : Holds (update ctx piece) (data ++ piece) := by
  have hmod := h.bytes_mod
  have hin : 64 - (64 - data.length % 64) = data.length % 64 := by omega
  have hbuf : (update ctx piece).buf = ctx.buf := by
    unfold Md5.update
    simp only [hmod, if_pos hroom]
  have hinput : (update ctx piece).input = splice ctx.input (data.length % 64) piece := by
    unfold Md5.update
    simp only [hmod, if_pos hroom, hin]
  have hdiv : (data ++ piece).length / 64 = data.length / 64 := by
    rw [length_append]
    omega
  have hrem : (data ++ piece).length % 64 = data.length % 64 + piece.length := by
    rw [length_append]
    omega
  refine ⟨(h.count hsmall).1, (h.count hsmall).2, ?_, ?_, ?_⟩
  · rw [hbuf, h.buf, hdiv, blocks_append _ (by omega)]
  · rw [hinput, length_splice (by rw [h.size]; omega), h.size]
  · rw [hinput, hrem, hdiv, splice, h.input, drop_append_of_le_length (by omega)]
    exact take_left' (by rw [length_append, length_drop]; omega)

theorem Holds.update_long (h : Holds ctx data) (hsmall : piece.length < 2 ^ 32)
    (hroom : ¬ 64 - data.length % 64 > piece.length) :
    Holds (update ctx piece) (data ++ piece) := by
  have hmod := h.bytes_mod
  have hin : 64 - (64 - data.length % 64) = data.length % 64 := by omega
  obtain ⟨first, rest, rfl, hfirst⟩ : ∃ first rest, piece = first ++ rest ∧
      first.length = 64 - data.length % 64 :=
    ⟨_, _, (take_append_drop (64 - data.length % 64) piece).symm, by rw [length_take]; omega⟩
  have hbehind : ctx.input.drop (data.length % 64 + first.length) = [] :=
    drop_eq_nil_of_le (by rw [h.size]; omega)
  have hblock : splice ctx.input (data.length % 64) first =
      data.drop (64 * (data.length / 64)) ++ first := by
    rw [splice, h.input, hbehind, append_nil]
  have hsize : (data.drop (64 * (data.length / 64)) ++ first).length = 64 := by
    rw [length_append, length_drop]
    omega
  have hbuf : (update ctx (first ++ rest)).buf =
      blocks (rest.length / 64) (transform ctx.buf (data.drop (64 * (data.length / 64)) ++ first))
        rest := by
    unfold Md5.update
    simp only [hmod, if_neg hroom, hin, take_left' hfirst, drop_left' hfirst, hblock]
  have hinput : (update ctx (first ++ rest)).input =
      splice (data.drop (64 * (data.length / 64)) ++ first) 0
        (rest.drop (64 * (rest.length / 64))) := by
    unfold Md5.update
    simp only [hmod, if_neg hroom, hin, take_left' hfirst, drop_left' hfirst, hblock]
  have hwhole : (data ++ (first ++ rest)).drop (64 * (data.length / 64)) =
      data.drop (64 * (data.length / 64)) ++ first ++ rest := by
    rw [drop_append_of_le_length (by omega), append_assoc]
  have hdiv : (data ++ (first ++ rest)).length / 64 =
      data.length / 64 + (rest.length / 64 + 1) := by
    rw [length_append, length_append]
    omega
  have hrem : (data ++ (first ++ rest)).length % 64 =
      (rest.drop (64 * (rest.length / 64))).length := by
    rw [length_append, length_append, length_drop]
    omega
  refine ⟨(h.count hsmall).1, (h.count hsmall).2, ?_, ?_, ?_⟩
  · rw [hbuf, hdiv, blocks_add, blocks_append _ (by omega), hwhole, blocks_block hsize, h.buf]
  · rw [hinput, length_splice (by rw [hsize, ← hrem]; omega), hsize]
  · rw [hinput, hrem, hdiv, splice, take_zero, nil_append, take_left, ← Nat.add_assoc,
      Nat.mul_succ, Nat.mul_add, Nat.add_assoc, ← drop_drop, hwhole, Nat.add_comm _ 64,
      ← drop_drop, drop_left' hsize]

theorem Holds.update (h : Holds ctx data) (hsmall : piece.length < 2 ^ 32) :
    Holds (update ctx piece) (data ++ piece) := by
  by_cases hroom : 64 - data.length % 64 > piece.length
  · exact h.update_short hsmall hroom
  · exact h.update_long hsmall hroom

theorem Holds.updateChunks (n : Nat) : ∀ {ctx : Ctx} {data more : List UInt8},
    Holds ctx data → more.length < 65535 * (n + 1) →
    Holds (updateChunks n ctx more) (data ++ more) := by
  induction n with
  | zero =>
    intro ctx data more h hsmall
    rw [Md5.updateChunks]
    by_cases hpos : more.length > 0
    · rw [if_pos hpos]
      exact h.update (by omega)
    · obtain rfl : more = [] := length_eq_zero_iff.mp (by omega)
      rwa [if_neg hpos, append_nil]
  | succ n ih =>
    intro ctx data more h hsmall
    have hfirst : Holds (Md5.update ctx (more.take 65535)) (data ++ more.take 65535) :=
      h.update (by rw [length_take]; omega)
    have hsmaller : (more.drop 65535).length < 65535 * (n + 1) := by
      rw [length_drop]
      omega
    have hall := ih hfirst hsmaller
    rwa [append_assoc, take_append_drop] at hall

theorem Holds.updateBig (h : Holds ctx data) (more : List UInt8) :
    Holds (updateBig ctx more) (data ++ more) :=
  h.updateChunks (more.length / 65535) (by omega)

/-! ## The digest -/

/-- The two words in which the end of the padding counts the bits. -/
theorem Holds.bits (h : Holds ctx data) :
    LittleEndian.ofNat 4 (ctx.bytes <<< 3).toNat ++
      LittleEndian.ofNat 4 (ctx.bytesHigh <<< 3 ||| ctx.bytes >>> 29).toNat =
    LittleEndian.ofNat 8 (8 * data.length) := by
  have hlow := h.bytes
  have hhigh := h.bytesHigh
  have hbytes : (ctx.bytes <<< 3).toNat = 8 * data.length % 2 ^ 32 := by
    rw [UInt32.toNat_shiftLeft, show (3 : UInt32).toNat % 32 = 3 from rfl, Nat.shiftLeft_eq]
    omega
  have hover : (ctx.bytesHigh <<< 3 ||| ctx.bytes >>> 29).toNat =
      8 * data.length / 2 ^ 32 % 2 ^ 32 := by
    rw [UInt32.toNat_or, UInt32.toNat_shiftLeft, UInt32.toNat_shiftRight,
      show (3 : UInt32).toNat % 32 = 3 from rfl, show (29 : UInt32).toNat % 32 = 29 from rfl,
      Nat.shiftLeft_eq, Nat.shiftRight_eq_div_pow]
    have hsplit : ctx.bytesHigh.toNat * 2 ^ 3 % 2 ^ 32 =
        2 ^ 3 * (ctx.bytesHigh.toNat % 2 ^ 29) := by omega
    rw [hsplit, ← Nat.two_pow_add_eq_or_of_lt (by omega)]
    omega
  rw [hbytes, hover]
  simp only [LittleEndian.ofNat, cons_append, nil_append, cons.injEq, and_true]
  refine ⟨?_, ?_, ?_, ?_, ?_, ?_, ?_, ?_⟩ <;>
    (rw [← UInt8.toNat_inj, UInt8.toNat_ofNat', UInt8.toNat_ofNat']; omega)

theorem blocks_padded (h : Holds ctx data) {k : Nat}
    (hk : (padded data).length / 64 = data.length / 64 + k) :
    blocks ((padded data).length / 64) ({} : Ctx).buf (padded data) =
      blocks k ctx.buf (ctx.input.take (data.length % 64) ++
        (0x80 :: replicate ((119 - data.length % 64) % 64) 0 ++
          LittleEndian.ofNat 8 (8 * data.length))) := by
  rw [hk, blocks_add, padded, append_assoc, blocks_append _ (by omega), ← h.buf,
    drop_append_of_le_length (by omega), h.input]

theorem Holds.final (h : Holds ctx data) : (final ctx).toList = md5 data := by
  have hmod := h.bytes_mod
  have hsize := h.size
  have hlt : data.length % 64 < 64 := Nat.mod_lt _ (by decide)
  have hlen : (padded data).length = data.length + 9 + (119 - data.length % 64) % 64 := by
    simp only [padded, length_append, length_cons, length_replicate, LittleEndian.length_ofNat]
    omega
  refine congrArg Words.bytes ?_
  simp only [hmod, h.bits]
  by_cases hextra : 55 < data.length % 64
  · have hzeros : (119 - data.length % 64) % 64 = (63 - data.length % 64) + 56 := by omega
    rw [if_pos hextra, blocks_padded h (k := 2) (by omega), hzeros, replicate_add]
    have hblocks : ctx.input.take (data.length % 64) ++
        (0x80 :: (replicate (63 - data.length % 64) 0 ++ replicate 56 0) ++
          LittleEndian.ofNat 8 (8 * data.length)) =
        (ctx.input.take (data.length % 64) ++ [0x80] ++ replicate (63 - data.length % 64) 0) ++
          (replicate 56 0 ++ LittleEndian.ofNat 8 (8 * data.length) ++ []) := by
      simp only [append_assoc, cons_append, nil_append, append_nil]
    rw [hblocks, blocks_block (by simp [hsize]; omega), blocks_block (by simp), blocks]
  · have hzeros : (119 - data.length % 64) % 64 = 55 - data.length % 64 := by omega
    rw [if_neg hextra, blocks_padded h (k := 1) (by omega), hzeros]
    have hblock : ctx.input.take (data.length % 64) ++
        (0x80 :: replicate (55 - data.length % 64) 0 ++
          LittleEndian.ofNat 8 (8 * data.length)) =
        (ctx.input.take (data.length % 64) ++ [0x80] ++ replicate (55 - data.length % 64) 0 ++
          LittleEndian.ofNat 8 (8 * data.length)) ++ [] := by
      simp only [append_assoc, cons_append, nil_append, append_nil]
    rw [hblock, blocks_block (by simp [hsize]; omega), blocks]

theorem Holds.updatesBig (pieces : List (List UInt8)) : ∀ {ctx : Ctx} {data : List UInt8},
    Holds ctx data → Holds (pieces.foldl Md5.updateBig ctx) (data ++ pieces.flatten) := by
  induction pieces with
  | nil =>
    intro ctx data h
    rwa [flatten_nil, append_nil]
  | cons piece pieces ih =>
    intro ctx data h
    rw [foldl_cons, flatten_cons, ← append_assoc]
    exact ih (h.updateBig piece)

end Pieces

/-- **MD5 of a stream.**  However the data is cut into pieces, and however long they are, the
digest is the MD5 of the data. -/
theorem final_updateBig (pieces : List (List UInt8)) :
    (final (pieces.foldl updateBig {})).toList = md5 pieces.flatten :=
  (holds_new.updatesBig pieces).final

/-- The digest of `abc`. -/
example : md5 [97, 98, 99] = [0x90, 0x01, 0x50, 0x98, 0x3c, 0xd2, 0x4f, 0xb0, 0xd6, 0x96, 0x3f,
    0x7d, 0x28, 0xe1, 0x7f, 0x72] := by decide +kernel

end Md5
