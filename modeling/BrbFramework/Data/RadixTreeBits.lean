import BrbFramework.Data.RadixTree
import BrbFramework.Lib.Trie

/-!
# The bits of an address

What the byte operations of `RadixTree` say about the bits of an address, the
first of which is the highest of its first byte: `bitTest` reads one,
`compWithMask` compares the first ones, and `differBit` counts those that two
addresses have in common.
-/

namespace BrbData

open Trie List

namespace RadixTree

/-- The bit `i` of an address. -/
def addrBit (addr : Nat → UInt8) (i : Nat) : Bool := (addr (i / 8)).toBitVec.getMsbD (i % 8)

theorem and_mask_ne_zero (x : UInt8) {j : Nat} (hj : j < 8) :
    (x &&& ((0x80 : UInt8) >>> UInt8.ofNat j) != 0) = x.toBitVec.getMsbD j := by
  have hmasks : ∀ i < 8, ((0x80 : UInt8) >>> UInt8.ofNat i).toBitVec = BitVec.twoPow 8 (7 - i) ∧
      BitVec.twoPow 8 (7 - i) ≠ 0#8 := by
    decide
  obtain ⟨hmask, hpow⟩ := hmasks j hj
  have hbit : x.toBitVec.getMsbD j = x.toBitVec.getLsbD (7 - j) := by
    rw [BitVec.getMsbD_eq_getLsbD]
    simp [hj]
  have hzero : (x &&& ((0x80 : UInt8) >>> UInt8.ofNat j)) = 0 ↔
      x.toBitVec &&& BitVec.twoPow 8 (7 - j) = 0#8 := by
    rw [← UInt8.toBitVec_inj, UInt8.toBitVec_and, hmask]
    rfl
  rw [hbit, bne, Bool.eq_iff_iff, Bool.not_eq_true', beq_eq_false_iff_ne, ne_eq, hzero,
    BitVec.and_twoPow]
  cases x.toBitVec.getLsbD (7 - j) with
  | false => simp
  | true => simpa using hpow

@[simp] theorem bitTest_eq (addr : Nat → UInt8) (bit : Nat) :
    bitTest addr bit = addrBit addr bit := by
  have hindex : bit >>> 3 = bit / 8 := Nat.shiftRight_eq_div_pow bit 3
  have hoffset : bit &&& 0x07 = bit % 8 := Nat.and_two_pow_sub_one_eq_mod bit 3
  rw [bitTest, hindex, hoffset, and_mask_ne_zero _ (Nat.mod_lt _ (by decide)), addrBit]

section Bytes

variable {x y : UInt8}

theorem and_upper_eq_iff {m : Nat} (hm : m < 8) (hpos : m ≠ 0) :
    x &&& ((0xff : UInt8) <<< UInt8.ofNat (8 - m)) = y &&& (0xff <<< UInt8.ofNat (8 - m)) ↔
      ∀ j < m, x.toBitVec.getMsbD j = y.toBitVec.getMsbD j := by
  have hmasks : ∀ k < 8, k ≠ 0 → ∀ j < 8,
      ((0xff : UInt8) <<< UInt8.ofNat (8 - k)).toBitVec.getMsbD j = decide (j < k) := by
    decide
  have hmask := hmasks m hm hpos
  rw [← UInt8.toBitVec_inj, UInt8.toBitVec_and, UInt8.toBitVec_and]
  constructor
  · intro heq j hj
    have hbit := congrArg (fun z => BitVec.getMsbD z j) heq
    simpa only [BitVec.getMsbD_and, hmask j (by omega), hj, decide_true, Bool.and_true] using hbit
  · intro hbits
    apply BitVec.eq_of_getMsbD_eq
    intro j hj
    rw [BitVec.getMsbD_and, BitVec.getMsbD_and, hmask j hj]
    by_cases hjm : j < m
    · rw [hbits j hjm]
    · simp [hjm]

theorem eq_iff_bits : x = y ↔ ∀ j < 8, x.toBitVec.getMsbD j = y.toBitVec.getMsbD j := by
  constructor
  · rintro rfl j _
    rfl
  · intro hbits
    exact UInt8.toBitVec_inj.mp (BitVec.eq_of_getMsbD_eq hbits)

end Bytes

variable {a c : Nat → UInt8}

theorem byte_eq_iff {i : Nat} :
    a i = c i ↔ ∀ j < 8, addrBit a (i * 8 + j) = addrBit c (i * 8 + j) := by
  rw [eq_iff_bits]
  refine forall₂_congr fun j hj => ?_
  have hdiv : (i * 8 + j) / 8 = i := by omega
  have hmod : (i * 8 + j) % 8 = j := by omega
  rw [addrBit, addrBit, hdiv, hmod]

theorem compWithMask_iff {mask : Nat} :
    compWithMask a c mask = true ↔ ∀ i < mask, addrBit a i = addrBit c i := by
  have hsplit : ∀ i, i / 8 * 8 + i % 8 = i := fun i => by omega
  have hbytes : (∀ k < mask / 8, a k = c k) ↔
      ∀ i < mask / 8 * 8, addrBit a i = addrBit c i := by
    constructor
    · intro h i hi
      have hbyte := byte_eq_iff.mp (h (i / 8) (by omega)) (i % 8) (by omega)
      rwa [hsplit] at hbyte
    · intro h k hk
      exact byte_eq_iff.mpr fun j hj => h _ (by omega)
  have htail : (mask % 8 = 0 ∨
        a (mask / 8) &&& ((0xff : UInt8) <<< UInt8.ofNat (8 - mask % 8)) =
          c (mask / 8) &&& (0xff <<< UInt8.ofNat (8 - mask % 8))) ↔
      ∀ j < mask % 8, addrBit a (mask / 8 * 8 + j) = addrBit c (mask / 8 * 8 + j) := by
    by_cases hzero : mask % 8 = 0
    · simp [hzero]
    · rw [or_iff_right hzero, and_upper_eq_iff (Nat.mod_lt _ (by decide)) hzero]
      refine forall₂_congr fun j hj => ?_
      have hdiv : (mask / 8 * 8 + j) / 8 = mask / 8 := by omega
      have hmod : (mask / 8 * 8 + j) % 8 = j := by omega
      rw [addrBit, addrBit, hdiv, hmod]
  simp only [compWithMask, Bool.and_eq_true, all_eq_true, mem_range, beq_iff_eq,
    Bool.or_eq_true]
  rw [hbytes, htail]
  constructor
  · rintro ⟨hfront, hback⟩ i hi
    by_cases hlt : i < mask / 8 * 8
    · exact hfront i hlt
    · have hbit := hback (i - mask / 8 * 8) (by omega)
      rwa [Nat.add_sub_cancel' (Nat.le_of_not_lt hlt)] at hbit
  · intro h
    exact ⟨fun i hi => h i (by omega), fun j hj => h _ (by omega)⟩

theorem firstBit_spec {r : UInt8} (hr : r ≠ 0) :
    firstBit r < 8 ∧ r.toBitVec.getMsbD (firstBit r) = true ∧
      ∀ j < firstBit r, r.toBitVec.getMsbD j = false := by
  have hsome : ((List.range 8).find? fun j => r &&& ((0x80 : UInt8) >>> UInt8.ofNat j) != 0) ≠
      none := by
    intro hnone
    apply hr
    rw [eq_iff_bits]
    intro j hj
    have hbit := find?_range_eq_none.mp hnone j hj
    rw [and_mask_ne_zero r hj] at hbit
    simpa using hbit
  obtain ⟨i, hi⟩ := Option.ne_none_iff_exists'.mp hsome
  obtain ⟨hbit, hmem, hfirst⟩ := find?_range_eq_some.mp hi
  have hlt : i < 8 := mem_range.mp hmem
  have heq : firstBit r = i := by rw [firstBit, hi, Option.getD_some]
  rw [heq]
  refine ⟨hlt, by rwa [and_mask_ne_zero r hlt] at hbit, ?_⟩
  intro j hj
  have hnot := hfirst j hj
  rw [and_mask_ne_zero r (by omega)] at hnot
  simpa using hnot

/-- `d` bits are the same, and the next is not unless it is behind the checked ones. -/
structure Differ (a c : Nat → UInt8) (checkBit d : Nat) : Prop where
  le : d ≤ checkBit
  same : ∀ i < d, addrBit a i = addrBit c i
  differ : d < checkBit → addrBit a d ≠ addrBit c d

theorem differLoop_spec {checkBit : Nat} (fuel i : Nat) (hfuel : checkBit ≤ fuel + i)
    (hsame : ∀ j < i * 8, addrBit a j = addrBit c j) :
    Differ a c checkBit (min (differLoop a c checkBit fuel i (i * 8)) checkBit) := by
  have hstop : checkBit ≤ i * 8 → Differ a c checkBit (min (i * 8) checkBit) := by
    intro hle
    rw [Nat.min_eq_right hle]
    exact ⟨Nat.le_refl _, fun j hj => hsame j (by omega),
      fun hlt => absurd hlt (Nat.lt_irrefl _)⟩
  induction fuel generalizing i with
  | zero => exact hstop (by omega)
  | succ fuel ih =>
      rw [differLoop]
      split
      case isFalse hdone => exact hstop (by omega)
      case isTrue hmore =>
        by_cases hr : a i ^^^ c i = 0
        · rw [if_pos hr]
          have hbyte : a i = c i := UInt8.xor_eq_zero_iff.mp hr
          have hnext : ∀ j < (i + 1) * 8, addrBit a j = addrBit c j := by
            intro j hj
            by_cases hlt : j < i * 8
            · exact hsame j hlt
            · have hbit := byte_eq_iff.mp hbyte (j - i * 8) (by omega)
              rwa [Nat.add_sub_cancel' (Nat.le_of_not_lt hlt)] at hbit
          apply ih (i + 1) (by omega) hnext
          intro hle
          rw [Nat.min_eq_right hle]
          exact ⟨Nat.le_refl _, fun j hj => hnext j (by omega),
            fun hlt => absurd hlt (Nat.lt_irrefl _)⟩
        · rw [if_neg hr]
          obtain ⟨hlt, hset, hclear⟩ := firstBit_spec hr
          generalize firstBit (a i ^^^ c i) = f at hlt hset hclear
          have hbits : ∀ j < 8, (a i ^^^ c i).toBitVec.getMsbD j =
              (addrBit a (i * 8 + j) ^^ addrBit c (i * 8 + j)) := by
            intro j hj
            have hdiv : (i * 8 + j) / 8 = i := by omega
            have hmod : (i * 8 + j) % 8 = j := by omega
            rw [UInt8.toBitVec_xor, BitVec.getMsbD_xor, addrBit, addrBit, hdiv, hmod]
          have hupto : ∀ j < i * 8 + f, addrBit a j = addrBit c j := by
            intro j hj
            by_cases hfront : j < i * 8
            · exact hsame j hfront
            · have hbit := hclear (j - i * 8) (by omega)
              rw [hbits _ (by omega), Nat.add_sub_cancel' (Nat.le_of_not_lt hfront)] at hbit
              simpa using hbit
          refine ⟨Nat.min_le_right _ _, fun j hj => hupto j (by omega), ?_⟩
          intro hless
          have hmin : min (i * 8 + f) checkBit = i * 8 + f := by omega
          rw [hmin]
          rw [hbits f hlt] at hset
          simpa using hset

theorem differBit_spec (a c : Nat → UInt8) (checkBit : Nat) :
    Differ a c checkBit (differBit a c checkBit) := by
  have h := @differLoop_spec a c checkBit checkBit 0 (by omega) fun j hj => absurd hj (by omega)
  simpa [differBit] using h

end RadixTree

open RadixTree

namespace RadixPrefix

def bits (p : RadixPrefix) : Nat → Bool := addrBit p.uchar

/-- The bits that a prefix says an address begins with. -/
def key (p : RadixPrefix) : List Bool := word p.bits p.bitlen

@[simp] theorem length_key (p : RadixPrefix) : p.key.length = p.bitlen := length_word ..

theorem bitlen_le_maxbits (p : RadixPrefix) : p.bitlen ≤ 128 := by
  have hle := p.bitlen_le
  cases hf : p.family <;> simp only [hf, Family.maxprefix] at hle <;> omega

/-- The addresses of `p` are those that begin with the bits of `p`. -/
def Contains (p q : RadixPrefix) : Prop := ∀ i < p.bitlen, p.bits i = q.bits i

instance (p q : RadixPrefix) : Decidable (p.Contains q) :=
  inferInstanceAs (Decidable (∀ i < p.bitlen, p.bits i = q.bits i))

theorem contains_iff {p q : RadixPrefix} : p.Contains q ↔ p.key = word q.bits p.bitlen :=
  word_eq_word.symm

def SameBits (p q : RadixPrefix) : Prop := p.bitlen = q.bitlen ∧ p.Contains q

instance (p q : RadixPrefix) : Decidable (p.SameBits q) :=
  inferInstanceAs (Decidable (_ ∧ _))

theorem sameBits_iff {p q : RadixPrefix} : p.SameBits q ↔ p.key = q.key := by
  constructor
  · rintro ⟨hlen, hbits⟩
    rw [contains_iff.mp hbits, hlen, key]
  · intro h
    have hlen : p.bitlen = q.bitlen := by simpa using congrArg List.length h
    exact ⟨hlen, contains_iff.mpr (by rw [h, hlen, key])⟩

end RadixPrefix

end BrbData
