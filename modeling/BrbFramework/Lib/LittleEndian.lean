import Mathlib.Data.Int.ModEq
import Mathlib.Data.List.Basic

/-!
# Integers in little-endian bytes

A signed integer of `w` bytes as it lies in memory, and back.
-/

namespace LittleEndian

/-- The lowest `w` bytes of `n`. -/
def ofNat : Nat → Nat → List UInt8
  | 0, _ => []
  | w + 1, n => UInt8.ofNat n :: ofNat w (n / 256)

def toNat : List UInt8 → Nat
  | [] => 0
  | b :: bs => b.toNat + 256 * toNat bs

@[simp] theorem length_ofNat (w n : Nat) : (ofNat w n).length = w := by
  induction w generalizing n with
  | zero => rfl
  | succ w ih => simp [ofNat, ih]

theorem toNat_ofNat (w n : Nat) : toNat (ofNat w n) = n % 256 ^ w := by
  induction w generalizing n with
  | zero => simp [ofNat, toNat, Nat.mod_one]
  | succ w ih =>
      have hbyte : (UInt8.ofNat n).toNat = n % 256 := by simp
      rw [ofNat, toNat, ih, hbyte, Nat.pow_succ, Nat.mul_comm (256 ^ w) 256, Nat.mod_mul]

/-- The bytes of the number that they are. -/
theorem ofNat_toNat (bytes : List UInt8) : ofNat bytes.length (toNat bytes) = bytes := by
  induction bytes with
  | nil => rfl
  | cons b bytes ih =>
      have hb := b.toNat_lt
      have hlow : UInt8.ofNat (b.toNat + 256 * toNat bytes) = b := by
        refine UInt8.toNat_inj.mp ?_
        rw [UInt8.toNat_ofNat']
        omega
      have hhigh : (b.toNat + 256 * toNat bytes) / 256 = toNat bytes := by omega
      rw [List.length_cons, toNat, ofNat, hlow, hhigh, ih]

theorem toNat_lt (bytes : List UInt8) : toNat bytes < 256 ^ bytes.length := by
  induction bytes with
  | nil => simp [toNat]
  | cons b bytes ih =>
      have hb := b.toNat_lt
      rw [toNat, List.length_cons, Nat.pow_succ]
      omega

/-- The bytes of an integer of `w` bytes. -/
def ofInt (w : Nat) (x : Int) : List UInt8 := ofNat w (x % (256 ^ w : Nat)).toNat

def toInt (bytes : List UInt8) : Int := Int.bmod (toNat bytes) (256 ^ bytes.length)

@[simp] theorem length_ofInt (w : Nat) (x : Int) : (ofInt w x).length = w := length_ofNat _ _

/-- What fits into `w` bytes comes back. -/
theorem toInt_ofInt {w : Nat} {x : Int} (hlow : -(256 ^ w : Nat) ≤ 2 * x)
    (hhigh : 2 * x < (256 ^ w : Nat)) : toInt (ofInt w x) = x := by
  have hpos : 0 < 256 ^ w := Nat.pow_pos (by decide)
  have hmod : ((x % (256 ^ w : Nat)).toNat : Int) = x % (256 ^ w : Nat) :=
    Int.toNat_of_nonneg (Int.emod_nonneg _ (by omega))
  unfold toInt
  rw [length_ofInt, ofInt, toNat_ofNat, Int.natCast_emod, hmod, Int.emod_emod_of_dvd _ dvd_rfl,
    Int.emod_bmod]
  exact Int.bmod_eq_of_le_mul_two (by omega) (by omega)

end LittleEndian
