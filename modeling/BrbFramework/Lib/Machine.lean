import Mathlib.Data.Int.ModEq
import Mathlib.Logic.Function.Basic

/-!
# Machine integers and ranges of bytes

An index that a program keeps in an `int` comes back as `int32` of itself. A
write of a range of bytes is `splice` on an allocation, which has an end, and
`writeAt` on a file, which has none and where a byte may not have been written.
-/

namespace Machine

open List

/-- A value as it comes back from a 32-bit signed integer. -/
@[irreducible] def int32 (x : Int) : Int := Int.bmod x 4294967296

/-- What fits is kept. -/
theorem int32_of_lt {x : Int} (hlow : 0 ≤ x) (hhigh : x < 2 ^ 31) : int32 x = x := by
  unfold int32
  rw [Int.bmod_def]
  have hmod : x % ((4294967296 : Nat) : Int) = x := Int.emod_eq_of_lt hlow (by omega)
  rw [hmod]
  split <;> omega

theorem int32_int32 (x : Int) : int32 (int32 x) = int32 x := by
  unfold int32
  exact Int.bmod_bmod

/-- A value as an unsigned integer of 64 bits keeps it. -/
def uint64 (x : Nat) : Nat := x % 2 ^ 64

theorem uint64_of_lt {x : Nat} (h : x < 2 ^ 64) : uint64 x = x := Nat.mod_eq_of_lt h

/-- The difference of two of them, which wraps. -/
def uint64Sub (x y : Nat) : Nat := (x + 2 ^ 64 - y) % 2 ^ 64

theorem uint64Sub_of_le {x y : Nat} (h : y ≤ x) (hx : x < 2 ^ 64) : uint64Sub x y = x - y := by
  unfold uint64Sub
  rw [show x + 2 ^ 64 - y = x - y + 2 ^ 64 by omega, Nat.add_mod_right,
    Nat.mod_eq_of_lt (by omega)]

section Splice

variable {α : Type}

/-- The allocation `l` after `bs` was copied to `off`. -/
def splice (l : List α) (off : Nat) (bs : List α) : List α :=
  l.take off ++ bs ++ l.drop (off + bs.length)

variable {l bs : List α} {off : Nat}

@[simp] theorem splice_nil : splice l off [] = l := by
  simp [splice]

theorem length_splice (h : off + bs.length ≤ l.length) :
    (splice l off bs).length = l.length := by
  simp [splice]
  omega

theorem splice_inside (h : off + bs.length ≤ l.length) {i : Nat} (hi : i < bs.length) :
    (splice l off bs)[off + i]? = bs[i]? := by
  have hlen : (l.take off).length = off := by
    rw [length_take]
    omega
  unfold splice
  rw [append_assoc, getElem?_append_right (by omega), hlen,
    Nat.add_sub_cancel_left, getElem?_append_left hi]

theorem splice_below (h : off + bs.length ≤ l.length) {i : Nat} (hi : i < off) :
    (splice l off bs)[i]? = l[i]? := by
  have hlen : (l.take off).length = off := by
    rw [length_take]
    omega
  unfold splice
  rw [append_assoc, getElem?_append_left (by omega), getElem?_take_of_lt hi]

theorem splice_above (h : off + bs.length ≤ l.length) {i : Nat} (hi : off + bs.length ≤ i) :
    (splice l off bs)[i]? = l[i]? := by
  have hlen : (l.take off ++ bs).length = off + bs.length := by
    rw [length_append, length_take]
    omega
  unfold splice
  rw [getElem?_append_right (by omega), hlen, getElem?_drop]
  congr 1
  omega

/-- What was copied is what is there. -/
theorem take_drop_splice (h : off ≤ l.length) :
    ((splice l off bs).drop off).take bs.length = bs := by
  have hlen : (l.take off).length = off := by
    rw [length_take]
    omega
  rw [splice, append_assoc, drop_left' hlen, take_left]

end Splice

section WriteAt

variable {α : Type}

/-- A file after `bs` was written at `off`. -/
def writeAt (file : Nat → Option α) (off : Nat) (bs : List α) : Nat → Option α :=
  fun i => if off ≤ i ∧ i < off + bs.length then bs[i - off]? else file i

variable {file : Nat → Option α} {off : Nat} {bs : List α}

end WriteAt

end Machine
