import BrbFramework.Data.StringArrayExplode

/-!
# Key-value rows

The rows of a `KV_ARRAY_DATA` in the order of its list. An element of the list may
carry no row.
-/

namespace BrbData

open List

/-- A `KEY_VALUE`. The arrays are what lies from their first byte on. -/
structure KeyValue where
  key : CStr
  keySz : Nat
  value : List UInt8
  valueSz : Nat
  deriving DecidableEq, Repr

namespace KeyValue

open CStr

/-- The `*` of a key. -/
def star : UInt8 := '*'.toUInt8

/-- The last `*` of a key, or zero. -/
def tokenPos (key : CStr) : Nat :=
  (List.range key.strlen).foldl (fun tokenPos i => if key.charAt i = star then i else tokenPos) 0

/-- The test of `KVRowGetByKey` on a row. -/
def matchesKey (key : CStr) (kv : KeyValue) : Bool :=
  let keySz := if tokenPos key ≠ 0 then tokenPos key else key.strlen
  (tokenPos key ≠ 0 || keySz == kv.keySz) && strncmpEq key kv.key keySz

/-- `KVRowGetByKey`. -/
def rowGetByKey (rows : List (Option KeyValue)) (key : CStr) : Option KeyValue :=
  (rows.filterMap id).find? (matchesKey key)

/-! ## Keys without a `*` -/

theorem tokenPos_eq_zero {key : CStr} (h : star ∉ key) : tokenPos key = 0 := by
  have hall : ∀ n, (List.range n).foldl
      (fun tokenPos i => if key.charAt i = star then i else tokenPos) 0 = 0 := by
    intro n
    induction n with
    | zero => rfl
    | succ n ih =>
      have hne : key.charAt n ≠ star := by
        intro heq
        rw [charAt, getD_eq_getElem?_getD] at heq
        cases hget : key[n]? with
        | none =>
          rw [hget] at heq
          exact absurd heq (by decide)
        | some b =>
          rw [hget, Option.getD_some] at heq
          exact h (heq ▸ mem_of_getElem? hget)
      rw [range_succ, foldl_append, ih]
      simp [hne]
  exact hall _

/-- `kv` is a row of `key`. -/
def isOf (key : CStr) (kv : KeyValue) : Bool := kv.keySz == key.length && key.isPrefixOf kv.key

theorem rowGetByKey_eq {key : CStr} (hnul : 0 ∉ key) (hstar : star ∉ key)
    (rows : List (Option KeyValue)) :
    rowGetByKey rows key = (rows.filterMap id).find? (isOf key) := by
  have hmatches : matchesKey key = isOf key := by
    funext kv
    rw [Bool.eq_iff_iff, matchesKey, tokenPos_eq_zero hstar, strlen_eq hnul]
    simp only [ne_eq, not_true_eq_false, decide_false, if_neg, Bool.false_or, Bool.and_eq_true,
      beq_iff_eq, isOf, strncmpEq_iff hnul, not_false_eq_true, isPrefixOf_iff_prefix]
    rw [@eq_comm Nat key.length]
  rw [rowGetByKey, hmatches]

end KeyValue

end BrbData
