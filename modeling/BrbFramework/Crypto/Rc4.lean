import Mathlib.Logic.Function.Basic

/-!
# The RC4 stream cipher of `crypto/rc4.c`

The permutation and both indexes live in a state that every encrypted byte
advances, so what a byte is encrypted to depends on all bytes before it. It
does not depend on what they were: `crypt_crypt`.
-/

namespace Rc4

/-- `BRB_RC4_State`. -/
structure State where
  perm : UInt8 → UInt8
  index1 : UInt8
  index2 : UInt8

/-- The state after `memset`. -/
def State.zero : State := ⟨fun _ => 0, 0, 0⟩

/-- `BRB_RC4_SwapBytes` on two entries of the permutation. -/
def swapBytes (perm : UInt8 → UInt8) (a b : UInt8) : UInt8 → UInt8 :=
  Function.update (Function.update perm a (perm b)) b (perm a)

/-- One turn of the key loop of `BRB_RC4_Init`, on the permutation and `j`. -/
def keyStep (key : List UInt8) (st : (UInt8 → UInt8) × UInt8) (i : Nat) :
    (UInt8 → UInt8) × UInt8 :=
  let at_i := UInt8.ofNat i
  let j := st.2 + (st.1 at_i + key.getD (i % key.length) 0)
  (swapBytes st.1 at_i j, j)

/-- `BRB_RC4_Init`. -/
def init (key : List UInt8) : State :=
  ⟨((List.range 256).foldl (keyStep key) (id, 0)).1, 0, 0⟩

/-- How one byte advances the state of `BRB_RC4_Crypt`. -/
def State.next (state : State) : State :=
  let index1 := state.index1 + 1
  let index2 := state.index2 + state.perm index1
  ⟨swapBytes state.perm index1 index2, index1, index2⟩

/-- The byte of the key stream after the state was advanced. -/
def State.keyByte (state : State) : UInt8 :=
  state.perm (state.perm state.index1 + state.perm state.index2)

/-- `BRB_RC4_Crypt`: the output and the state it leaves. -/
def crypt : State → List UInt8 → List UInt8 × State
  | state, [] => ([], state)
  | state, b :: inbuf =>
      ((b ^^^ state.next.keyByte) :: (crypt state.next inbuf).1, (crypt state.next inbuf).2)

@[simp] theorem length_crypt (state : State) (inbuf : List UInt8) :
    (crypt state inbuf).1.length = inbuf.length := by
  induction inbuf generalizing state with
  | nil => rfl
  | cons b inbuf ih => simp [crypt, ih]

theorem crypt_crypt (state : State) (inbuf : List UInt8) :
    crypt state (crypt state inbuf).1 = (inbuf, (crypt state inbuf).2) := by
  induction inbuf generalizing state with
  | nil => rfl
  | cons b inbuf ih =>
      have htwice : b ^^^ state.next.keyByte ^^^ state.next.keyByte = b := by
        rw [UInt8.xor_assoc, UInt8.xor_self, UInt8.xor_zero]
      simp [crypt, ih, htwice]

/-! ## The key stream -/

/-- The next `n` bytes of the key stream. -/
def keyStream : State → Nat → List UInt8
  | _, 0 => []
  | state, n + 1 => state.next.keyByte :: keyStream state.next n

def advance : State → Nat → State
  | state, 0 => state
  | state, n + 1 => advance state.next n

@[simp] theorem length_keyStream (state : State) (n : Nat) : (keyStream state n).length = n := by
  induction n generalizing state with
  | zero => rfl
  | succ n ih => rw [keyStream, List.length_cons, ih]

theorem crypt_eq_keyStream (state : State) (inbuf : List UInt8) :
    crypt state inbuf = (List.zipWith (· ^^^ ·) inbuf (keyStream state inbuf.length),
      advance state inbuf.length) := by
  induction inbuf generalizing state with
  | nil => rfl
  | cons b inbuf ih => simp [crypt, keyStream, advance, ih]

theorem keyStream_add (state : State) (m n : Nat) :
    keyStream state (m + n) = keyStream state m ++ keyStream (advance state m) n := by
  induction m generalizing state with
  | zero => simp [keyStream, advance]
  | succ m ih => simp [Nat.succ_add, keyStream, advance, ih]

end Rc4
