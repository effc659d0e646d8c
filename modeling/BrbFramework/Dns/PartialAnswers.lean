import BrbFramework.Dns.Rfc1035
import Mathlib.Data.List.Perm.Basic

/-!
# Replies of which a part is missing

`rfc1035AnswersUnpack` allocates as many records as the header announces, fills
them from the last to the first, and returns how many it filled. Its caller
reads as many from the first on. When the reply is cut off, these are not the
same records.
-/

namespace Rfc1035

open List

section Records

variable (buf : Nat → UInt8) (sz : Nat)

/-- The records that decode, of `n` from `off` on, in the order of the message. -/
def decoded : Nat → Nat → List Rr
  | 0, _ => []
  | n + 1, off =>
      if sz ≤ off then []
      else
        match rrUnpack buf sz off with
        | .error _ => []
        | .ok (rr, off) => rr :: decoded n off

/-- What the first record that does not decode leaves of itself. -/
def leftover : Nat → Nat → Rr
  | 0, _ => {}
  | n + 1, off =>
      if sz ≤ off then {}
      else
        match rrUnpack buf sz off with
        | .error rr => rr
        | .ok (_, off) => leftover n off

def unfilled (n off : Nat) : List Rr :=
  if (decoded buf sz n off).length = n then []
  else List.replicate (n - (decoded buf sz n off).length - 1) ({} : Rr) ++ [leftover buf sz n off]

variable {buf sz}

theorem length_decoded_le (n off : Nat) : (decoded buf sz n off).length ≤ n := by
  induction n generalizing off with
  | zero => exact Nat.le_refl 0
  | succ n ih =>
      rw [decoded]
      split
      · exact Nat.zero_le _
      · split
        · exact Nat.zero_le _
        · rw [length_cons]
          exact Nat.succ_le_succ (ih _)

/-- **How the records are filled.**  Those that decode are the last ones, in reverse order, and in
front of them are the one that did not decode and the ones that were not tried. -/
theorem answersLoop_eq (n off : Nat) (recs : List Rr) (nr : Nat) :
    answersLoop buf sz n off recs nr =
      (unfilled buf sz n off ++ ((decoded buf sz n off).reverse ++ recs),
        nr + (decoded buf sz n off).length) := by
  induction n generalizing off recs nr with
  | zero => rfl
  | succ n ih =>
      rw [answersLoop, unfilled, decoded, leftover]
      split
      · rw [length_nil, if_neg (Nat.zero_ne_add_one n), reverse_nil,
          replicate_succ']
        rfl
      · cases hrr : rrUnpack buf sz off with
        | error rr =>
            simp only [length_nil, reverse_nil, nil_append, Nat.add_zero,
              Nat.sub_zero, Nat.add_sub_cancel]
            rw [if_neg (Nat.zero_ne_add_one n), append_assoc]
            rfl
        | ok r =>
            obtain ⟨rr, off'⟩ := r
            simp only [length_cons, reverse_cons, append_assoc,
              singleton_append, Nat.add_right_cancel_iff, Nat.reduceSubDiff]
            rw [ih, unfilled]
            have hcount : nr + 1 + (decoded buf sz n off').length =
                nr + ((decoded buf sz n off').length + 1) := by omega
            rw [hcount]

theorem length_unfilled (n off : Nat) :
    (unfilled buf sz n off).length = n - (decoded buf sz n off).length := by
  have hle := @length_decoded_le buf sz n off
  unfold unfilled
  split
  · rw [length_nil]
    omega
  · rw [length_append, length_replicate, length_singleton]
    omega

variable (buf sz) in
/-- Where a record does not decode, the reply ends, or the record does not fit what is left of
it. -/
def Truncated : Nat → Nat → Prop
  | 0, _ => True
  | n + 1, off =>
      sz ≤ off ∨
        match rrUnpack buf sz off with
        | .error rr => rr = {}
        | .ok (_, off) => Truncated n off

theorem truncated_iff {n off : Nat} : Truncated buf sz n off ↔ leftover buf sz n off = {} := by
  induction n generalizing off with
  | zero => exact iff_of_true trivial rfl
  | succ n ih =>
      rw [Truncated, leftover]
      by_cases hend : sz ≤ off
      · rw [if_pos hend]
        exact iff_of_true (Or.inl hend) rfl
      · rw [if_neg hend, or_iff_right hend]
        cases rrUnpack buf sz off with
        | error rr => exact Iff.rfl
        | ok r => exact ih

instance (n off : Nat) : Decidable (Truncated buf sz n off) :=
  decidable_of_iff _ truncated_iff.symm

theorem unfilled_of_truncated {n off : Nat} (h : Truncated buf sz n off) :
    unfilled buf sz n off = List.replicate (n - (decoded buf sz n off).length) {} := by
  have hle := @length_decoded_le buf sz n off
  unfold unfilled
  split
  · rename_i hall
    rw [hall, Nat.sub_self]
    rfl
  · have hsucc : n - (decoded buf sz n off).length =
        n - (decoded buf sz n off).length - 1 + 1 := by omega
    rw [truncated_iff.mp h, hsucc, replicate_succ', Nat.add_sub_cancel]

end Records

theorem take_blanks_perm_iff (l : List Rr) (k : Nat) :
    ((List.replicate k ({} : Rr) ++ l.reverse).take l.length).Perm l ↔
      ∀ rr ∈ l.take k, rr = {} := by
  have htake : (List.replicate k ({} : Rr) ++ l.reverse).take l.length =
      List.replicate (min k l.length) ({} : Rr) ++ (l.drop k).reverse := by
    have hdrop : l.drop (l.length - (l.length - k)) = l.drop k := by
      by_cases hk : k ≤ l.length
      · rw [Nat.sub_sub_self hk]
      · rw [drop_eq_nil_of_le (by omega), drop_eq_nil_of_le (by omega)]
    rw [take_append, take_replicate, length_replicate, Nat.min_comm,
      take_reverse, hdrop]
  rw [htake]
  have hlen : (l.take k).length = min k l.length := length_take
  constructor
  · intro hperm rr hrr
    have hsplit : (List.replicate (min k l.length) ({} : Rr) ++ l.drop k).Perm
        (l.take k ++ l.drop k) := by
      rw [take_append_drop]
      exact ((reverse_perm _).symm.append_left _).trans hperm
    have hblank := (perm_append_right_iff (l.drop k)).mp hsplit
    exact eq_of_mem_replicate (hblank.mem_iff.mpr hrr)
  · intro hblank
    have hfront : l.take k = List.replicate (min k l.length) {} :=
      eq_replicate_iff.mpr ⟨hlen, hblank⟩
    rw [← hfront]
    conv_rhs => rw [← take_append_drop k l]
    exact (reverse_perm _).append_left _

/-- **Replies that are cut off.**  The records that are counted are those that decoded if none is
missing, or as many blank ones as are missing come first. -/
theorem answersUnpack_partial_iff {buf : Nat → UInt8} {sz off : Nat} {hdr : Message}
    (hhdr : headerUnpack buf sz = some hdr) (hrcode : hdr.rcode = 0)
    (hskip : skipQuestions buf sz hdr.qdcount 12 = .done off)
    (htruncated : Truncated buf sz hdr.ancount off) (hsome : decoded buf sz hdr.ancount off ≠ []) :
    (∃ u, answersUnpack buf sz = some u ∧
      u.replyCount = (decoded buf sz hdr.ancount off).length ∧
      (u.records.take u.replyCount.toNat).Perm (decoded buf sz hdr.ancount off)) ↔
      ∀ rr ∈ (decoded buf sz hdr.ancount off).take
        (hdr.ancount - (decoded buf sz hdr.ancount off).length), rr = {} := by
  obtain ⟨l, hl⟩ : ∃ l, decoded buf sz hdr.ancount off = l := ⟨_, rfl⟩
  have hpos : l.length ≠ 0 := by
    intro hzero
    exact hsome (hl.trans (length_eq_zero_iff.mp hzero))
  have hcount : hdr.ancount ≠ 0 := by
    intro hzero
    have hle := @length_decoded_le buf sz hdr.ancount off
    rw [hl] at hle
    omega
  have hunpack : answersUnpack buf sz = some
      { replyCount := l.length
        records := List.replicate (hdr.ancount - l.length) {} ++ l.reverse
        id := hdr.id } := by
    unfold answersUnpack
    simp only [hhdr, hskip]
    rw [if_neg (not_not.mpr hrcode), if_neg hcount]
    simp only [answersLoop_eq, unfilled_of_truncated htruncated, hl, append_nil,
      Nat.zero_add]
    rw [if_neg hpos]
  rw [hl, hunpack, ← take_blanks_perm_iff]
  simp

def twoAnnounced : List UInt8 := [0, 0, 0x81, 0x80, 0, 0, 0, 2, 0, 0, 0, 0]

def address (last : UInt8) : List UInt8 := [0, 0, 1, 0, 1, 0, 0, 0, 60, 0, 4, 10, 0, 0, last]

def message (data : List UInt8) : Nat → UInt8 := fun i => data.getD i 0

theorem twoAnnounced_whole :
    (∃ u, answersUnpack (message (twoAnnounced ++ address 1 ++ address 2)) 42 = some u ∧
      u.replyCount =
        (decoded (message (twoAnnounced ++ address 1 ++ address 2)) 42 2 12).length ∧
      (u.records.take u.replyCount.toNat).Perm
        (decoded (message (twoAnnounced ++ address 1 ++ address 2)) 42 2 12)) ↔
      ∀ rr ∈ (decoded (message (twoAnnounced ++ address 1 ++ address 2)) 42 2 12).take
        (2 - (decoded (message (twoAnnounced ++ address 1 ++ address 2)) 42 2 12).length),
          rr = {} :=
  @answersUnpack_partial_iff (message (twoAnnounced ++ address 1 ++ address 2)) 42 12
    { id := 0, qr := 1, rd := 1, ra := 1, ancount := 2 } (by decide) rfl rfl (by decide)
    (by decide)

/-- Of two announced addresses the first is there. The caller is told of one record and finds a
blank one. -/
theorem twoAnnounced_first_lost :
    (decoded (message (twoAnnounced ++ address 1)) 27 2 12).length = 1 ∧
      Truncated (message (twoAnnounced ++ address 1)) 27 2 12 ∧
      ¬∃ u, answersUnpack (message (twoAnnounced ++ address 1)) 27 = some u ∧
        u.replyCount = (decoded (message (twoAnnounced ++ address 1)) 27 2 12).length ∧
        (u.records.take u.replyCount.toNat).Perm
          (decoded (message (twoAnnounced ++ address 1)) 27 2 12) := by
  refine ⟨by decide, by decide, ?_⟩
  have hunpack : (answersUnpack (message (twoAnnounced ++ address 1)) 27).map
      (fun u => u.records.take u.replyCount.toNat) = some [{}] := by decide
  rintro ⟨u, hu, -, hperm⟩
  rw [hu, Option.map_some, Option.some.injEq] at hunpack
  rw [hunpack] at hperm
  have hsame := perm_singleton.mp hperm.symm
  exact absurd hsame (by decide)

end Rfc1035
