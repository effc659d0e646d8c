import BrbFramework.Event.Transform

/-!
# The records of RC4_MD5

Each write goes out with a header of 30 bytes in front. The receiver looks for no
header: it hides the first 30 bytes of whatever it read. So the writes come through
for all salts and all contents exactly if each read is one record:
`roundTrip_rc4Md5_iff`.
-/

namespace EvAIOReqTransform

open BrbData List

theorem length_header (salt : UInt32) (data : List UInt8) :
    (header salt data).flatten.length = 30 := by
  simp [header]

theorem length_plain (w : UInt32 × List UInt8) :
    (plain .rc4Md5 w).length = 30 + w.2.length := by
  rw [plain, if_pos rfl, length_append, length_header]

theorem drop_plain (w : UInt32 × List UInt8) : (plain .rc4Md5 w).drop 30 = w.2 := by
  rw [plain, if_pos rfl, drop_left' (length_header _ _)]

section Records

variable {crypto crypto' : CommEvCryptoInfo} (h : Enabled crypto) (h' : Enabled crypto')
  (hmd5 : crypto.algoCode = .rc4Md5) (hmd5' : crypto'.algoCode = .rc4Md5)

include h' hmd5' in
theorem sent_cons (w : UInt32 × List UInt8) (writes : List (UInt32 × List UInt8)) :
    sent crypto' (w :: writes) =
      List.zipWith (· ^^^ ·) (plain .rc4Md5 w) (mask crypto'.writeState (30 + w.2.length)) ++
        sent { crypto' with writeState := after crypto'.writeState (30 + w.2.length) } writes := by
  obtain ⟨hout, hnext⟩ := writeData_eq h' w.1 w.2
  rw [sent, hout, hnext, hmd5', length_plain]

include h hmd5 in
theorem received_record (data : List UInt8) (reads : List (List UInt8)) :
    received crypto (data :: reads) =
      if 30 ≤ data.length then
        (received { crypto with readState := after crypto.readState data.length } reads).map
          ((List.zipWith (· ^^^ ·) data (mask crypto.readState data.length)).drop 30 ++ ·)
      else none := by
  have hhidden : hidden crypto.algoCode = 30 := by rw [hmd5]; rfl
  rw [received_cons h, hhidden]

include h' hmd5' in
theorem length_sent (writes : List (UInt32 × List UInt8)) :
    (sent crypto' writes).length = (writes.map fun w => 30 + w.2.length).sum := by
  induction writes generalizing crypto' with
  | nil => rfl
  | cons w writes ih =>
      have hrest := ih (h'.write (after crypto'.writeState (30 + w.2.length))) hmd5'
      rw [sent_cons h' hmd5', length_append, length_zipWith, length_plain, length_mask,
        Nat.min_self, hrest, map_cons, sum_cons]

include h h' hmd5 hmd5'

theorem received_record_sent (hstate : crypto.readState = crypto'.writeState)
    (w : UInt32 × List UInt8) (writes : List (UInt32 × List UInt8)) (sizes : List Nat) :
    received crypto (((30 + w.2.length) :: sizes).splitLengths (sent crypto' (w :: writes))) =
      (received { crypto with readState := after crypto.readState (30 + w.2.length) }
        (sizes.splitLengths (sent
          { crypto' with writeState := after crypto'.writeState (30 + w.2.length) } writes))).map
        (w.2 ++ ·) := by
  have hlen : (List.zipWith (· ^^^ ·) (plain .rc4Md5 w)
      (mask crypto'.writeState (30 + w.2.length))).length = 30 + w.2.length := by
    rw [length_zipWith, length_plain, length_mask, Nat.min_self]
  have hback : List.zipWith (· ^^^ ·) (List.zipWith (· ^^^ ·) (plain .rc4Md5 w)
      (mask crypto'.writeState (30 + w.2.length))) (mask crypto'.writeState (30 + w.2.length)) =
        plain .rc4Md5 w :=
    (zipWith_xor_xor_iff (by rw [length_mask, length_plain])
      (by rw [length_mask, length_plain])).mpr rfl
  rw [splitLengths_cons, sent_cons h' hmd5', take_left' hlen, drop_left' hlen,
    received_record h hmd5, hlen, if_pos (Nat.le_add_right _ _), hstate, hback, drop_plain]

theorem received_records (hstate : crypto.readState = crypto'.writeState)
    (writes : List (UInt32 × List UInt8)) :
    received crypto ((writes.map fun w => 30 + w.2.length).splitLengths (sent crypto' writes)) =
      some (writes.flatMap Prod.snd) := by
  induction writes generalizing crypto crypto' with
  | nil => rfl
  | cons w writes ih =>
      have hrest := ih (h.read (after crypto.readState (30 + w.2.length)))
        (h'.write (after crypto'.writeState (30 + w.2.length))) hmd5 hmd5' (by rw [hstate])
      rw [map_cons, received_record_sent h h' hmd5 hmd5' hstate, hrest, Option.map_some,
        flatMap_cons]

end Records

/-! ## Reads of other sizes -/

def blank (lens : List Nat) : List (UInt32 × List UInt8) :=
  lens.map fun l => (0, List.replicate l 0)

theorem map_length_blank (lens : List Nat) : (blank lens).map (fun w => w.2.length) = lens := by
  simp [blank, Function.comp_def]

theorem sum_blank (lens : List Nat) :
    ((blank lens).map fun w => 30 + w.2.length).sum = (lens.map (30 + ·)).sum := by
  simp [blank, Function.comp_def]

theorem zipWith_xor_inj {bs bs' m : List UInt8} (h : bs.length = m.length)
    (h' : bs'.length = m.length)
    (heq : List.zipWith (· ^^^ ·) bs m = List.zipWith (· ^^^ ·) bs' m) : bs = bs' := by
  calc bs = List.zipWith (· ^^^ ·) (List.zipWith (· ^^^ ·) bs m) m :=
        ((zipWith_xor_xor_iff h.symm h.symm).mpr rfl).symm
    _ = List.zipWith (· ^^^ ·) (List.zipWith (· ^^^ ·) bs' m) m := by rw [heq]
    _ = bs' := (zipWith_xor_xor_iff h'.symm h'.symm).mpr rfl

section Sizes

variable {crypto crypto' : CommEvCryptoInfo} (h : Enabled crypto) (h' : Enabled crypto')
  (hmd5 : crypto.algoCode = .rc4Md5) (hmd5' : crypto'.algoCode = .rc4Md5)

include h hmd5 in
theorem received_congr {cipher cipher' : List UInt8} (hlen : cipher.length = cipher'.length)
    (hdrop : cipher.drop 1 = cipher'.drop 1) (sizes : List Nat) :
    received crypto (sizes.splitLengths cipher) = received crypto (sizes.splitLengths cipher') := by
  -- so is what comes before any later position
  have hlater : ∀ k, 1 ≤ k → cipher.drop k = cipher'.drop k := by
    intro k hk
    rw [← Nat.sub_add_cancel hk, Nat.add_comm, ← drop_drop, hdrop, drop_drop]
  cases sizes with
  | nil => rfl
  | cons s sizes =>
      have hsame : (cipher.take s).length = (cipher'.take s).length := by
        rw [length_take, length_take, hlen]
      rw [splitLengths_cons, splitLengths_cons, received_record h hmd5,
        received_record h hmd5, hsame]
      split
      · rename_i hlong
        rw [length_take] at hlong
        rw [drop_zipWith, drop_zipWith, drop_take, drop_take,
          hlater 30 (by omega), hlater s (by omega)]
      · rfl

include h hmd5 in
theorem received_split {s : Nat} {sizes : List Nat} {cipher bytes : List UInt8}
    (hs : s ≤ cipher.length)
    (hrec : received crypto ((s :: sizes).splitLengths cipher) = some bytes) :
    30 ≤ s ∧
      (List.zipWith (· ^^^ ·) (cipher.take s) (mask crypto.readState s)).drop 30 =
        bytes.take (s - 30) ∧
      received { crypto with readState := after crypto.readState s }
        (sizes.splitLengths (cipher.drop s)) = some (bytes.drop (s - 30)) := by
  have hlen : (cipher.take s).length = s := length_take_of_le hs
  rw [splitLengths_cons, received_record h hmd5, hlen] at hrec
  split at hrec
  · rename_i hlong
    obtain ⟨rest, hrest, rfl⟩ := Option.map_eq_some_iff.mp hrec
    have hvisible : ((List.zipWith (· ^^^ ·) (cipher.take s)
        (mask crypto.readState s)).drop 30).length = s - 30 := by
      rw [length_drop, length_zipWith, length_mask, hlen, Nat.min_self]
    exact ⟨hlong, (take_left' hvisible).symm, by rw [hrest, drop_left' hvisible]⟩
  · cases hrec

include h h' hmd5 hmd5'

theorem not_short (k j : Nat) (writes : List (UInt32 × List UInt8)) (sizes : List Nat)
    (hrec : ∀ v : UInt8, received crypto (((30 + k) :: sizes).splitLengths
      (sent crypto' ((0, List.replicate k 0 ++ v :: List.replicate j 0) :: writes))) =
        some (List.replicate k 0 ++ v :: List.replicate j 0 ++ writes.flatMap Prod.snd)) :
    False := by
  let w : UInt8 → UInt32 × List UInt8 := fun v => (0, List.replicate k 0 ++ v :: List.replicate j 0)
  have hw : ∀ v, (w v).2.length = k + (j + 1) := fun v => by simp [w]
  have hcipher : ∀ v, (sent crypto' (w v :: writes)).length =
      30 + (k + (j + 1)) + (writes.map fun w => 30 + w.2.length).sum := fun v => by
    rw [length_sent h' hmd5', map_cons, sum_cons, hw]
  -- the rest of the stream but for its first byte
  have hrest : ∀ v, ((sent crypto' (w v :: writes)).drop (30 + k)).drop 1 =
      List.zipWith (· ^^^ ·) (List.replicate j 0)
        ((mask crypto'.writeState (30 + (k + (j + 1)))).drop (30 + k + 1)) ++
      sent { crypto' with writeState := after crypto'.writeState (30 + (k + (j + 1))) } writes := by
    intro v
    have htail : (plain .rc4Md5 (w v)).drop (30 + k + 1) = List.replicate j 0 := by
      rw [Nat.add_assoc, ← drop_drop, drop_plain, ← drop_drop,
        drop_left' length_replicate, drop_one, tail_cons]
    rw [drop_drop, sent_cons h' hmd5', hw, drop_append_of_le_length, drop_zipWith,
      htail]
    rw [length_zipWith, length_plain, length_mask, hw, Nat.min_self]
    omega
  have hread : ∀ v, received { crypto with readState := after crypto.readState (30 + k) }
      (sizes.splitLengths ((sent crypto' (w v :: writes)).drop (30 + k))) =
        some (v :: List.replicate j 0 ++ writes.flatMap Prod.snd) := by
    intro v
    obtain ⟨-, -, hlater⟩ := received_split h hmd5 (by rw [hcipher v]; omega) (hrec v)
    rw [hlater, Nat.add_sub_cancel_left, append_assoc, drop_left' length_replicate]
  have hsame := received_congr (h.read (after crypto.readState (30 + k))) hmd5
    (by rw [length_drop, length_drop, hcipher 0, hcipher 1])
    ((hrest 0).trans (hrest 1).symm) sizes
  rw [hread 0, hread 1] at hsame
  simp at hsame

theorem not_long (l l₂ t : Nat) (writes : List (UInt32 × List UInt8)) (sizes : List Nat)
    (hle : t + 1 ≤ 30 + l₂ + (writes.map fun w => 30 + w.2.length).sum) (bytes : List UInt8)
    (hrec : ∀ salt : UInt32, received crypto (((30 + l + (t + 1)) :: sizes).splitLengths
      (sent crypto' ((0, List.replicate l 0) :: (salt, List.replicate l₂ 0) :: writes))) =
        some bytes) :
    False := by
  let stream : UInt32 → List UInt8 := fun salt =>
    sent crypto' ((0, List.replicate l 0) :: (salt, List.replicate l₂ 0) :: writes)
  have hlen : ∀ salt, 30 + l + (t + 1) ≤ (stream salt).length := fun salt => by
    simp only [stream]
    rw [length_sent h' hmd5']
    simp only [map_cons, sum_cons, length_replicate]
    omega
  have hshown : ∀ salt, List.zipWith (· ^^^ ·) (((stream salt).take (30 + l + (t + 1))).drop 30)
      ((mask crypto.readState (30 + l + (t + 1))).drop 30) =
        bytes.take (30 + l + (t + 1) - 30) := by
    intro salt
    obtain ⟨-, hfirst, -⟩ := received_split h hmd5 (hlen salt) (hrec salt)
    rw [← hfirst, drop_zipWith]
  have hsame : ((stream 0).take (30 + l + (t + 1))).drop 30 =
      ((stream 1).take (30 + l + (t + 1))).drop 30 := by
    have hcut : ∀ salt, (((stream salt).take (30 + l + (t + 1))).drop 30).length =
        ((mask crypto.readState (30 + l + (t + 1))).drop 30).length := fun salt => by
      rw [length_drop, length_drop, length_mask, length_take_of_le (hlen salt)]
    exact zipWith_xor_inj (hcut 0) (hcut 1) ((hshown 0).trans (hshown 1).symm)
  -- the first byte of the second record
  obtain ⟨b, m, hm⟩ : ∃ b m, mask (after crypto'.writeState (30 + l)) (30 + l₂) = b :: m :=
    exists_cons_of_length_eq_add_one (n := 29 + l₂) (by rw [length_mask]; omega)
  have hbyte : ∀ salt : UInt32, (stream salt)[30 + l]? = some (UInt8.ofNat salt.toNat ^^^ b) := by
    intro salt
    obtain ⟨bs, hbs⟩ : ∃ bs, plain .rc4Md5 (salt, List.replicate l₂ 0) =
        UInt8.ofNat salt.toNat :: bs := ⟨_, rfl⟩
    have hfirst := sent_cons h' hmd5' (0, List.replicate l 0)
      ((salt, List.replicate l₂ 0) :: writes)
    have hsecond := sent_cons (h'.write (after crypto'.writeState (30 + l))) hmd5'
      (salt, List.replicate l₂ 0) writes
    simp only [length_replicate] at hfirst hsecond
    have hlen : (List.zipWith (· ^^^ ·) (plain .rc4Md5 (0, List.replicate l 0))
        (mask crypto'.writeState (30 + l))).length = 30 + l := by
      rw [length_zipWith, length_plain, length_mask, length_replicate, Nat.min_self]
    simp only [stream]
    rw [hfirst, getElem?_append_right hlen.le, hlen, Nat.sub_self, hsecond, hm, hbs,
      zipWith_cons_cons, cons_append, getElem?_cons_zero]
  have hzero := congrArg (·[l]?) hsame
  simp only [getElem?_drop,
    getElem?_take_of_lt (show 30 + l < 30 + l + (t + 1) by omega), hbyte,
    Option.some_inj] at hzero
  have hback : ∀ a : UInt8, a ^^^ b ^^^ b = a := fun a => (xor_xor_eq_iff a b b).mpr rfl
  have hone : UInt8.ofNat (UInt32.toNat 0) = UInt8.ofNat (UInt32.toNat 1) := by
    rw [← hback (UInt8.ofNat (UInt32.toNat 0)), hzero, hback]
  exact absurd hone (by decide)

theorem sizes_eq (lens sizes : List Nat) (hsum : sizes.sum = (lens.map (30 + ·)).sum)
    (hstate : crypto.readState = crypto'.writeState)
    (hrec : ∀ writes, writes.map (fun w => w.2.length) = lens →
      received crypto (sizes.splitLengths (sent crypto' writes)) =
        some (writes.flatMap Prod.snd)) :
    sizes = lens.map (30 + ·) := by
  induction lens generalizing sizes crypto crypto' with
  | nil =>
      cases sizes with
      | nil => rfl
      | cons s sizes =>
          have hs : 30 ≤ s := by
            have hs0 : s = 0 := by simp at hsum; omega
            exact (received_split h hmd5 (by rw [hs0]; exact Nat.zero_le _) (hrec [] rfl)).1
          simp at hsum
          omega
  | cons l lens ih =>
      cases sizes with
      | nil =>
          simp at hsum
          omega
      | cons s sizes =>
          simp only [map_cons, sum_cons] at hsum
          have hlens := map_length_blank lens
          have hfirst : 30 ≤ s := by
            refine (received_split h hmd5 ?_
              (hrec ((0, List.replicate l 0) :: blank lens) (by simp [hlens]))).1
            rw [length_sent h' hmd5', map_cons, sum_cons, sum_blank,
              length_replicate]
            omega
          rcases Nat.lt_trichotomy s (30 + l) with hlt | rfl | hlt
          · obtain ⟨k, rfl⟩ := Nat.exists_eq_add_of_le hfirst
            obtain ⟨j, rfl⟩ : ∃ j, l = k + (j + 1) := ⟨l - k - 1, by omega⟩
            exact (not_short h h' hmd5 hmd5' k j (blank lens) sizes fun v =>
              hrec ((0, List.replicate k 0 ++ v :: List.replicate j 0) :: blank lens)
                (by simp [hlens])).elim
          · have hrest : sizes = lens.map (30 + ·) := by
              refine ih (h.read (after crypto.readState (30 + l)))
                (h'.write (after crypto'.writeState (30 + l))) hmd5 hmd5' _ (by omega)
                (by rw [hstate]) fun writes hwrites => ?_
              have hback := hrec ((0, List.replicate l 0) :: writes) (by simp [hwrites])
              have hrecord := received_record_sent h h' hmd5 hmd5' hstate
                (0, List.replicate l 0) writes sizes
              simp only [length_replicate] at hrecord
              rw [hrecord, flatMap_cons, Option.map_eq_some_iff] at hback
              obtain ⟨rest, hrest, heq⟩ := hback
              rw [hrest, append_cancel_left heq]
            rw [map_cons, ← hrest]
          · cases lens with
            | nil =>
                simp at hsum
                omega
            | cons l₂ lens =>
                obtain ⟨t, rfl⟩ : ∃ t, s = 30 + l + (t + 1) := ⟨s - (30 + l) - 1, by omega⟩
                have hblank := sum_blank lens
                simp only [map_cons, sum_cons] at hsum
                exact (not_long h h' hmd5 hmd5' l l₂ t (blank lens) sizes (by omega)
                  (List.replicate l 0 ++ (List.replicate l₂ 0 ++ (blank lens).flatMap Prod.snd))
                  fun salt => hrec
                    ((0, List.replicate l 0) :: (salt, List.replicate l₂ 0) :: blank lens)
                    (by simp [map_length_blank])).elim

end Sizes

/-- **Streams of such writes come through, for all salts and all contents, exactly
if each read is one record.** -/
theorem roundTrip_rc4Md5_iff (key : List UInt8) (lens sizes : List Nat)
    (hsizes : sizes.sum = (lens.map (30 + ·)).sum) :
    (∀ writes, writes.map (fun w => w.2.length) = lens → RoundTrip .rc4Md5 key writes sizes) ↔
      key ≠ [] ∧ sizes = lens.map (30 + ·) := by
  have henabled := enabled_init .rc4Md5 (.inr rfl) (Rc4.init key)
  constructor
  · intro hback
    obtain ⟨crypto, henable, -⟩ := hback (blank lens) (map_length_blank lens)
    refine ⟨((cryptoEnable_iff (.inr rfl)).mp henable).1,
      sizes_eq henabled henabled rfl rfl lens sizes hsizes rfl fun writes hwrites => ?_⟩
    obtain ⟨crypto', henable', hrec⟩ := hback writes hwrites
    rwa [((cryptoEnable_iff (.inr rfl)).mp henable').2] at hrec
  · rintro ⟨hkey, rfl⟩ writes rfl
    refine ⟨_, (cryptoEnable_iff (.inr rfl)).mpr ⟨hkey, rfl⟩, ?_⟩
    have hrec := received_records henabled henabled rfl rfl rfl writes
    rwa [map_map]

/-- A write of one byte and an empty one. -/
theorem roundTrip_rc4Md5_iff_two : RoundTrip .rc4Md5 [1, 2] [(5, [7]), (6, [])] [31, 30] :=
  (roundTrip_rc4Md5_iff [1, 2] [1, 0] [31, 30] rfl).mpr ⟨by decide, rfl⟩ _ rfl

/-- One record in two reads: the size of the second buffer wraps. -/
theorem not_roundTrip_rc4Md5 : ¬ RoundTrip .rc4Md5 [1, 2] [(0, [7])] [30, 1] := by
  rintro ⟨crypto, henable, hback⟩
  obtain ⟨-, rfl⟩ := (cryptoEnable_iff (.inr rfl)).mp henable
  have henabled := enabled_init .rc4Md5 (.inr rfl) (Rc4.init [1, 2])
  have hlen := length_sent henabled rfl [(0, [7])]
  obtain ⟨-, -, hrest⟩ := received_split henabled rfl (by rw [hlen]; decide) hback
  have hsecond := (received_split (henabled.read (after (Rc4.init [1, 2]) 30)) rfl
    (by rw [length_drop, hlen]; decide) hrest).1
  exact absurd hsecond (by decide)

end EvAIOReqTransform
