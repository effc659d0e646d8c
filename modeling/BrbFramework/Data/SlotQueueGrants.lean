import BrbFramework.Data.SlotQueueMapped
import Mathlib.Data.List.Induction
import Mathlib.Data.List.TakeWhile

/-!
# What a mapped slot queue gives out

The array is split at the index. Above it are the places of slots that are out,
and the entries of busy slots that were passed; every other slot is below. So a
slot that is neither busy nor out is below the index, and is had after the
entries below zero there were set free.
-/

namespace BrbData

open Handler Runs List

namespace SlotQueueMapped

/-- The slots of the entries above the index: 9999 stands for one that is out. -/
def passed (above : List Int) : List Nat := (above.filter (· ≠ 9999)).map Int.natAbs

/-- The array is `below` and `above` the index, and every slot is in one place. -/
structure Split (q : SlotQueueMapped) (below above : List Int) : Prop where
  arena : q.arena = below ++ above
  index : q.index = below.length
  length : q.arena.length = q.count
  busyBelow : ∀ e ∈ below, e < 0 → q.publicMap.bitTest e.natAbs = true
  busyAbove : ∀ e ∈ above, e = 9999 ∨ e ≤ 0 ∧ q.publicMap.bitTest e.natAbs = true
  slots : List.Perm (below.map Int.natAbs ++ (passed above ++ q.granted)) (List.range q.count)
  publicMap : q.publicMap.WF
  privateMap : q.privateMap.WF
  granted : ∀ s, q.privateMap.bitTest s = true ↔ s ∈ q.granted
  idle : ∀ s ∈ q.granted, q.publicMap.bitTest s = false

theorem split_mappedInit (before : Int) (slotCount : Nat) :
    Split (mappedInit before slotCount) (mappedInit before slotCount).arena [] where
  arena := (append_nil _).symm
  index := by simp [mappedInit]
  length := by simp [mappedInit]
  busyBelow e he hneg := by
    simp only [mappedInit, mem_reverse, mem_map] at he
    obtain ⟨s, -, rfl⟩ := he
    exact absurd hneg (by simp)
  busyAbove := by nofun
  slots := by
    simp only [mappedInit, passed, filter_nil, map_nil, append_nil,
      map_reverse, map_map]
    refine (reverse_perm _).trans ?_
    have hid : Int.natAbs ∘ Int.ofNat = id := by
      funext s
      rfl
    rw [hid, map_id]
  publicMap := DynBitMap.wf_new _
  privateMap := DynBitMap.wf_new _
  granted s := by simp [mappedInit]
  idle := by nofun

section Access

variable {q : SlotQueueMapped} {front back : List Int} {e : Int} {i : Int}
  {E : Fault → SlotQueueMapped → Prop}

theorem inside (harena : q.arena = front ++ e :: back) :
    decide (0 ≤ (front.length : Int) ∧ (front.length : Int) < q.arena.length) = true := by
  rw [harena, length_append, length_cons, decide_eq_true_eq]
  omega

theorem ends_arenaGet {Q : Int → SlotQueueMapped → Prop} (harena : q.arena = front ++ e :: back)
    (hi : i = front.length) : Ends (arenaGet i) q Q E ↔ Q e q := by
  subst hi
  have hget : q.arena[front.length]?.getD 0 = e := by simp [harena]
  simp only [arenaGet, ends_bind, ends_get, ends_assertThat, inside harena, ends_pure]
  simp [hget]

theorem ends_arenaSet {Q : PUnit → SlotQueueMapped → Prop} (harena : q.arena = front ++ e :: back)
    (hi : i = front.length) (slot : Int) :
    Ends (arenaSet i slot) q Q E ↔ Q ⟨⟩ { q with arena := front ++ slot :: back } := by
  subst hi
  have hset : q.arena.set front.length slot = front ++ slot :: back := by simp [harena]
  simp only [arenaSet, ends_bind, ends_get, ends_assertThat, inside harena, ends_set]
  simp [hset]

theorem ends_publicTest {Q : Bool → SlotQueueMapped → Prop} (hslot : 0 ≤ i) :
    Ends (publicTest i) q Q E ↔ Q (q.publicMap.bitTest i.toNat) q := by
  simp [publicTest, hslot]

theorem ends_privateTest {Q : Bool → SlotQueueMapped → Prop} (hslot : 0 ≤ i) :
    Ends (privateTest i) q Q E ↔ Q (q.privateMap.bitTest i.toNat) q := by
  simp [privateTest, hslot]

end Access

/-! ## Grabbing -/

section Grab

variable {q : SlotQueueMapped} {below top above front back : List Int} {slot : Int}

/-- The queue after a grab that passed the busy slots `top` and gave out `slot`. -/
def afterGrab (q : SlotQueueMapped) (below : List Int) (slot : Int) (top above : List Int) :
    SlotQueueMapped :=
  { q with
    arena := below ++ 9999 :: (top.map (· * -1) ++ above)
    index := below.length
    privateMap := q.privateMap.bitSet slot.toNat
    granted := q.granted ++ [slot.toNat] }

theorem grabLoop_busy {Q : Int → SlotQueueMapped → Prop} {E : Fault → SlotQueueMapped → Prop}
    (harena : q.arena = front ++ slot :: back) (hindex : q.index = front.length + 1)
    (hslot : 0 ≤ slot) (hbusy : q.publicMap.bitTest slot.toNat = true) (n : Nat) (last : Int) :
    Ends (grabLoop (n + 1) last) q Q E ↔
      Ends (grabLoop n slot)
        { q with arena := front ++ slot * -1 :: back, index := front.length } Q E := by
  have hcur : q.index - 1 = front.length := by omega
  have hpos : ¬ (front.length : Int) < 0 := by omega
  simp only [grabLoop, ends_bind, ends_modify, ends_get, hcur]
  refine (ends_arenaGet (by exact harena) rfl).trans ?_
  rw [if_neg hpos]
  simp only [ends_bind]
  refine (ends_publicTest hslot).trans ?_
  simp only [hbusy, if_true, ends_bind]
  exact ends_arenaSet (by exact harena) rfl _

theorem grabLoop_idle {Q : Int → SlotQueueMapped → Prop} {E : Fault → SlotQueueMapped → Prop}
    (harena : q.arena = front ++ slot :: back) (hindex : q.index = front.length + 1)
    (hslot : 0 ≤ slot) (hidle : q.publicMap.bitTest slot.toNat = false)
    (hprivate : q.privateMap.bitTest slot.toNat = false) (n : Nat) (last : Int) :
    Ends (grabLoop (n + 1) last) q Q E ↔ Q slot (q.afterGrab front slot [] back) := by
  have hcur : q.index - 1 = front.length := by omega
  have hpos : ¬ (front.length : Int) < 0 := by omega
  simp only [grabLoop, ends_bind, ends_modify, ends_get, hcur]
  refine (ends_arenaGet (by exact harena) rfl).trans ?_
  rw [if_neg hpos]
  simp only [ends_bind]
  refine (ends_publicTest hslot).trans ?_
  simp only [hidle, Bool.false_eq_true, if_false, ends_bind]
  refine (ends_privateTest hslot).trans ?_
  simp only [hprivate, ends_assertThat]
  simp only [Bool.not_false, forall_const, Bool.true_eq_false, false_implies, and_true]
  refine (ends_arenaSet (by exact harena) rfl _).trans ?_
  simp [grant, afterGrab, hslot]

theorem grabLoop_ends {Q : Int → SlotQueueMapped → Prop} {E : Fault → SlotQueueMapped → Prop}
    (harena : q.arena = below ++ slot :: (top ++ above))
    (hindex : q.index = below.length + 1 + top.length) (hslot : 0 ≤ slot)
    (htop : ∀ e ∈ top, 0 ≤ e ∧ q.publicMap.bitTest e.toNat = true)
    (hidle : q.publicMap.bitTest slot.toNat = false)
    (hprivate : q.privateMap.bitTest slot.toNat = false) {n : Nat} (hn : top.length < n)
    (last : Int) :
    Ends (grabLoop n last) q Q E ↔ Q slot (q.afterGrab below slot top above) := by
  induction top using List.reverseRecOn generalizing above n last q with
  | nil =>
      obtain ⟨n, rfl⟩ := Nat.exists_eq_succ_of_ne_zero (Nat.ne_of_gt hn)
      exact grabLoop_idle harena (by simpa using hindex) hslot hidle hprivate n last
  | append_singleton top e ih =>
      obtain ⟨n, rfl⟩ := Nat.exists_eq_succ_of_ne_zero (Nat.ne_of_gt (Nat.zero_lt_of_lt hn))
      rw [length_append, length_singleton] at hn hindex
      obtain ⟨he, hbusy⟩ := htop e (by simp)
      have hfront : q.arena = (below ++ slot :: top) ++ e :: above := by simpa using harena
      have hlen : (below ++ slot :: top).length = below.length + 1 + top.length := by
        simp
        omega
      refine (grabLoop_busy hfront (by rw [hlen]; omega) he hbusy n last).trans ?_
      have hrest := @ih { q with
          arena := below ++ slot :: top ++ e * -1 :: above
          index := (below ++ slot :: top).length } (e * -1 :: above) (by simp)
        (by rw [hlen]; rfl) (fun e' he' => htop e' (by simp [he'])) hidle hprivate n (by omega) e
      refine hrest.trans ?_
      simp [afterGrab]

theorem reaches_iff {busy : DynBitMap} :
    Reaches busy below.reverse ↔ ∃ front slot top, below = front ++ slot :: top ∧ 0 ≤ slot ∧
      busy.bitTest slot.toNat = false ∧ ∀ e ∈ top, 0 ≤ e ∧ busy.bitTest e.toNat = true := by
  induction below using List.reverseRecOn with
  | nil => simp [Reaches]
  | append_singleton below e ih =>
      rw [reverse_append, reverse_singleton, singleton_append, Reaches, ih]
      constructor
      · rintro ⟨he, hrest⟩
        by_cases hbusy : busy.bitTest e.toNat = true
        · obtain ⟨front, slot, top, rfl, hslot, hidle, htop⟩ := hrest hbusy
          refine ⟨front, slot, top ++ [e], by simp, hslot, hidle, ?_⟩
          intro e' he'
          rcases mem_append.mp he' with he' | he'
          · exact htop e' he'
          · obtain rfl := mem_singleton.mp he'
            exact ⟨he, hbusy⟩
        · exact ⟨below, e, [], by simp, he, by simpa using hbusy, by nofun⟩
      · rintro ⟨front, slot, top, heq, hslot, hidle, htop⟩
        rcases eq_nil_or_concat top with rfl | ⟨top, e', rfl⟩
        · obtain ⟨rfl, hcons⟩ := append_inj' heq (by simp)
          obtain ⟨rfl, -⟩ := List.cons.inj hcons
          exact ⟨hslot, fun hbusy => absurd (hidle.symm.trans hbusy) Bool.false_ne_true⟩
        · rw [concat_eq_append, ← cons_append, ← append_assoc] at heq
          obtain ⟨rfl, hlast⟩ := append_inj' heq (by simp)
          obtain ⟨rfl, -⟩ := List.cons.inj hlast
          refine ⟨(htop e (by simp)).1, fun _ => ⟨front, slot, top, rfl, hslot, hidle, ?_⟩⟩
          intro e' he'
          exact htop e' (by simp [he'])

end Grab

/-! ## One operation -/

section Passed

theorem passed_append (a b : List Int) : passed (a ++ b) = passed a ++ passed b := by
  simp [passed]

theorem passed_cons_free (a : List Int) : passed (9999 :: a) = passed a := by
  simp [passed]

theorem passed_of_nonpos {a : List Int} (h : ∀ e ∈ a, e ≤ 0) : passed a = a.map Int.natAbs := by
  have hfilter : a.filter (· ≠ 9999) = a := by
    apply filter_eq_self.mpr
    intro e he
    have hle := h e he
    simp
    omega
  rw [passed, hfilter]

theorem passed_neg {a : List Int} (h : ∀ e ∈ a, 0 ≤ e) :
    passed (a.map (· * -1)) = a.map Int.natAbs := by
  rw [passed_of_nonpos, map_map]
  · apply map_congr_left
    intro e _
    simp
  · intro e he
    obtain ⟨e', he', rfl⟩ := mem_map.mp he
    have hle := h e' he'
    omega

end Passed

section Step

variable {q : SlotQueueMapped} {below above front top negs rest back : List Int} {slot e : Int}
  {s : Nat}

theorem Split.nodup (h : Split q below above) :
    (below.map Int.natAbs ++ (passed above ++ q.granted)).Nodup :=
  h.slots.nodup_iff.mpr nodup_range

theorem Split.notMem_granted (h : Split q below above) (he : e ∈ below) :
    e.natAbs ∉ q.granted := by
  intro hmem
  have hdisjoint := (nodup_append.mp h.nodup).2.2
  exact hdisjoint e.natAbs (mem_map_of_mem he) e.natAbs (by simp [hmem]) rfl

theorem Split.lt_of_granted (h : Split q below above) (hs : s ∈ q.granted) : s < q.count :=
  mem_range.mp (h.slots.mem_iff.mp (by simp [hs]))

theorem Split.nodup_granted (h : Split q below above) : q.granted.Nodup :=
  (nodup_append.mp (nodup_append.mp h.nodup).2.1).2.1

theorem Split.mem_below (h : Split q below above) (hs : s < q.count)
    (hidle : q.publicMap.bitTest s = false) (hin : s ∉ q.granted) : (s : Int) ∈ below := by
  have hmem := h.slots.mem_iff.mpr (mem_range.mpr hs)
  simp only [mem_append, hin, or_false, passed] at hmem
  rcases hmem with hmem | hmem
  · obtain ⟨e, he, rfl⟩ := mem_map.mp hmem
    have hnn : ¬ e < 0 := by
      intro hneg
      rw [h.busyBelow e he hneg] at hidle
      cases hidle
    rwa [Int.natAbs_of_nonneg (by omega)]
  · obtain ⟨e, he, rfl⟩ := mem_map.mp hmem
    obtain ⟨hmem, hne⟩ := mem_filter.mp he
    rcases h.busyAbove e hmem with rfl | ⟨-, hbusy⟩
    · simp at hne
    · rw [hbusy] at hidle
      cases hidle

theorem Split.grab (h : Split q (front ++ slot :: top) above) (hslot : 0 ≤ slot)
    (hidle : q.publicMap.bitTest slot.toNat = false)
    (htop : ∀ e ∈ top, 0 ≤ e ∧ q.publicMap.bitTest e.toNat = true) :
    Split (q.afterGrab front slot top above) front (9999 :: (top.map (· * -1) ++ above)) where
  arena := rfl
  index := rfl
  length := by
    have hlength := h.length
    rw [h.arena] at hlength
    simpa [afterGrab] using hlength
  busyBelow e he hneg := h.busyBelow e (by simp [he]) hneg
  busyAbove e he := by
    rcases mem_cons.mp he with rfl | he
    · exact .inl rfl
    · rcases mem_append.mp he with he | he
      · obtain ⟨e', he', rfl⟩ := mem_map.mp he
        obtain ⟨hnn, hbusy⟩ := htop e' he'
        refine .inr ⟨by omega, ?_⟩
        have habs : (e' * -1).natAbs = e'.toNat := by omega
        rw [habs]
        exact hbusy
      · exact h.busyAbove e he
  slots := by
    refine List.Perm.trans ?_ h.slots
    have htoNat : slot.toNat = slot.natAbs := by omega
    rw [passed_cons_free, passed_append, passed_neg fun e he => (htop e he).1]
    apply perm_iff_count.mpr
    intro s
    simp only [afterGrab, htoNat, map_append, map_cons, count_append,
      count_cons, count_nil]
    omega
  publicMap := h.publicMap
  privateMap := h.privateMap.bitSet _
  granted s := by
    simp [afterGrab, h.privateMap.bitTest_bitSet, h.granted, or_comm]
  idle s hs := by
    rcases mem_append.mp hs with hs | hs
    · exact h.idle s hs
    · rw [mem_singleton.mp hs]
      exact hidle

/-- The queue after a slot came back to its place behind the entries `negs`. -/
def afterFree (q : SlotQueueMapped) (below negs : List Int) (slot : Int) (rest : List Int) :
    SlotQueueMapped :=
  { q with
    arena := below ++ negs ++ slot :: rest
    index := (below ++ negs).length + 1
    privateMap := q.privateMap.bitClear slot.toNat
    granted := q.granted.erase slot.toNat }

theorem Split.free (h : Split q below (negs ++ 9999 :: rest)) (hslot : 0 ≤ slot)
    (hin : slot.toNat ∈ q.granted) (hnegs : ∀ e ∈ negs, e < 0) :
    Split (q.afterFree below negs slot rest) (below ++ negs ++ [slot]) rest where
  arena := by simp [afterFree]
  index := by
    simp [afterFree]
    omega
  length := by
    have hlength := h.length
    rw [h.arena] at hlength
    simp only [afterFree, length_append, length_cons] at hlength ⊢
    omega
  busyBelow e he hneg := by
    rw [mem_append, mem_append, mem_singleton] at he
    rcases he with (he | he) | rfl
    · exact h.busyBelow e he hneg
    · rcases h.busyAbove e (by simp [he]) with rfl | ⟨-, hbusy⟩
      · exact absurd hneg (by decide)
      · exact hbusy
    · omega
  busyAbove e he := h.busyAbove e (by simp [he])
  slots := by
    refine List.Perm.trans ?_ h.slots
    have htoNat : slot.toNat = slot.natAbs := by omega
    have herase := perm_cons_erase hin
    rw [passed_append, passed_cons_free, passed_of_nonpos fun e he => Int.le_of_lt (hnegs e he)]
    apply perm_iff_count.mpr
    intro s
    have hcount := herase.count_eq s
    simp only [afterFree, htoNat, map_append, map_cons, map_nil, count_append,
      count_cons, count_nil] at hcount ⊢
    omega
  publicMap := h.publicMap
  privateMap := h.privateMap.bitClear _
  granted s := by
    simp [afterFree, h.privateMap.bitTest_bitClear, h.granted, h.nodup_granted.mem_erase_iff]
  idle s hs := h.idle s (mem_of_mem_erase hs)

/-- The queue after a slot below the index was set free. -/
def afterSetFree (q : SlotQueueMapped) (front : List Int) (slot : Int) (back above : List Int) :
    SlotQueueMapped :=
  { q with
    arena := front ++ slot :: (back ++ above)
    publicMap := q.publicMap.bitClear slot.toNat }

theorem Split.setFree (h : Split q (front ++ slot * -1 :: back) above) (hslot : 0 ≤ slot) :
    Split (q.afterSetFree front slot back above) (front ++ slot :: back) above := by
  have habs : (slot * -1).natAbs = slot.toNat := by omega
  have hnodup := h.nodup
  simp only [map_append, map_cons, habs, append_assoc, cons_append] at hnodup
  have hother := nodup_middle.mp hnodup
  have hnew : slot.toNat ∉ front.map Int.natAbs ++ (back.map Int.natAbs ++
      (passed above ++ q.granted)) := (nodup_cons.mp hother).1
  simp only [mem_append, not_or, passed] at hnew
  obtain ⟨hfront, hback, hpassed, hin⟩ := hnew
  have hstays : ∀ e : Int, e.natAbs ≠ slot.toNat → q.publicMap.bitTest e.natAbs = true →
      (q.publicMap.bitClear slot.toNat).bitTest e.natAbs = true := by
    intro e hne hbusy
    simp [h.publicMap.bitTest_bitClear, hne, hbusy]
  refine
    { arena := by simp [afterSetFree], index := by simpa [afterSetFree] using h.index, length := ?_
      busyBelow := ?_, busyAbove := ?_, slots := ?_, publicMap := h.publicMap.bitClear _
      privateMap := h.privateMap, granted := h.granted, idle := ?_ }
  · have hlength := h.length
    rw [h.arena] at hlength
    simpa [afterSetFree] using hlength
  · intro e he hneg
    rw [mem_append, mem_cons] at he
    rcases he with he | rfl | he
    · apply hstays e
      · exact fun heq => hfront (heq ▸ mem_map_of_mem he)
      · exact h.busyBelow e (by simp [he]) hneg
    · omega
    · apply hstays e
      · exact fun heq => hback (heq ▸ mem_map_of_mem he)
      · exact h.busyBelow e (by simp [he]) hneg
  · intro e he
    rcases h.busyAbove e he with rfl | ⟨hle, hbusy⟩
    · exact .inl rfl
    · refine .inr ⟨hle, hstays e ?_ hbusy⟩
      intro heq
      apply hpassed
      rw [← heq]
      exact mem_map_of_mem (mem_filter.mpr ⟨he, by simp; omega⟩)
  · have hslots := h.slots
    have htoNat : slot.toNat = slot.natAbs := by omega
    simp only [map_append, map_cons, habs, htoNat] at hslots ⊢
    exact hslots
  · intro s hs
    simp [afterSetFree, h.publicMap.bitTest_bitClear, h.idle s hs]

theorem Split.setBusy (h : Split q below above) (hin : s ∉ q.granted) :
    Split { q with publicMap := q.publicMap.bitSet s } below above where
  arena := h.arena
  index := h.index
  length := h.length
  busyBelow e he hneg := by
    simp [h.publicMap.bitTest_bitSet, h.busyBelow e he hneg]
  busyAbove e he := by
    rcases h.busyAbove e he with heq | ⟨hle, hbusy⟩
    · exact .inl heq
    · exact .inr ⟨hle, by simp [h.publicMap.bitTest_bitSet, hbusy]⟩
  slots := h.slots
  publicMap := h.publicMap.bitSet _
  privateMap := h.privateMap
  granted := h.granted
  idle t ht := by
    have hne : t ≠ s := fun heq => hin (heq ▸ ht)
    simp [h.publicMap.bitTest_bitSet, hne, h.idle t ht]

theorem Split.mem_above (h : Split q below above) (hin : q.granted ≠ []) :
    (9999 : Int) ∈ above := by
  by_contra hnone
  have hall : above.filter (· ≠ 9999) = above := by
    apply filter_eq_self.mpr
    intro e he
    have hne : e ≠ 9999 := fun heq => hnone (heq ▸ he)
    simpa using hne
  have hcount := h.slots.length_eq
  have hlength := h.length
  rw [h.arena] at hlength
  simp only [passed, hall, length_append, length_map, length_range] at hcount
  rw [length_append] at hlength
  have hpos := length_pos_iff.mpr hin
  omega

theorem Split.place (h : Split q below above) (hin : q.granted ≠ [])
    (hzero : (above.dropWhile (· < 0)).head? ≠ some 0) :
    ∃ negs rest, above = negs ++ 9999 :: rest ∧ ∀ e ∈ negs, e < 0 := by
  have hsplit := takeWhile_append_dropWhile (p := fun e : Int => decide (e < 0)) (l := above)
  have hnegs : ∀ e ∈ above.takeWhile (· < 0), e < 0 := by
    intro e he
    simpa using mem_takeWhile_imp he
  cases hdrop : above.dropWhile (· < 0) with
  | nil =>
      have hmem := h.mem_above hin
      rw [← hsplit, hdrop, append_nil] at hmem
      exact absurd (hnegs _ hmem) (by decide)
  | cons e rest =>
      have hnn : ¬ e < 0 := by
        have hne : above.dropWhile (· < 0) ≠ [] := by
          rw [hdrop]
          exact cons_ne_nil _ _
        have hhead := head_dropWhile_not (fun e : Int => decide (e < 0)) hne
        simpa [hdrop] using hhead
      rw [hdrop] at hsplit hzero
      have hne : e ≠ 0 := by simpa using hzero
      rcases h.busyAbove e (by rw [← hsplit]; simp) with rfl | ⟨hle, -⟩
      · exact ⟨_, rest, hsplit.symm, hnegs⟩
      · omega

section Ends

variable {E : Fault → SlotQueueMapped → Prop}

theorem grab_ends {Q : Int → SlotQueueMapped → Prop} (h : Split q (front ++ slot :: top) above)
    (hslot : 0 ≤ slot) (hidle : q.publicMap.bitTest slot.toNat = false)
    (htop : ∀ e ∈ top, 0 ≤ e ∧ q.publicMap.bitTest e.toNat = true) :
    Ends grab q Q E ↔ Q slot (q.afterGrab front slot top above) := by
  have hindex : q.index = front.length + 1 + top.length := by
    have hsplit := h.index
    simp only [length_append, length_cons] at hsplit
    omega
  have harena : q.arena = front ++ slot :: (top ++ above) := by
    simpa using h.arena
  have hlength := h.length
  rw [harena] at hlength
  simp only [length_append, length_cons] at hlength
  have hin : slot.toNat ∉ q.granted := by
    have hnot := h.notMem_granted (e := slot) (by simp)
    rwa [show slot.toNat = slot.natAbs by omega]
  have hprivate : q.privateMap.bitTest slot.toNat = false := by
    simpa using mt (h.granted slot.toNat).mp hin
  have hpos : ¬ q.index ≤ 0 := by omega
  simp only [SlotQueueMapped.grab, ends_bind, ends_get, if_neg hpos]
  exact grabLoop_ends harena hindex hslot htop hidle hprivate (by omega) 0

theorem walkUp_ends {Q : PUnit → SlotQueueMapped → Prop}
    (harena : q.arena = front ++ negs ++ e :: rest) (hindex : q.index = front.length)
    (hnegs : ∀ e ∈ negs, e < 0) (he : ¬ e < 0) {n : Nat} (hn : negs.length < n) :
    Ends (walkUp n) q Q E ↔ Q ⟨⟩ { q with index := (front ++ negs).length } := by
  obtain ⟨n, rfl⟩ := Nat.exists_eq_succ_of_ne_zero (Nat.ne_of_gt (Nat.zero_lt_of_lt hn))
  induction negs generalizing front n q with
  | nil =>
      simp only [walkUp, ends_bind, ends_get]
      refine (ends_arenaGet (by simpa using harena) hindex).trans ?_
      rw [if_neg he, ends_pure, append_nil, ← hindex]
  | cons e' negs ih =>
      obtain ⟨he', hnegs⟩ := forall_mem_cons.mp hnegs
      rw [length_cons] at hn
      obtain ⟨n, rfl⟩ := Nat.exists_eq_succ_of_ne_zero (Nat.ne_of_gt (Nat.zero_lt_of_lt
        (Nat.lt_of_succ_lt_succ hn)))
      have hrest := @ih { q with index := q.index + 1 } (front ++ [e']) (by simpa using harena)
        (by simp [hindex]) hnegs n (by omega)
      rw [walkUp]
      simp only [ends_bind, ends_get]
      refine (ends_arenaGet (by simpa using harena) hindex).trans ?_
      rw [if_pos he']
      simp only [ends_bind, ends_modify]
      refine hrest.trans ?_
      simp

theorem free_ends {Q : PUnit → SlotQueueMapped → Prop}
    (h : Split q below (negs ++ 9999 :: rest)) (hslot : 0 ≤ slot)
    (hin : slot.toNat ∈ q.granted) (hnegs : ∀ e ∈ negs, e < 0) :
    Ends (free slot) q Q E ↔ Q ⟨⟩ (q.afterFree below negs slot rest) := by
  have harena : q.arena = below ++ negs ++ 9999 :: rest := by simpa using h.arena
  have hlength := h.length
  rw [harena] at hlength
  simp only [length_append, length_cons] at hlength
  simp only [SlotQueueMapped.free, ends_bind]
  refine (ends_publicTest hslot).trans ?_
  simp only [h.idle _ hin, Bool.false_eq_true, if_false, ends_bind, ends_get]
  refine (walkUp_ends harena h.index hnegs (by decide) (by omega)).trans ?_
  refine (ends_arenaSet (by exact harena) rfl slot).trans ?_
  simp only [ends_modify]
  refine (ends_privateTest hslot).trans ?_
  simp only [(h.granted _).mpr hin, ends_assertThat]
  simp only [forall_const, Bool.true_eq_false, false_implies, and_true]
  rfl

theorem search_ends {Q : Int → SlotQueueMapped → Prop}
    (harena : q.arena = front ++ top ++ slot * -1 :: back) (hfirst : slot * -1 ∉ top) {n : Nat}
    (hn : top.length < n) :
    Ends (search slot n front.length) q Q E ↔ Q (front ++ top).length q := by
  obtain ⟨n, rfl⟩ := Nat.exists_eq_succ_of_ne_zero (Nat.ne_of_gt (Nat.zero_lt_of_lt hn))
  induction top generalizing front n with
  | nil =>
      rw [append_nil] at harena ⊢
      simp only [search, ends_bind]
      refine (ends_arenaGet harena rfl).trans ?_
      rw [if_pos rfl, ends_pure]
  | cons e top ih =>
      obtain ⟨hne, hfirst⟩ := not_or.mp (mt mem_cons.mpr hfirst)
      rw [length_cons] at hn
      obtain ⟨n, rfl⟩ := Nat.exists_eq_succ_of_ne_zero (Nat.ne_of_gt (Nat.zero_lt_of_lt
        (Nat.lt_of_succ_lt_succ hn)))
      have hrest := @ih (front ++ [e]) (by simpa using harena) hfirst n (by omega)
      rw [search]
      simp only [ends_bind]
      refine (ends_arenaGet (by simpa using harena) rfl).trans ?_
      rw [if_neg hne]
      simpa using hrest

theorem setFree_ends {Q : Int → SlotQueueMapped → Prop}
    (h : Split q (front ++ slot * -1 :: back) above) (hslot : 0 ≤ slot)
    (hbusy : q.publicMap.bitTest slot.toNat = true) :
    Ends (setFree slot) q Q E ↔ Q 1 (q.afterSetFree front slot back above) := by
  have harena : q.arena = [] ++ front ++ slot * -1 :: (back ++ above) := by simpa using h.arena
  have hlength := h.length
  rw [harena] at hlength
  simp only [length_append, length_cons, length_nil] at hlength
  have hfirst : slot * -1 ∉ front := by
    intro hmem
    have hnodup := (nodup_append.mp h.nodup).1
    rw [map_append, nodup_append] at hnodup
    exact hnodup.2.2 _ (mem_map_of_mem hmem) _ (by simp) rfl
  have hle : (front.length : Int) ≤ q.index := by
    rw [h.index, length_append]
    omega
  have hnn : (0 : Int) ≤ front.length := by omega
  simp only [SlotQueueMapped.setFree, ends_bind]
  refine (ends_publicTest hslot).trans ?_
  simp only [hbusy, Bool.not_true, Bool.false_eq_true, if_false, ends_bind, ends_modify, ends_get]
  have hcount : front.length < q.count + 1 := by omega
  refine (@search_ends { q with publicMap := q.publicMap.bitClear slot.toNat } [] front _ slot E _
    harena hfirst _ hcount).trans ?_
  rw [nil_append, ends_assertThat]
  simp only [hnn, decide_true, forall_const, Bool.true_eq_false, false_implies, and_true]
  simp only [if_pos hle]
  rw [ends_bind]
  exact ends_arenaSet (q := { q with publicMap := q.publicMap.bitClear slot.toNat }) harena rfl slot

/-- **One operation** that the queue is good for keeps every slot in one place. -/
theorem handle_ends (op : Op) (q : SlotQueueMapped) (h : ∃ below above, Split q below above)
    (hfits : op.Fits q) :
    Ends (handle op) q (fun _ t => t.count = q.count ∧ ∃ below above, Split t below above)
      fun _ _ => False := by
  obtain ⟨below, above, h⟩ := h
  have htake : q.arena.take q.index.toNat = below := by
    rw [h.arena, h.index, Int.toNat_natCast, take_left]
  have hdrop : q.arena.drop q.index.toNat = above := by
    rw [h.arena, h.index, Int.toNat_natCast, drop_left]
  cases op with
  | grab =>
      rw [handle, ends_bind]
      rcases hfits with hempty | hreaches
      · rw [grab, ends_bind, ends_get, if_pos hempty]
        exact ⟨rfl, below, above, h⟩
      · rw [htake] at hreaches
        obtain ⟨front, slot, top, rfl, hslot, hidle, htop⟩ := reaches_iff.mp hreaches
        exact (grab_ends h hslot hidle htop).mpr ⟨rfl, _, _, h.grab hslot hidle htop⟩
  | free slot =>
      obtain ⟨hslot, hin, hzero⟩ := hfits
      rw [hdrop] at hzero
      obtain ⟨negs, rest, rfl, hnegs⟩ := h.place (ne_nil_of_mem hin) hzero
      exact (free_ends h hslot hin hnegs).mpr ⟨rfl, _, _, h.free hslot hin hnegs⟩
  | setBusy slot =>
      have hslot : 0 ≤ slot := hfits
      simp only [handle, setBusy, ends_bind]
      refine (ends_publicTest hslot).mpr ?_
      split
      · exact ⟨rfl, below, above, h⟩
      · simp only [ends_bind]
        refine (ends_privateTest hslot).mpr ?_
        split
        · exact ⟨rfl, below, above, h⟩
        · rename_i hprivate
          exact ⟨rfl, below, above, h.setBusy (mt (h.granted _).mpr hprivate)⟩
  | setFree slot =>
      obtain ⟨hslot, hfound⟩ := hfits
      rw [htake] at hfound
      by_cases hbusy : q.publicMap.bitTest slot.toNat = true
      · obtain ⟨front, back, rfl⟩ := append_of_mem (hfound hbusy)
        rw [handle, ends_bind]
        exact (setFree_ends h hslot hbusy).mpr ⟨rfl, _, _, h.setFree hslot⟩
      · rw [Bool.not_eq_true] at hbusy
        simp only [handle, setFree, ends_bind]
        refine (ends_publicTest hslot).mpr ?_
        simp only [hbusy, Bool.not_false, if_true, ends_pure]
        exact ⟨trivial, below, above, h⟩

end Ends

/-! ## No slot is lost -/

theorem Grantable.step {q' : SlotQueueMapped} {op : Op} (hgrant : Grantable q' s)
    (hfits : op.Fits q) (hends : Ends (handle op) q (fun _ t => t = q') fun _ _ => False) :
    Grantable q s := by
  obtain ⟨ops, t, hmeets, hrun, hin⟩ := hgrant
  have hstep := step_live hends
  refine ⟨op :: ops, t, ⟨fun _ => hfits, ?_⟩, ?_, hin⟩
  · rw [hstep]
    exact hmeets
  · rw [run_cons, hstep]
    exact hrun

theorem reaches_of_mem {busy : DynBitMap} {slots : List Int} (hslots : ∀ e ∈ slots, 0 ≤ e)
    (he : e ∈ slots) (hidle : busy.bitTest e.toNat = false) : Reaches busy slots := by
  induction slots with
  | nil => exact absurd he (not_mem_nil)
  | cons slot rest ih =>
      obtain ⟨hslot, hrest⟩ := forall_mem_cons.mp hslots
      refine ⟨hslot, fun hbusy => ?_⟩
      rcases mem_cons.mp he with rfl | he
      · exact absurd (hidle.symm.trans hbusy) Bool.false_ne_true
      · exact ih hrest he

theorem grantable_of_grabs (h : Split q below above) (hbelow : ∀ e ∈ below, 0 ≤ e)
    (hs : (s : Int) ∈ below) (hidle : q.publicMap.bitTest s = false) : Grantable q s := by
  induction hlen : below.length using Nat.strong_induction_on generalizing q below above with
  | _ n ih =>
      have hreaches : Reaches q.publicMap below.reverse :=
        reaches_of_mem (fun e he => hbelow e (mem_reverse.mp he)) (mem_reverse.mpr hs)
          hidle
      obtain ⟨front, slot, top, rfl, hslot, hfree, htop⟩ := reaches_iff.mp hreaches
      have hfits : Op.grab.Fits q := by
        refine .inr ?_
        rw [h.arena, h.index, Int.toNat_natCast, take_left]
        exact hreaches
      have hsplit := h.grab hslot hfree htop
      have hends : Ends (handle .grab) q (fun _ t => t = q.afterGrab front slot top above)
          fun _ _ => False := by
        rw [handle, ends_bind]
        exact (grab_ends h hslot hfree htop).mpr rfl
      refine Grantable.step ?_ hfits hends
      rw [mem_append, mem_cons] at hs
      rcases hs with hs | hs | hs
      · refine ih front.length ?_ hsplit (fun e he => hbelow e (by simp [he])) hs hidle rfl
        rw [← hlen]
        simp
      · exact ⟨[], _, trivial, rfl, by simp [afterGrab, ← hs]⟩
      · have hbusy := (htop s hs).2
        rw [Int.toNat_natCast] at hbusy
        exact absurd (hidle.symm.trans hbusy) Bool.false_ne_true

theorem grantable_of_below (h : Split q below above) (hs : (s : Int) ∈ below)
    (hidle : q.publicMap.bitTest s = false) : Grantable q s := by
  induction hnegs : (below.countP (· < 0)) generalizing q below with
  | zero =>
      refine grantable_of_grabs h (fun e he => ?_) hs hidle
      have hnn := countP_eq_zero.mp hnegs e he
      simpa using hnn
  | succ n ih =>
      have hpos : 0 < below.countP (· < 0) := by omega
      obtain ⟨e, he, hneg⟩ := countP_pos_iff.mp hpos
      rw [decide_eq_true_eq] at hneg
      obtain ⟨front, back, rfl⟩ := append_of_mem he
      have hback : e = -e * -1 := by omega
      have hslot : 0 ≤ -e := by omega
      have hbusy : q.publicMap.bitTest (-e).toNat = true := by
        rw [show (-e).toNat = e.natAbs by omega]
        exact h.busyBelow e he hneg
      rw [hback] at h
      have hsplit := h.setFree hslot
      have hfits : (Op.setFree (-e)).Fits q := by
        refine ⟨hslot, fun _ => ?_⟩
        rw [h.arena, h.index, Int.toNat_natCast, take_left]
        simp
      have hends : Ends (handle (.setFree (-e))) q
          (fun _ t => t = q.afterSetFree front (-e) back above) fun _ _ => False := by
        rw [handle, ends_bind]
        exact (setFree_ends h hslot hbusy).mpr rfl
      refine Grantable.step ?_ hfits hends
      refine ih hsplit ?_ ?_ ?_
      · rw [mem_append, mem_cons] at hs ⊢
        rcases hs with hs | hs | hs
        · exact .inl hs
        · omega
        · exact .inr (.inr hs)
      · simp [afterSetFree, h.publicMap.bitTest_bitClear, hidle]
      · simp only [countP_append, countP_cons, hneg, decide_true, if_true] at hnegs ⊢
        have hnn : ¬ -e < 0 := by omega
        simp only [hnn, decide_false, Bool.false_eq_true, if_false]
        omega

theorem Split.sound (h : Split q below above) : Sound q where
  once := h.nodup_granted
  idle s hs := ⟨h.lt_of_granted hs, h.idle s hs⟩
  kept _ hs hidle hin := grantable_of_below h (h.mem_below hs hidle hin) hidle

end Step

/-! ## Runs -/

/-- **Slots over whole runs.**  Along a run of operations that the queue is good for, every index
is in bounds and no assertion fails; no slot is out twice and none that is busy, and each slot
that is neither busy nor out can still be had. -/
theorem run_sound (before : Int) (slotCount : Nat) (ops : List Op)
    (hfits : Meets handle (fun q op => op.Fits q) (.live (mappedInit before slotCount)) ops) :
    Holds (fun q => q.count = slotCount ∧ Sound q) (fun _ _ => False)
      (run handle (.live (mappedInit before slotCount)) ops) := by
  have hstep : ∀ op q, (q.count = slotCount ∧ ∃ below above, Split q below above) → op.Fits q →
      Ends (handle op) q (fun _ t => t.count = slotCount ∧ ∃ below above, Split t below above)
        fun _ _ => False := by
    rintro op q ⟨hcount, hsplit⟩ hfits
    rw [← hcount]
    exact handle_ends op q hsplit hfits
  have hrun := invariant_run_of hstep (c := .live (mappedInit before slotCount))
    ⟨rfl, _, _, split_mappedInit before slotCount⟩ ops hfits
  apply hrun.mono
  · rintro q ⟨hcount, below, above, hsplit⟩
    exact ⟨hcount, hsplit.sound⟩
  · intro f q hf
    exact hf

/-- A busy slot is passed, the walk of a free goes over it, and it is set free in time. -/
theorem run_sound_of_passed :
    Holds (fun q => q.count = 3 ∧ Sound q) (fun _ _ => False)
      (run handle (.live (mappedInit 0 3))
        [.setBusy 1, .grab, .grab, .free 2, .free 0, .setFree 1, .grab]) :=
  run_sound 0 3 [.setBusy 1, .grab, .grab, .free 2, .free 0, .setFree 1, .grab] (by decide)

/-- A busy slot whose turn did not come yet is set free: the search runs behind the array. -/
theorem setFree_reads_behind_the_array :
    ¬ Holds (fun q => q.count = 3 ∧ Sound q) (fun _ _ => False)
      (run handle (.live (mappedInit 0 3)) [.setBusy 1, .setFree 1]) := by
  intro h
  exact h

end SlotQueueMapped

end BrbData
