import Mathlib.Order.Bounds.Basic
import Mathlib.Data.Finset.Max

/-!
# Scans that keep an incumbent

A scan walks over candidates and keeps one of them, the incumbent, until another
displaces it. If staying is transitive, the scan ends with the first candidate
that stays against all behind it, whatever the relation is otherwise: it need not
be an order, and the result need not be a least candidate.
-/

namespace Incumbent

open List

variable {α : Type} (displaces : α → α → Bool)

/-- A candidate meets the incumbent, if there is one. -/
def challenge (best : Option α) (x : α) : Option α :=
  match best with
  | none => some x
  | some b => if displaces x b then some x else some b

/-- The incumbent at the end of the scan. -/
def scan (l : List α) : Option α := l.foldl (challenge displaces) none

/-- The first candidate that no later one displaces. -/
def settled : List α → Option α
  | [] => none
  | x :: l => if l.all fun y => !displaces y x then some x else settled l

/-- What stays against one that stays, stays against the same candidates. -/
def StaysTrans : Prop :=
  ∀ b x y, displaces x b = false → displaces y x = false → displaces y b = false

variable {displaces}

/-- A scan from an incumbent on. -/
theorem foldl_challenge (htrans : StaysTrans displaces) (b : α) (l : List α) :
    l.foldl (challenge displaces) (some b) =
      if l.all fun y => !displaces y b then some b else settled displaces l := by
  induction l generalizing b with
  | nil => rfl
  | cons x l ih =>
      rw [foldl_cons, all_cons]
      cases hx : displaces x b with
      | true =>
          have hstep : challenge displaces (some b) x = some x := if_pos hx
          rw [hstep, ih, Bool.not_true, Bool.false_and, if_neg Bool.false_ne_true, settled]
      | false =>
          have hstep : challenge displaces (some b) x = some b := by
            rw [challenge, hx, if_neg Bool.false_ne_true]
          rw [hstep, ih, Bool.not_false, Bool.true_and]
          split
          · rfl
          · rename_i hlater
            -- nor does the challenger stay, or the incumbent would
            rw [settled, if_neg]
            intro hall
            apply hlater
            rw [all_eq_true] at hall ⊢
            intro y hy
            have hyx := hall y hy
            rw [Bool.not_eq_true'] at hyx ⊢
            exact htrans b x y hx hyx

theorem scan_eq_settled (htrans : StaysTrans displaces) (l : List α) :
    scan displaces l = settled displaces l := by
  cases l with
  | nil => rfl
  | cons x l => exact foldl_challenge htrans x l

/-- Only a scan of nothing ends without an incumbent. -/
theorem settled_eq_none {l : List α} : settled displaces l = none ↔ l = [] := by
  constructor
  · intro h
    induction l with
    | nil => rfl
    | cons x l ih =>
        rw [settled] at h
        split at h
        · cases h
        · rename_i hlater
          rw [ih h] at hlater
          exact absurd rfl hlater
  · rintro rfl
    rfl

theorem scan_eq_none (htrans : StaysTrans displaces) {l : List α} :
    scan displaces l = none ↔ l = [] := by
  rw [scan_eq_settled htrans, settled_eq_none]

/-! ## Candidates in order -/

variable [LinearOrder α]

variable (displaces) in
/-- The candidate stays against all behind it. -/
def Stands (l : List α) (x : α) : Prop := x ∈ l ∧ ∀ y ∈ l, x < y → displaces y x = false

/-- What stands behind the first candidate. -/
theorem stands_cons {x z : α} {l : List α} (hz : x < z) :
    Stands displaces (x :: l) z ↔ Stands displaces l z := by
  unfold Stands
  rw [mem_cons, or_iff_right hz.ne']
  constructor
  · intro h
    exact ⟨h.1, fun y hy => h.2 y (mem_cons_of_mem x hy)⟩
  · intro h
    refine ⟨h.1, fun y hy hzy => ?_⟩
    rcases mem_cons.mp hy with rfl | hy
    · exact absurd hzy hz.not_gt
    · exact h.2 y hy hzy

theorem isLeast_settled {l : List α} (hl : l.Pairwise (· < ·)) {r : α}
    (h : settled displaces l = some r) : IsLeast {x | Stands displaces l x} r := by
  induction l with
  | nil => cases h
  | cons x l ih =>
      obtain ⟨hx, hrest⟩ := pairwise_cons.mp hl
      rw [settled] at h
      split at h
      · rename_i hall
        obtain rfl := Option.some.inj h
        rw [all_eq_true] at hall
        refine ⟨⟨mem_cons_self, fun y hy hlt => ?_⟩, fun z hz => ?_⟩
        · rcases mem_cons.mp hy with rfl | hy
          · exact absurd hlt (lt_irrefl y)
          · exact Bool.not_eq_true' _ ▸ hall y hy
        · rcases mem_cons.mp hz.1 with rfl | hz
          · exact le_rfl
          · exact (hx z hz).le
      · rename_i hnot
        obtain ⟨hstands, hleast⟩ := ih hrest h
        refine ⟨(stands_cons (hx r hstands.1)).mpr hstands, fun z hz => ?_⟩
        rcases mem_cons.mp hz.1 with rfl | hzl
        · refine absurd ?_ hnot
          rw [all_eq_true]
          intro y hy
          rw [Bool.not_eq_true']
          exact hz.2 y (mem_cons_of_mem z hy) (hx y hy)
        · exact hleast ((stands_cons (hx z hzl)).mp hz)

/-- **The scan** ends with the first candidate that stands. -/
theorem scan_isLeast (htrans : StaysTrans displaces) {l : List α} (hl : l.Pairwise (· < ·)) {r : α}
    (h : scan displaces l = some r) : IsLeast {x | Stands displaces l x} r :=
  isLeast_settled hl (scan_eq_settled htrans l ▸ h)

/-- It stays against every other that stands. -/
theorem stays_of_isLeast {l : List α} {r e : α} (h : IsLeast {x | Stands displaces l x} r)
    (he : Stands displaces l e) : r = e ∨ displaces e r = false := by
  rcases (h.2 he).eq_or_lt with heq | hlt
  · exact Or.inl heq
  · exact Or.inr (h.1.2 e he.1 hlt)

/-- Where a smaller key displaces a larger one, the scan ends with a least key. -/
theorem scan_key_le {β : Type} [LinearOrder β] {key : α → β} {l : List α}
    (hl : l.Pairwise (· < ·)) {r : α} (h : scan (fun x b => key x < key b) l = some r) {y : α}
    (hy : y ∈ l) : key r ≤ key y := by
  have htrans : StaysTrans fun x b => decide (key x < key b) := by
    intro b x y hx hy
    rw [decide_eq_false_iff_not, not_lt] at hx hy ⊢
    exact hx.trans hy
  obtain ⟨e, he, hmin⟩ :=
    Finset.exists_min_image l.toFinset key ⟨y, mem_toFinset.mpr hy⟩
  have hkey (z : α) (hz : z ∈ l) : key e ≤ key z := hmin z (mem_toFinset.mpr hz)
  have hstands : Stands (fun x b => decide (key x < key b)) l e := by
    refine ⟨mem_toFinset.mp he, fun z hz _ => ?_⟩
    rw [decide_eq_false_iff_not, not_lt]
    exact hkey z hz
  rcases stays_of_isLeast (scan_isLeast htrans hl h) hstands with rfl | hstays
  · exact hkey y hy
  · rw [decide_eq_false_iff_not, not_lt] at hstays
    exact hstays.trans (hkey y hy)

end Incumbent
