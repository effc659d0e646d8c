import Mathlib.Data.List.Nodup
import Mathlib.Logic.Function.Basic
import BrbFramework.Data.StringArrayExplode

/-!
# Removing duplicates

`StringArrayUnique` deletes at its position until one copy of the string there is left.
After the first deletion it is no longer that string which is at the position, so others go
with it, and the one that is there in the end is passed over.
-/

namespace BrbData

namespace StringArrayUnique

open CStr List Function

/-- An entry of the two tables: where the string lies and how long it is. -/
structure Line where
  place : Nat
  sz : Nat
  deriving DecidableEq, Repr

/-- The tables of an array and the strings that lie in its buffer. -/
structure Lines where
  lines : List Line
  text : Nat → CStr

/-- `StringArrayHasLine`. -/
def Lines.hasLine (s : Lines) (data : CStr) : Nat :=
  s.lines.countP fun l =>
    decide (data.strlen = l.sz) && strncmpEq (s.text l.place) data data.strlen

/-- `StringArrayDeleteByPos`, which clears the string only if it is the last one. -/
def Lines.deleteByPos (s : Lines) (pos : Nat) : Lines :=
  if s.lines.length < pos then s
  else if s.lines.length = pos + 1 then
    match s.lines[pos]? with
    | some l => { lines := s.lines.dropLast, text := Function.update s.text l.place [] }
    | none => s
  else
    match s.lines[pos]?, s.lines[pos + 1]? with
    | some _, some _ => { s with lines := s.lines.eraseIdx pos }
    | _, _ => s

/-- The inner loop of `StringArrayUnique`, for the string that lies at `place`. -/
def uniqueWhile (pos place : Nat) : Nat → Lines → Nat → Int → Option (Lines × Nat × Int)
  | 0, _, _, _ => none
  | fuel + 1, s, deletedLines, size =>
    if 1 < s.hasLine (s.text place) then
      uniqueWhile pos place fuel (s.deleteByPos pos) (deletedLines + 1) (size - 1)
    else some (s, deletedLines, size)

/-- The loop over the positions, which fails where `fuel` is used up. -/
def uniqueLoop : Nat → Nat → Int → Lines → Nat → Option (Lines × Nat)
  | 0, _, _, _, _ => none
  | fuel + 1, pos, size, s, deletedLines =>
    if (pos : Int) < size then
      match s.lines[pos]? with
      | some l => do
        let (s, deletedLines, size) ← uniqueWhile pos l.place fuel s deletedLines size
        uniqueLoop fuel (pos + 1) size s deletedLines
      | none => uniqueLoop fuel (pos + 1) size s deletedLines
    else some (s, deletedLines)

/-- The array of the strings, one behind the other. -/
def linesOf (strs : List CStr) : Lines where
  lines := strs.mapIdx fun i x => ⟨i, x.length⟩
  text i := strs.getD i []

/-- `StringArrayUnique`. -/
def unique (fuel : Nat) (strs : List CStr) : Option (Lines × Nat) :=
  uniqueLoop fuel 0 strs.length (linesOf strs) 0

def Lines.content (s : Lines) : List CStr := s.lines.map fun l => s.text l.place

/-- The pass ends, each string is there once, and what is returned is the number of those that
went. -/
def Unique (strs : List CStr) : Prop :=
  ∃ fuel s deletedLines, unique fuel strs = some (s, deletedLines) ∧ s.content.Nodup ∧
    (∀ x, x ∈ s.content ↔ x ∈ strs) ∧ deletedLines + s.content.length = strs.length

/-- The pass over `S` behind the strings `K` goes right: where it deletes down to the last copy
of a string `x`, all that is deleted is still in front or behind, and what moves up is not in
front already. -/
inductive Fits : List CStr → List CStr → Prop
  | done {K : List CStr} : Fits K []
  | keep {K S : List CStr} {x : CStr} : x ∉ K → x ∉ S → Fits (K ++ [x]) S → Fits K (x :: S)
  | clear {K D : List CStr} {x : CStr} : D.head? = some x → D.getLast? = some x →
      (∀ z ∈ D, z ∈ K) → Fits K D
  | move {K D R : List CStr} {x y : CStr} : D.head? = some x → D.getLast? = some x →
      (K ++ y :: R).count x = 1 → (∀ z ∈ D, z ∈ K ++ y :: R) → y ∉ K → Fits (K ++ [y]) R →
      Fits K (D ++ y :: R)

/-! ## The pass over the strings -/

/-- What the pass over `S` behind `K` leaves. -/
inductive Pass : List CStr → List CStr → List CStr → Prop
  | done {K : List CStr} : Pass K [] K
  | keep {K S T : List CStr} {x : CStr} : (K ++ x :: S).count x ≤ 1 → Pass (K ++ [x]) S T →
      Pass K (x :: S) T
  | clear {K D : List CStr} {x : CStr} : D.head? = some x → D.getLast? = some x → K.count x = 1 →
      D ≠ [x] → Pass K D K
  | last {K : List CStr} {x : CStr} : x ∈ K → K.count [] ≤ 1 → Pass K [x] K
  | move {K D R T : List CStr} {x y : CStr} : D.head? = some x → D.getLast? = some x →
      (K ++ y :: R).count x = 1 → Pass (K ++ [y]) R T → Pass K (D ++ y :: R) T

theorem Pass.sublist {K S T : List CStr} (h : Pass K S T) : ∃ T', T = K ++ T' ∧ T'.Sublist S := by
  induction h with
  | done => exact ⟨[], by simp, List.Sublist.refl []⟩
  | @keep K S T x _ _ ih =>
    obtain ⟨T', rfl, hsub⟩ := ih
    exact ⟨x :: T', by simp, hsub.cons_cons x⟩
  | clear => exact ⟨[], by simp, nil_sublist _⟩
  | last => exact ⟨[], by simp, nil_sublist _⟩
  | @move K D R T x y _ _ _ _ ih =>
    obtain ⟨T', rfl, hsub⟩ := ih
    exact ⟨y :: T', by simp, (hsub.cons_cons y).trans (sublist_append_right D (y :: R))⟩

theorem Fits.pass {K S : List CStr} (h : Fits K S) : K.Nodup →
    ∃ T, Pass K S T ∧ T.Nodup ∧ ∀ z, z ∈ T ↔ z ∈ K ++ S := by
  induction h with
  | @done K =>
    intro hK
    exact ⟨K, .done, hK, by simp⟩
  | @keep K S x hxK hxS _ ih =>
    intro hK
    have hnext : (K ++ [x]).Nodup :=
      hK.append (nodup_singleton x) (disjoint_singleton.mpr hxK)
    obtain ⟨T, hpass, hT, hmem⟩ := ih hnext
    have hcount : (K ++ x :: S).count x ≤ 1 := by
      rw [count_append, count_cons_self, count_eq_zero.mpr hxK,
        count_eq_zero.mpr hxS]
    exact ⟨T, .keep hcount hpass, hT, by simpa using hmem⟩
  | @clear K D x hhead hlast hin =>
    intro hK
    have hx : x ∈ K := hin x (mem_of_getLast? hlast)
    have hsame : ∀ z, z ∈ K ↔ z ∈ K ++ D := by
      intro z
      have hback := hin z
      rw [mem_append]
      tauto
    by_cases hone : D = [x]
    · rw [hone] at hsame ⊢
      exact ⟨K, .last hx (nodup_iff_count_le_one.mp hK []), hK, hsame⟩
    · exact ⟨K, .clear hhead hlast (count_eq_one_of_mem hK hx) hone, hK, hsame⟩
  | @move K D R x y hhead hlast hcount hin hy _ ih =>
    intro hK
    have hnext : (K ++ [y]).Nodup :=
      hK.append (nodup_singleton y) (disjoint_singleton.mpr hy)
    obtain ⟨T, hpass, hT, hmem⟩ := ih hnext
    refine ⟨T, .move hhead hlast hcount hpass, hT, ?_⟩
    intro z
    have hback := hin z
    simp only [hmem, mem_append, mem_cons, not_mem_nil] at hback ⊢
    tauto

theorem Pass.fits {K S T : List CStr} (h : Pass K S T) : T.Nodup → (∀ z ∈ K ++ S, z ∈ T) →
    Fits K S := by
  induction h with
  | done =>
    intro _ _
    exact .done
  | @keep K S T x hcount _ ih =>
    intro hT hall
    rw [count_append, count_cons_self] at hcount
    have hxK : x ∉ K := count_eq_zero.mp (by omega)
    have hxS : x ∉ S := count_eq_zero.mp (by omega)
    exact .keep hxK hxS (ih hT (by simpa using hall))
  | clear hhead hlast _ _ =>
    intro _ hall
    exact .clear hhead hlast fun z hz => hall z (mem_append_right _ hz)
  | last _ _ =>
    intro _ hall
    exact .clear rfl rfl fun z hz => hall z (mem_append_right _ hz)
  | @move K D R T x y hhead hlast hcount hpass ih =>
    intro hT hall
    obtain ⟨T', rfl, hsub⟩ := hpass.sublist
    have hy : y ∉ K := by
      intro hmem
      have hfirst := (nodup_append.mp hT).1
      exact (nodup_append.mp hfirst).2.2 y hmem y (mem_singleton.mpr rfl) rfl
    have hin : ∀ z ∈ D, z ∈ K ++ y :: R := by
      intro z hz
      have hmem := hall z (by simp [hz])
      rw [append_assoc, mem_append] at hmem
      rcases hmem with hmem | hmem
      · exact mem_append_left _ hmem
      · rcases mem_append.mp hmem with hmem | hmem
        · rw [mem_singleton.mp hmem]
          simp
        · simp [hsub.subset hmem]
    refine .move hhead hlast hcount hin hy (ih hT ?_)
    intro z hz
    apply hall
    simp only [mem_append, mem_cons, not_mem_nil, or_false] at hz ⊢
    tauto

/-! ## The tables hold the strings -/

/-- The tables stand for the strings `l`: each string has a place of its own. -/
structure Holds (s : Lines) (l : List CStr) : Prop where
  content : s.content = l
  sized : ∀ li ∈ s.lines, li.sz = (s.text li.place).length
  apart : (s.lines.map Line.place).Nodup
  ended : ∀ x ∈ l, 0 ∉ x

theorem hasLine_eq {s : Lines} {l : List CStr} (h : Holds s l) {data : CStr} (hdata : 0 ∉ data) :
    s.hasLine data = l.count data := by
  rw [← h.content, Lines.content, List.count, countP_map, Lines.hasLine]
  apply countP_congr
  intro li hli
  have hsz := h.sized li hli
  have hend : 0 ∉ s.text li.place :=
    h.ended _ (h.content ▸ mem_map_of_mem hli)
  rw [Bool.and_eq_true, decide_eq_true_iff, strlen_eq hdata, hsz, comp_apply,
    beq_iff_eq]
  constructor
  · rintro ⟨hlen, heq⟩
    rw [hlen, strncmpEq_iff hend] at heq
    exact heq.eq_of_length hlen.symm
  · intro heq
    rw [heq]
    exact ⟨rfl, (strncmpEq_iff hdata data).mpr prefix_rfl⟩

theorem delete_holds {s : Lines} {K R : List CStr} {x : CStr} (h : Holds s (K ++ x :: R)) :
    ∃ li, s.lines[K.length]? = some li ∧ s.text li.place = x ∧
      Holds (s.deleteByPos K.length) (K ++ R) ∧
      li.place ∉ (s.deleteByPos K.length).lines.map Line.place ∧
      (∀ p ∈ (s.deleteByPos K.length).lines.map Line.place, p ∈ s.lines.map Line.place) ∧
      (∀ p, p ≠ li.place → (s.deleteByPos K.length).text p = s.text p) ∧
      (s.deleteByPos K.length).text li.place = if R = [] then [] else x := by
  obtain ⟨A, C, hlines, rfl, hC⟩ := map_eq_append_iff.mp h.content
  obtain ⟨li, B, rfl, rfl, rfl⟩ := map_eq_cons_iff.mp hC
  have hapart := h.apart
  have hget : s.lines[A.length]? = some li := by simp [hlines]
  have herase : s.lines.eraseIdx A.length = A ++ B := by
    simp [hlines, eraseIdx_append_of_length_le]
  have hfresh : li.place ∉ (A ++ B).map Line.place := by
    rw [hlines, map_append, map_cons, nodup_middle, ← map_append] at hapart
    exact (nodup_cons.mp hapart).1
  have hsub : (A ++ B).Sublist s.lines := herase ▸ eraseIdx_sublist s.lines A.length
  -- with the text unchanged where the others lie, the rest stands for what is left
  have hrest : ∀ text, (∀ p, p ≠ li.place → text p = s.text p) →
      Holds ⟨A ++ B, text⟩ (A.map (fun l => s.text l.place) ++ B.map fun l => s.text l.place) := by
    intro text htext
    have hsame : ∀ l ∈ A ++ B, text l.place = s.text l.place := by
      intro l hl
      apply htext
      intro heq
      exact hfresh (heq ▸ mem_map_of_mem hl)
    refine ⟨?_, ?_, hapart.sublist (hsub.map _), ?_⟩
    · rw [Lines.content, ← map_append]
      exact map_congr_left hsame
    · intro l hl
      exact (h.sized l (hsub.subset hl)).trans (congrArg List.length (hsame l hl).symm)
    · intro z hz
      apply h.ended
      simp only [mem_append, mem_cons] at hz ⊢
      tauto
  rw [length_map]
  cases B with
  | nil =>
    have hdel : s.deleteByPos A.length =
        { lines := A ++ [], text := update s.text li.place [] } := by
      simp only [Lines.deleteByPos, hget]
      rw [if_neg (by simp [hlines]), if_pos (by simp [hlines])]
      simp [hlines]
    rw [hdel]
    have hoff : ∀ p, p ≠ li.place → update s.text li.place [] p = s.text p := by
      intro p hp
      exact update_of_ne hp _ _
    exact ⟨li, hget, rfl, hrest _ hoff, hfresh, (hsub.map _).subset, hoff, by simp⟩
  | cons next B =>
    have hdel : s.deleteByPos A.length = { s with lines := A ++ next :: B } := by
      simp only [Lines.deleteByPos, hlines, length_append, length_cons]
      rw [if_neg (by omega), if_neg (by omega), ← hlines, hget, herase]
      simp [hlines]
    rw [hdel]
    exact ⟨li, hget, rfl, hrest _ fun _ _ => rfl, hfresh, (hsub.map _).subset, fun _ _ => rfl,
      by simp⟩

/-! ## One position -/

theorem count_delete {K R : List CStr} {x z : CStr} :
    (K ++ z :: R).count x = (K ++ R).count x + if z = x then 1 else 0 := by
  simp only [count_append, count_cons, beq_iff_eq]
  omega

/-- The string that is counted is no longer in the tables: the loop takes strings from `S` until
it has taken a copy of it and one is left. -/
theorem while_sound {K : List CStr} {p : Nat} {x : CStr} (hx : 0 ∉ x) {fuel : Nat} :
    ∀ {s s' : Lines} {S : List CStr} {del del' : Nat} {size size' : Int}, Holds s (K ++ S) →
      p ∉ s.lines.map Line.place → s.text p = x →
      uniqueWhile K.length p fuel s del size = some (s', del', size') →
      ∃ D R, S = D ++ R ∧ Holds s' (K ++ R) ∧ del' = del + D.length ∧
        size' = size - D.length ∧ (K ++ R).count x ≤ 1 ∧
        (D ≠ [] → D.getLast? = some x ∧ (K ++ R).count x = 1) := by
  induction fuel with
  | zero =>
    intro s s' S del del' size size' _ _ _ hrun
    simp [uniqueWhile] at hrun
  | succ fuel ih =>
    intro s s' S del del' size size' hs hp htext hrun
    rw [uniqueWhile, htext, hasLine_eq hs hx] at hrun
    by_cases hmore : 1 < (K ++ S).count x
    · rw [if_pos hmore] at hrun
      cases S with
      | nil =>
        -- at the end nothing is deleted, and the loop goes on
        have hsame : s.deleteByPos K.length = s := by
          have hlen : s.lines.length = K.length := by
            simpa [Lines.content] using congrArg List.length hs.content
          simp [Lines.deleteByPos, hlen]
        rw [hsame] at hrun
        obtain ⟨D, R, hsplit, _, _, _, hle, _⟩ := ih hs hp htext hrun
        obtain ⟨rfl, rfl⟩ := append_eq_nil_iff.mp hsplit.symm
        omega
      | cons z S =>
        obtain ⟨li, hli, _, hnext, _, hplaces, hoff, _⟩ := delete_holds hs
        have hne : p ≠ li.place := by
          intro heq
          exact hp (heq ▸ mem_map_of_mem (mem_of_getElem? hli))
        have hp' : p ∉ (s.deleteByPos K.length).lines.map Line.place := fun hmem =>
          hp (hplaces p hmem)
        obtain ⟨D, R, rfl, hs', hdel, hsize, hle, hlast⟩ :=
          ih hnext hp' ((hoff p hne).trans htext) hrun
        rw [count_delete] at hmore
        refine ⟨z :: D, R, rfl, hs', ?_, ?_, hle, ?_⟩
        · rw [hdel, length_cons]
          omega
        · rw [hsize, length_cons]
          push_cast
          omega
        · intro _
          by_cases hD : D = []
          · subst hD
            rw [nil_append] at hmore
            have hz : z = x := by
              by_contra hz
              rw [if_neg hz] at hmore
              omega
            rw [if_pos hz] at hmore
            exact ⟨congrArg some hz, by omega⟩
          · rw [getLast?_cons, (hlast hD).1]
            exact ⟨rfl, (hlast hD).2⟩
    · rw [if_neg hmore] at hrun
      obtain ⟨rfl, rfl, rfl⟩ : s = s' ∧ del = del' ∧ size = size' := by simpa using hrun
      exact ⟨[], S, rfl, hs, rfl, by simp, by omega, fun h => absurd rfl h⟩

theorem while_complete {K R : List CStr} {p : Nat} {x : CStr} (hx : 0 ∉ x)
    (hle : (K ++ R).count x ≤ 1) {D : List CStr} : ∀ {fuel : Nat} {s : Lines} {del : Nat}
      {size : Int}, (D ≠ [] → D.getLast? = some x ∧ (K ++ R).count x = 1) → D.length < fuel →
      Holds s (K ++ (D ++ R)) → p ∉ s.lines.map Line.place → s.text p = x →
      ∃ s', uniqueWhile K.length p fuel s del size =
          some (s', del + D.length, size - D.length) ∧ Holds s' (K ++ R) := by
  induction D with
  | nil =>
    intro fuel s del size _ hfuel hs _ htext
    obtain ⟨fuel, rfl⟩ := Nat.exists_eq_succ_of_ne_zero (Nat.ne_of_gt hfuel)
    rw [nil_append] at hs
    refine ⟨s, ?_, hs⟩
    rw [uniqueWhile, htext, hasLine_eq hs hx, if_neg (by omega)]
    simp
  | cons z D ih =>
    intro fuel s del size hD hfuel hs hp htext
    obtain ⟨fuel, rfl⟩ := Nat.exists_eq_succ_of_ne_zero (Nat.ne_of_gt (Nat.zero_lt_of_lt hfuel))
    obtain ⟨hlast, hone⟩ := hD (cons_ne_nil z D)
    have hmore : 1 < (K ++ (z :: D ++ R)).count x := by
      have hmem : 0 < (z :: D).count x := count_pos_iff.mpr (mem_of_getLast? hlast)
      rw [count_append] at hone ⊢
      rw [count_append]
      omega
    rw [cons_append] at hs hmore
    obtain ⟨li, hli, _, hnext, _, hplaces, hoff, _⟩ := delete_holds hs
    have hne : p ≠ li.place := by
      intro heq
      exact hp (heq ▸ mem_map_of_mem (mem_of_getElem? hli))
    have hp' : p ∉ (s.deleteByPos K.length).lines.map Line.place := fun hmem => hp (hplaces p hmem)
    have hD' : D ≠ [] → D.getLast? = some x ∧ (K ++ R).count x = 1 := by
      intro hne
      rw [getLast?_cons_of_ne_nil hne] at hlast
      exact ⟨hlast, hone⟩
    obtain ⟨s', hrun, hs'⟩ := @ih fuel _ (del + 1) (size - 1) hD' (Nat.lt_of_succ_lt_succ hfuel)
      hnext hp' ((hoff p hne).trans htext)
    refine ⟨s', ?_, hs'⟩
    rw [uniqueWhile, htext, hasLine_eq hs hx, if_pos hmore, hrun, length_cons]
    congr 3
    · omega
    · push_cast
      omega

/-- What the inner loop leaves of `x :: S`, whose first string is counted. -/
inductive Removes (K : List CStr) (x : CStr) (S : List CStr) : List CStr → List CStr → Prop
  | none : (K ++ x :: S).count x ≤ 1 → Removes K x S [] (x :: S)
  | some {D R : List CStr} : x :: S = D ++ R → D.head? = some x → D.getLast? = some x →
      (K ++ R).count x = 1 → S ≠ [] → Removes K x S D R
  | last : S = [] → x ∈ K → K.count [] ≤ 1 → Removes K x S [x] []

theorem Removes.split {K S D R : List CStr} {x : CStr} (h : Removes K x S D R) :
    x :: S = D ++ R := by
  cases h with
  | none => rfl
  | some h => exact h
  | last h => rw [h]; rfl

theorem while_at {K S : List CStr} {x : CStr} {s : Lines} (hs : Holds s (K ++ x :: S)) :
    ∃ li, s.lines[K.length]? = some li ∧ ∀ (fuel : Nat) (del : Nat) (size : Int),
      (∀ {s' : Lines} {del' : Nat} {size' : Int},
        uniqueWhile K.length li.place fuel s del size = some (s', del', size') →
        ∃ D R, Removes K x S D R ∧ Holds s' (K ++ R) ∧ del' = del + D.length ∧
          size' = size - D.length) ∧
      (∀ {D R : List CStr}, Removes K x S D R → D.length < fuel →
        ∃ s', uniqueWhile K.length li.place fuel s del size =
          some (s', del + D.length, size - D.length) ∧ Holds s' (K ++ R)) := by
  obtain ⟨li, hli, htext, hnext, hgone, _, _, hafter⟩ := delete_holds hs
  have hx : 0 ∉ x := hs.ended x (by simp)
  refine ⟨li, hli, fun fuel del size => ⟨?_, ?_⟩⟩
  · intro s' del' size' hrun
    cases fuel with
    | zero => simp [uniqueWhile] at hrun
    | succ fuel =>
      rw [uniqueWhile, htext, hasLine_eq hs hx] at hrun
      by_cases hmore : 1 < (K ++ x :: S).count x
      · rw [if_pos hmore] at hrun
        rw [count_delete, if_pos rfl] at hmore
        by_cases hS : S = []
        · -- the string was the last one, which is cleared: the empty one is counted from now on
          rw [if_pos (by exact hS)] at hafter
          obtain ⟨D, R, hsplit, hs', hdel, hsize, hle, _⟩ :=
            while_sound not_mem_nil hnext hgone hafter hrun
          rw [hS] at hsplit hmore
          obtain ⟨rfl, rfl⟩ := append_eq_nil_iff.mp hsplit.symm
          rw [append_nil] at hle hmore
          have hmem : x ∈ K := count_pos_iff.mp (by omega)
          exact ⟨[x], [], .last hS hmem hle, hs', hdel, by simpa using hsize⟩
        · rw [if_neg (by exact hS)] at hafter
          obtain ⟨D, R, rfl, hs', hdel, hsize, hle, hlast⟩ :=
            while_sound hx hnext hgone hafter hrun
          refine ⟨x :: D, R, .some rfl rfl ?_ ?_ hS, hs', ?_, ?_⟩
          · by_cases hD : D = []
            · rw [hD]
              rfl
            · rw [getLast?_cons, (hlast hD).1]
              rfl
          · by_cases hD : D = []
            · rw [hD, nil_append] at hmore
              omega
            · exact (hlast hD).2
          · rw [hdel, length_cons]
            omega
          · rw [hsize, length_cons]
            push_cast
            omega
      · rw [if_neg hmore] at hrun
        obtain ⟨rfl, rfl, rfl⟩ : s = s' ∧ del = del' ∧ size = size' := by simpa using hrun
        exact ⟨[], x :: S, .none (by omega), hs, rfl, by simp⟩
  · intro D R hremoves hfuel
    obtain ⟨fuel, rfl⟩ := Nat.exists_eq_succ_of_ne_zero (Nat.ne_of_gt (Nat.zero_lt_of_lt hfuel))
    rw [uniqueWhile, htext, hasLine_eq hs hx]
    cases hremoves with
    | none hle =>
      rw [if_neg (by omega)]
      exact ⟨s, by simp, hs⟩
    | @some D R hsplit hhead hlast hone hS =>
      obtain ⟨D, rfl⟩ : ∃ D', D = x :: D' := head?_eq_some_iff.mp hhead
      obtain rfl : S = D ++ R := (List.cons.inj hsplit).2
      have hmore : 1 < (K ++ x :: (D ++ R)).count x := by
        rw [count_append] at hone
        rw [count_delete, if_pos rfl, count_append, count_append]
        omega
      rw [if_neg (by exact hS)] at hafter
      have hD : D ≠ [] → D.getLast? = some x ∧ (K ++ R).count x = 1 := by
        intro hne
        rw [getLast?_cons_of_ne_nil hne] at hlast
        exact ⟨hlast, hone⟩
      obtain ⟨s', hrun, hs'⟩ := @while_complete K R li.place x hx (by omega) D fuel
        (s.deleteByPos K.length) (del + 1) (size - 1) hD (Nat.lt_of_succ_lt_succ hfuel) hnext hgone
        hafter
      refine ⟨s', ?_, hs'⟩
      rw [if_pos hmore, hrun, length_cons]
      congr 3
      · omega
      · push_cast
        omega
    | last hS hmem hle =>
      subst hS
      have hmore : 1 < (K ++ [x]).count x := by
        have hpos := count_pos_iff.mpr hmem
        rw [count_delete, if_pos rfl, append_nil]
        omega
      rw [if_pos rfl] at hafter
      have hnil : ([] : List CStr) ≠ [] → ([] : List CStr).getLast? = some ([] : CStr) ∧
          (K ++ []).count ([] : CStr) = 1 := fun h => absurd rfl h
      obtain ⟨s', hrun, hs'⟩ := @while_complete K [] li.place [] not_mem_nil
        (by rwa [append_nil]) [] fuel (s.deleteByPos K.length) (del + 1) (size - 1) hnil
        (Nat.lt_of_succ_lt_succ hfuel) hnext hgone hafter
      exact ⟨s', by rw [if_pos hmore, hrun]; simp, hs'⟩

/-! ## All positions -/

theorem loop_sound {fuel : Nat} : ∀ {K S : List CStr} {s s' : Lines} {del del' : Nat},
    Holds s (K ++ S) →
      uniqueLoop fuel K.length ((K.length : Int) + S.length) s del = some (s', del') →
      ∃ T, Pass K S T ∧ Holds s' T ∧ del' + T.length = del + (K ++ S).length := by
  induction fuel with
  | zero =>
    intro K S s s' del del' _ hrun
    simp [uniqueLoop] at hrun
  | succ fuel ih =>
    intro K S s s' del del' hs hrun
    rw [uniqueLoop] at hrun
    cases S with
    | nil =>
      rw [if_neg (by simp)] at hrun
      obtain ⟨rfl, rfl⟩ : s = s' ∧ del = del' := by simpa using hrun
      exact ⟨K, .done, by simpa using hs, by simp⟩
    | cons x S =>
      obtain ⟨li, hli, hwhile⟩ := while_at hs
      rw [if_pos (by rw [length_cons]; push_cast; omega), hli] at hrun
      obtain ⟨⟨s₁, del₁, size₁⟩, hrun₁, hrun₂⟩ := Option.bind_eq_some_iff.mp hrun
      obtain ⟨D, R, hremoves, hs₁, rfl, rfl⟩ := (hwhile _ _ _).1 hrun₁
      have hsplit := hremoves.split
      have hlen : (x :: S).length = D.length + R.length := by rw [hsplit, length_append]
      have hsize : (K.length : Int) + (x :: S).length - D.length = K.length + R.length := by
        rw [hlen]
        push_cast
        omega
      change uniqueLoop fuel (K.length + 1) _ s₁ _ = _ at hrun₂
      rw [hsize] at hrun₂
      cases R with
      | nil =>
        cases fuel with
        | zero => simp [uniqueLoop] at hrun₂
        | succ fuel =>
          rw [uniqueLoop, if_neg (by rw [length_nil]; push_cast; omega)] at hrun₂
          obtain ⟨rfl, rfl⟩ : s₁ = s' ∧ del + D.length = del' := by simpa using hrun₂
          rw [append_nil] at hs₁
          refine ⟨K, ?_, hs₁, by rw [length_append, hlen, length_nil]; omega⟩
          cases hremoves with
          | some _ hhead hlast hone hS =>
            rw [hsplit, append_nil]
            refine .clear hhead hlast (by rwa [append_nil] at hone) ?_
            intro hD
            rw [hD, append_nil] at hsplit
            exact hS (List.cons.inj hsplit).2
          | last hS hmem hle => exact hS ▸ .last hmem hle
      | cons y R =>
        have hassoc : K ++ y :: R = K ++ [y] ++ R := by simp
        have hlen' : ((K.length : Int) + (y :: R).length) = (K ++ [y]).length + R.length := by
          simp only [length_cons, length_append, length_nil]
          push_cast
          omega
        have hpos : K.length + 1 = (K ++ [y]).length := by simp
        rw [hlen', hpos] at hrun₂
        obtain ⟨T, hpass, hs', hdel⟩ := ih (hassoc ▸ hs₁) hrun₂
        refine ⟨T, ?_, hs', ?_⟩
        · cases hremoves with
          | none hle => exact .keep hle hpass
          | some _ hhead hlast hone _ => exact hsplit ▸ .move hhead hlast hone hpass
        · rw [← hassoc] at hdel
          rw [hdel, length_append, length_append, hlen]
          omega

/-- From the position `pos` on the loop ends and leaves `T`, where `K` and `R` are there and the
fuel is above `low`. -/
def Leaves (pos low : Nat) (K R T : List CStr) : Prop :=
  ∀ (fuel : Nat) (s : Lines) (del : Nat), low < fuel → Holds s (K ++ R) → ∃ s' del',
    uniqueLoop fuel pos ((K.length : Int) + R.length) s del = some (s', del') ∧ Holds s' T

theorem leaves_step {K S D R T : List CStr} {x : CStr} (hremoves : Removes K x S D R)
    (hnext : Leaves (K.length + 1) R.length K R T) :
    Leaves K.length ((x :: S).length + 1) K (x :: S) T := by
  intro fuel s del hfuel hs
  obtain ⟨fuel, rfl⟩ := Nat.exists_eq_succ_of_ne_zero (Nat.ne_of_gt (Nat.zero_lt_of_lt hfuel))
  have hlen : (x :: S).length = D.length + R.length := by
    rw [hremoves.split, length_append]
  obtain ⟨li, hli, hwhile⟩ := while_at hs
  obtain ⟨s₁, hrun₁, hs₁⟩ := (hwhile fuel del ((K.length : Int) + (x :: S).length)).2 hremoves
    (by omega)
  have hsize : (K.length : Int) + (x :: S).length - D.length = K.length + R.length := by
    rw [hlen]
    push_cast
    omega
  obtain ⟨s', del', hrun, hs'⟩ := hnext fuel s₁ (del + D.length) (by omega) hs₁
  refine ⟨s', del', ?_, hs'⟩
  rw [uniqueLoop, if_pos (by rw [length_cons]; push_cast; omega), hli]
  exact Option.bind_eq_some_iff.mpr ⟨_, hrun₁, by rw [hsize]; exact hrun⟩

theorem leaves_end (K : List CStr) : Leaves (K.length + 1) 0 K [] K := by
  intro fuel s del hfuel hs
  obtain ⟨fuel, rfl⟩ := Nat.exists_eq_succ_of_ne_zero (Nat.ne_of_gt hfuel)
  refine ⟨s, del, ?_, by rwa [append_nil] at hs⟩
  rw [uniqueLoop, if_neg (by rw [length_nil]; push_cast; omega)]

theorem leaves_next {K R T : List CStr} {y : CStr}
    (h : Leaves (K ++ [y]).length (R.length + 1) (K ++ [y]) R T) :
    Leaves (K.length + 1) (y :: R).length K (y :: R) T := by
  intro fuel s del hfuel hs
  have hsize : ((K ++ [y]).length : Int) + R.length = K.length + (y :: R).length := by
    simp only [length_cons, length_append, length_nil]
    push_cast
    omega
  have hs' : Holds s (K ++ [y] ++ R) := by simpa using hs
  have hrun := h fuel s del hfuel hs'
  rw [hsize, length_append] at hrun
  exact hrun

theorem Pass.leaves {K S T : List CStr} (h : Pass K S T) :
    Leaves K.length (S.length + 1) K S T := by
  induction h with
  | @done K =>
    intro fuel s del hfuel hs
    obtain ⟨fuel, rfl⟩ := Nat.exists_eq_succ_of_ne_zero (Nat.ne_of_gt (Nat.zero_lt_of_lt hfuel))
    refine ⟨s, del, ?_, by rwa [append_nil] at hs⟩
    rw [uniqueLoop, if_neg (by simp)]
  | @keep K S T x hle _ ih => exact leaves_step (.none hle) (leaves_next ih)
  | @clear K D x hhead hlast hone hD =>
    obtain ⟨D, rfl⟩ := head?_eq_some_iff.mp hhead
    have hne : D ≠ [] := by
      intro hnil
      exact hD (by rw [hnil])
    have hsplit : x :: D = x :: D ++ [] := (append_nil _).symm
    exact leaves_step (.some hsplit hhead hlast (by rwa [append_nil]) hne) (leaves_end K)
  | @last K x hmem hle => exact leaves_step (.last rfl hmem hle) (leaves_end K)
  | @move K D R T x y hhead hlast hone _ ih =>
    obtain ⟨D, rfl⟩ := head?_eq_some_iff.mp hhead
    have hne : D ++ y :: R ≠ [] := append_ne_nil_of_right_ne_nil D (cons_ne_nil y R)
    exact leaves_step (.some rfl hhead hlast hone hne) (leaves_next ih)

theorem holds_linesOf {strs : List CStr} (h : ∀ x ∈ strs, 0 ∉ x) : Holds (linesOf strs) strs := by
  have hplaces : (linesOf strs).lines.map Line.place = List.range strs.length := by
    apply ext_getElem <;> simp [linesOf]
  have hcontent : (linesOf strs).content = strs := by
    apply ext_getElem
    · simp [Lines.content, linesOf]
    · intro i h₁ h₂
      simp [Lines.content, linesOf, getD_eq_getElem?_getD, getElem?_eq_getElem h₂]
  refine ⟨hcontent, ?_, hplaces ▸ nodup_range, h⟩
  intro li hli
  obtain ⟨i, hi, rfl⟩ := mem_mapIdx.mp hli
  simp [linesOf, getD_eq_getElem?_getD, getElem?_eq_getElem hi]

theorem Unique.fits {strs : List CStr} (h : ∀ x ∈ strs, 0 ∉ x) (hunique : Unique strs) :
    Fits [] strs := by
  obtain ⟨fuel, s, deletedLines, hrun, hnodup, hmem, _⟩ := hunique
  obtain ⟨T, hpass, hs, _⟩ := @loop_sound fuel [] strs _ _ _ _ (holds_linesOf h)
    (by simpa [unique] using hrun)
  rw [hs.content] at hnodup hmem
  exact hpass.fits hnodup fun z hz => (hmem z).mpr hz

/-- Whether each string is there once in the end: exactly where, each time that one is deleted
down to its last copy, the last that goes is a copy of it, all that goes is still elsewhere, and
what moves up is not in front already. -/
theorem unique_iff (strs : List CStr) (h : ∀ x ∈ strs, 0 ∉ x) : Unique strs ↔ Fits [] strs := by
  constructor
  · exact Unique.fits h
  · intro hfits
    obtain ⟨T, hpass, hnodup, hmem⟩ := hfits.pass nodup_nil
    obtain ⟨s, deletedLines, hrun, hs⟩ :=
      hpass.leaves (strs.length + 2) (linesOf strs) 0 (by omega) (holds_linesOf h)
    obtain ⟨T', _, hs', hdel⟩ := @loop_sound _ [] strs _ _ _ _ (holds_linesOf h) hrun
    refine ⟨strs.length + 2, s, deletedLines, by simpa [unique] using hrun, ?_, ?_, ?_⟩
    · rwa [hs.content]
    · rw [hs.content]
      exact hmem
    · rw [hs'.content, hdel]
      simp

/-- Two copies of one string, one behind the other, become one. -/
theorem unique_iff_twice : Unique [[97], [97], [98]] := by
  apply (unique_iff [[97], [97], [98]] (by simp)).mpr
  have hrest : Fits [[97]] [[98]] := .keep (by decide) (by decide) .done
  exact @Fits.move [] [[97]] [[98]] [97] [97] rfl rfl (by decide) (by decide) (by decide) hrest

/-- The second string is lost: the first is there three times, and the position at which it was
found is deleted until one copy is left. -/
theorem not_unique_between : ¬ Unique [[97], [98], [97], [97]] := by
  have hno : ∀ K S, K = [] → S = [[97], [98], [97], [97]] → ¬ Fits K S := by
    intro K S hK hS hfits
    subst hK
    cases hfits with
    | done => simp at hS
    | keep _ hxS _ =>
      obtain ⟨rfl, rfl⟩ := List.cons.inj hS
      simp at hxS
    | clear _ _ hin =>
      subst hS
      simpa using hin [97]
    | @move _ D R x y hhead hlast hcount hin _ _ =>
      have hback := hin [98]
      rcases D with _ | ⟨d₁, _ | ⟨d₂, D⟩⟩
      · simp at hhead
      · obtain ⟨rfl, rfl, rfl⟩ : d₁ = [97] ∧ y = [98] ∧ R = [[97], [97]] := by simpa using hS
        obtain rfl : x = [97] := by simpa using hhead.symm
        simp at hcount
      · -- the second string is among those that go, and only copies of the first are behind
        obtain ⟨rfl, rfl, hrest⟩ : d₁ = [97] ∧ d₂ = [98] ∧ D ++ y :: R = [[97], [97]] := by
          simpa using hS
        have hmem := hback (by simp)
        rw [nil_append] at hmem
        have hin' : [98] ∈ D ++ y :: R := mem_append_right D hmem
        rw [hrest] at hin'
        simp at hin'
  intro hunique
  exact hno [] _ rfl rfl (hunique.fits (by simp))

end StringArrayUnique

end BrbData
