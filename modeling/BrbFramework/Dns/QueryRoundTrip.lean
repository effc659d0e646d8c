import BrbFramework.Dns.Rfc1035

/-!
# Queries

A query that the resolver packs is read back by its own readers: the header, the name of its
question, and the skipping of the question in front of the answers. `strtok` drops empty labels,
and a label that is too long is cut.
-/

namespace Rfc1035

open List

/-- The labels of a name as they are packed. -/
def labelsOf (name : List UInt8) : List (List UInt8) :=
  ((name.splitOn 46).filter (· ≠ [])).map (·.take maxLabelSz)

/-- The name that they are. -/
def nameOf (name : List UInt8) : List UInt8 := [46].intercalate (labelsOf name)

/-- The labels, each behind its size. -/
def packed (ls : List (List UInt8)) : List UInt8 := ls.flatMap fun l => .ofNat l.length :: l

/-- What the labels of a name take of a buffer of `ns` octets, with their dots. -/
def dotted (ls : List (List UInt8)) : List UInt8 := ls.flatMap (· ++ [46])

/-- The octets are in the buffer from `off` on. -/
def Lies (buf : Nat → UInt8) : Nat → List UInt8 → Prop
  | _, [] => True
  | off, b :: bytes => buf off = b ∧ Lies buf (off + 1) bytes

section Names

variable {buf : Nat → UInt8} {sz ns : Nat}

theorem lies_append {a b : List UInt8} : ∀ {off : Nat},
    Lies buf off (a ++ b) ↔ Lies buf off a ∧ Lies buf (off + a.length) b := by
  induction a with
  | nil => simp [Lies]
  | cons x a ih =>
    intro off
    rw [cons_append, Lies, ih, Lies, length_cons, and_assoc, Nat.add_right_comm off]
    rfl

theorem lies_getD (bytes : List UInt8) : ∀ front : List UInt8,
    Lies (fun i => (front ++ bytes).getD i 0) front.length bytes := by
  induction bytes with
  | nil =>
    intro front
    trivial
  | cons b bytes ih =>
    intro front
    refine ⟨by simp, ?_⟩
    have hrest := ih (front ++ [b])
    rwa [append_assoc, length_append] at hrest

theorem Lies.octets {a : List UInt8} : ∀ {off : Nat}, Lies buf off a →
    octets buf off a.length = a := by
  induction a with
  | nil =>
    intro off _
    rfl
  | cons x a ih =>
    intro off h
    have hrest := ih h.2
    simp only [Rfc1035.octets, length_cons, range_succ_eq_map, map_cons, map_map] at hrest ⊢
    rw [Nat.add_zero, h.1, cons.injEq]
    refine ⟨rfl, Eq.trans ?_ hrest⟩
    refine map_congr_left fun i _ => ?_
    rw [Function.comp, Nat.succ_eq_add_one, Nat.add_right_comm]
    rfl

theorem namePack_eq (name : List UInt8) : namePack name = packed (labelsOf name) ++ [0] := by
  have hlabel : ∀ l : List UInt8, labelPack l =
      .ofNat (l.take maxLabelSz).length :: l.take maxLabelSz := by
    intro l
    rw [labelPack, length_take, Nat.min_comm]
  simp only [namePack, packed, labelsOf, flatMap_def, map_map]
  congr 2
  exact map_congr_left fun l _ => hlabel l

theorem labelsOf_size {name l : List UInt8} (h : l ∈ labelsOf name) :
    0 < l.length ∧ l.length ≤ maxLabelSz := by
  obtain ⟨whole, hwhole, rfl⟩ := mem_map.mp h
  have hne : whole ≠ [] := by simpa using (mem_filter.mp hwhole).2
  have hpos := length_pos_iff.mpr hne
  rw [length_take]
  exact ⟨Nat.lt_min.mpr ⟨by decide, hpos⟩, Nat.min_le_left _ _⟩

theorem dotted_cons (l : List UInt8) (ls : List (List UInt8)) :
    dotted (l :: ls) = l ++ [46] ++ dotted ls := flatMap_cons

theorem length_le_dotted (ls : List (List UInt8)) : ls.length ≤ (dotted ls).length := by
  induction ls with
  | nil => exact Nat.le_refl 0
  | cons l ls ih =>
    rw [dotted_cons, length_append, length_append, length_cons, length_singleton]
    omega

theorem dropLast_dotted (ls : List (List UInt8)) :
    (dotted ls).dropLast = [46].intercalate ls := by
  induction ls with
  | nil => rfl
  | cons l ls ih =>
    cases ls with
    | nil => simp [dotted, intercalate]
    | cons m ls =>
      have hne : dotted (m :: ls) ≠ [] := by simp [dotted]
      rw [dotted_cons, dropLast_append_of_ne_nil hne, ih]
      simp [intercalate]

theorem length_packed (ls : List (List UInt8)) : (packed ls).length = (dotted ls).length := by
  simp [packed, dotted, length_flatMap]

theorem lies_cons {off : Nat} {l : List UInt8} {ls : List (List UInt8)}
    (hmax : l.length ≤ maxLabelSz) (h : Lies buf off (packed (l :: ls) ++ [0])) :
    (buf off).toNat = l.length ∧ octets buf (off + 1) l.length = l ∧
      Lies buf (off + 1 + l.length) (packed ls ++ [0]) := by
  have hmax' : l.length ≤ 63 := hmax
  rw [packed, flatMap_cons, cons_append, cons_append, append_assoc] at h
  obtain ⟨hsize, hrest⟩ := h
  obtain ⟨hlabel, hothers⟩ := lies_append.mp hrest
  refine ⟨?_, hlabel.octets, hothers⟩
  rw [hsize, UInt8.toNat_ofNat']
  omega

/-- A label is read where it fits the name and something is behind it. -/
theorem labels_packed (ls : List (List UInt8)) : ∀ {fuel off no rd : Nat} {name : List UInt8},
    (∀ l ∈ ls, 0 < l.length ∧ l.length ≤ maxLabelSz) → Lies buf off (packed ls ++ [0]) →
    off + (dotted ls).length + 1 ≤ sz → ls.length < fuel → no + (dotted ls).length < ns →
    labels buf sz ns fuel off no rd name =
      .root (off + (dotted ls).length + 1) (no + (dotted ls).length) (rd + (dotted ls).length)
        (name ++ dotted ls) := by
  induction ls with
  | nil =>
    intro fuel off no rd name _ hlies hsz hfuel hns
    obtain ⟨fuel, rfl⟩ : ∃ k, fuel = k + 1 := ⟨fuel - 1, by omega⟩
    have hzero : buf off = 0 := hlies.1
    simp only [dotted, flatMap_nil, length_nil] at hsz
    rw [labels, hzero, if_neg (by omega)]
    simp [dotted]
  | cons l ls ih =>
    intro fuel off no rd name hls hlies hsz hfuel hns
    obtain ⟨fuel, rfl⟩ : ∃ k, fuel = k + 1 := ⟨fuel - 1, by omega⟩
    obtain ⟨⟨hpos, hmax⟩, hrest⟩ := forall_mem_cons.mp hls
    have hmax' : l.length ≤ 63 := hmax
    obtain ⟨hc, hlabel, hothers⟩ := lies_cons hmax hlies
    have hdotted : (dotted (l :: ls)).length = l.length + 1 + (dotted ls).length := by
      rw [dotted_cons, length_append, length_append, length_singleton]
    have hall : name ++ dotted (l :: ls) = name ++ l ++ [46] ++ dotted ls := by
      rw [dotted_cons, append_assoc, append_assoc, append_assoc]
    rw [length_cons] at hfuel
    rw [hdotted] at hsz hns ⊢
    rw [labels, if_neg (by omega)]
    simp only [hc]
    rw [if_neg (by omega), if_neg (by simp only [maxLabelSz]; omega), if_neg (by omega),
      if_neg (by omega), if_neg (by omega), hlabel, if_pos (by omega),
      ih hrest hothers (by omega) (by omega) (by omega), hall]
    congr 1 <;> omega

theorem skipName_packed (ls : List (List UInt8)) : ∀ {fuel off : Nat},
    (∀ l ∈ ls, 0 < l.length ∧ l.length ≤ maxLabelSz) → Lies buf off (packed ls ++ [0]) →
    ls.length < fuel → skipName buf fuel off = .done (off + (dotted ls).length + 1) := by
  induction ls with
  | nil =>
    intro fuel off _ hlies hfuel
    obtain ⟨fuel, rfl⟩ : ∃ k, fuel = k + 1 := ⟨fuel - 1, by omega⟩
    have hzero : buf off = 0 := hlies.1
    rw [skipName, hzero]
    simp [dotted]
  | cons l ls ih =>
    intro fuel off hls hlies hfuel
    obtain ⟨fuel, rfl⟩ : ∃ k, fuel = k + 1 := ⟨fuel - 1, by omega⟩
    obtain ⟨⟨hpos, hmax⟩, hrest⟩ := forall_mem_cons.mp hls
    have hmax' : l.length ≤ 63 := hmax
    obtain ⟨hc, hlabel, hothers⟩ := lies_cons hmax hlies
    rw [length_cons] at hfuel
    rw [skipName]
    simp only [hc]
    rw [if_neg (by omega), if_neg (by simp only [maxLabelSz]; omega), if_pos hpos,
      ih hrest hothers (by omega)]
    simp [dotted]
    omega

end Names

section Query

variable {buf : Nat → UInt8} {sz type qid : Nat} {hostname : List UInt8}

theorem headerUnpack_query (hqid : qid < 65536) (hsz : 12 ≤ sz)
    (hlies : Lies buf 0 (headerPack { id := qid, rd := 1, qdcount := 1 })) :
    headerUnpack buf sz = some { id := qid, rd := 1, qdcount := 1 } := by
  simp only [headerPack, packShort, Lies, cons_append, nil_append] at hlies
  obtain ⟨h0, h1, h2, h3, h4, h5, h6, h7, h8, h9, h10, h11, -⟩ := hlies
  have hid : short buf 0 = qid := by
    rw [short, h0, h1, UInt8.toNat_ofNat', UInt8.toNat_ofNat']
    omega
  rw [headerUnpack, if_neg (by omega), hid]
  simp only [short, h2, h3, h4, h5, h6, h7, h8, h9, h10, h11]
  rfl

/-- **A query comes back.**  The readers find the header of a query, its name without empty labels
and with the long ones cut, and its type and class behind that; as a reply it has no answers. -/
theorem query_comesBack (hname : (nameOf hostname).length < 255) (hqid : qid < 65536)
    (htype : type < 65536) (hlies : Lies buf 0 (buildQuery type hostname qid))
    (hsz : sz = (buildQuery type hostname qid).length) :
    headerUnpack buf sz = some { id := qid, rd := 1, qdcount := 1 } ∧
      (∃ off rd, nameUnpack buf sz 65 maxHostNameSz 12 = some (nameOf hostname, off, rd) ∧
        short buf off = type ∧ short buf (off + 2) = classIn ∧ off + 4 = sz) ∧
      answersUnpack buf sz = some { replyCount := 0, id := qid } := by
  rw [nameOf, ← dropLast_dotted, length_dropLast] at hname
  have hcount := length_le_dotted (labelsOf hostname)
  have hsizes : ∀ l ∈ labelsOf hostname, 0 < l.length ∧ l.length ≤ maxLabelSz :=
    fun l hl => labelsOf_size hl
  have hlen : sz = 12 + (dotted (labelsOf hostname)).length + 1 + 4 := by
    rw [hsz, length_buildQuery, namePack_eq, length_append, length_packed, length_singleton]
    omega
  rw [buildQuery, questionPack, namePack_eq, append_assoc, lies_append, lies_append] at hlies
  obtain ⟨hheader, hquestion, hfields⟩ := hlies
  have hunpack := headerUnpack_query hqid (by omega : 12 ≤ sz) hheader
  have htwelve : 0 + (headerPack { id := qid, rd := 1, qdcount := 1 }).length = 12 := rfl
  rw [htwelve] at hquestion hfields
  rw [length_append, length_packed, length_singleton, ← Nat.add_assoc] at hfields
  obtain ⟨h0, h1, h2, h3, -⟩ := hfields
  refine ⟨hunpack, ⟨12 + (dotted (labelsOf hostname)).length + 1,
    0 + (dotted (labelsOf hostname)).length, ?_, ?_, ?_, by omega⟩, ?_⟩
  · rw [nameUnpack, labels_packed _ hsizes hquestion (by omega) (by omega)
      (by simp only [maxHostNameSz]; omega)]
    simp only [nil_append, dropLast_dotted]
    rfl
  · rw [short, h0, h1, UInt8.toNat_ofNat', UInt8.toNat_ofNat']
    omega
  · rw [short, h2, h3]
    rfl
  · rw [answersUnpack, hunpack]
    simp only [skipQuestions, skipName_packed _ hsizes hquestion (by omega : _ < 2 ^ 31)]
    simp [hlen]

/-- The name `a..b`, whose empty label goes. -/
theorem query_comesBack_twoLabels :
    let query := buildQuery typeA [97, 46, 46, 98] 7
    answersUnpack (fun i => query.getD i 0) query.length = some { replyCount := 0, id := some 7 } :=
  (query_comesBack (by decide +kernel : (nameOf [97, 46, 46, 98]).length < 255) (by decide)
    (by decide) (lies_getD _ []) rfl).2.2

end Query

end Rfc1035
