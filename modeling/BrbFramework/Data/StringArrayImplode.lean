import BrbFramework.Data.StringArrayExplode
import Mathlib.Algebra.GroupWithZero.Nat
import Mathlib.Data.List.Induction

/-!
# Imploding and exploding a string array

`explodeStrN_implodeToMemBuffer_iff` says which arrays of non-empty strings come
back. The imploded string is walked over element by element: as long as the
loop reaches the delimiter behind an element it adds the element, and where the
line ends inside of one, a part of it.

An array of one element has no delimiter that is not escaped, and its string is
taken as it is, with the escapes.
-/

namespace BrbData

namespace StringArray

open CStr List

/-! ## The imploded string -/

section Escaped

variable {d e : UInt8} {x y : CStr}

/-- The string with an escape in front of each delimiter. -/
def escaped (d e : UInt8) (x : CStr) : CStr := x.flatMap fun b => if b = d then [e, b] else [b]

@[simp] theorem escaped_nil : escaped d e [] = [] := rfl

theorem escaped_cons (b : UInt8) (x : CStr) :
    escaped d e (b :: x) = (if b = d then [e, b] else [b]) ++ escaped d e x := rfl

theorem length_escaped (d e : UInt8) (x : CStr) :
    (escaped d e x).length = x.length + x.count d := by
  induction x with
  | nil => rfl
  | cons b x ih =>
      rw [escaped_cons, length_append, ih, length_cons, count_cons]
      by_cases hb : b = d
      · simp only [hb, if_true, beq_self_eq_true, length_cons, length_nil]
        omega
      · simp only [hb, if_false, beq_iff_eq, length_cons, length_nil]
        omega

theorem escaped_eq_self (hd : d ∉ x) : escaped d e x = x := by
  induction x with
  | nil => rfl
  | cons b x ih =>
      obtain ⟨hb, hx⟩ := not_or.mp (mt mem_cons.mpr hd)
      rw [escaped_cons, if_neg (Ne.symm hb), ih hx]
      rfl

theorem mem_escaped_of_mem {b : UInt8} (h : b ∈ x) : b ∈ escaped d e x :=
  mem_flatMap.mpr ⟨b, h, by split <;> simp⟩

theorem filter_escaped (he : e ∉ x) : (escaped d e x).filter (· ≠ e) = x := by
  induction x with
  | nil => rfl
  | cons b x ih =>
      obtain ⟨hb, hx⟩ := not_or.mp (mt mem_cons.mpr he)
      rw [escaped_cons, filter_append, ih hx]
      split <;> simp [Ne.symm hb]

def Preceded (d e : UInt8) (t : CStr) : Prop := ∀ a c, t = a ++ d :: c → ∃ a', a = a' ++ [e]

theorem Preceded.of_append (h : Preceded d e (x ++ y)) : Preceded d e x := by
  intro a c heq
  apply h a (c ++ y)
  rw [heq, append_assoc, cons_append]

theorem preceded_escaped (he : e ∉ x) : Preceded d e (escaped d e x) := by
  induction x with
  | nil =>
      intro a c heq
      cases a <;> simp at heq
  | cons b x ih =>
      obtain ⟨hb, hx⟩ := not_or.mp (mt mem_cons.mpr he)
      intro a c heq
      rw [escaped_cons] at heq
      by_cases hd : b = d
      · subst hd
        rw [if_pos rfl] at heq
        rcases a with _ | ⟨a₀, _ | ⟨a₁, a⟩⟩
        · exact absurd (List.cons.inj heq).1 hb
        · obtain ⟨rfl, -⟩ := List.cons.inj heq
          exact ⟨[], rfl⟩
        · simp only [cons_append, nil_append, List.cons.injEq] at heq
          obtain ⟨rfl, rfl, hrest⟩ := heq
          obtain ⟨a', rfl⟩ := ih hx a c hrest
          exact ⟨e :: b :: a', rfl⟩
      · rw [if_neg hd] at heq
        rcases a with _ | ⟨a₀, a⟩
        · exact absurd (List.cons.inj heq).1 hd
        · simp only [cons_append, nil_append, List.cons.injEq] at heq
          obtain ⟨rfl, hrest⟩ := heq
          obtain ⟨a', rfl⟩ := ih hx a c hrest
          exact ⟨b :: a', rfl⟩

theorem getLast?_escaped (d e : UInt8) (x : CStr) : (escaped d e x).getLast? = x.getLast? := by
  induction x using List.reverseRecOn with
  | nil => rfl
  | append_singleton x b =>
      rw [escaped, flatMap_append, getLast?_append, getLast?_append]
      by_cases hb : b = d <;> simp [hb]

theorem length_le_of_filter_take (he : e ∉ x) {k : Nat}
    (h : ((escaped d e x).take k).filter (· ≠ e) = x) : (escaped d e x).length ≤ k := by
  have hall := @filter_escaped d e x he
  rw [← take_append_drop k (escaped d e x), filter_append, h] at hall
  have hnone : ((escaped d e x).drop k).filter (· ≠ e) = [] := append_right_eq_self.mp hall
  by_contra hlt
  -- the last byte is behind the part, and it is no escape
  have hne : (escaped d e x).drop k ≠ [] := by
    rw [ne_eq, drop_eq_nil_iff]
    exact hlt
  obtain ⟨b, hb⟩ := Option.ne_none_iff_exists'.mp (mt getLast?_eq_none_iff.mp hne)
  have hescape : b = e := by
    simpa using filter_eq_nil_iff.mp hnone b (mem_of_getLast? hb)
  rw [getLast?_drop, if_neg (by omega), getLast?_escaped] at hb
  exact he (hescape ▸ mem_of_getLast? hb)

theorem zero_notMem_escaped_iff (h : 0 ∉ x) : 0 ∉ escaped d e x ↔ (e = 0 → d ∉ x) := by
  simp only [escaped, mem_flatMap, not_exists, not_and]
  constructor
  · intro hnone he hd
    exact hnone d hd (by simp [he])
  · intro hescape b hb hzero
    have hne : (0 : UInt8) ≠ b := fun heq => h (heq ▸ hb)
    split at hzero
    · rename_i hdelim
      have he : e = 0 := by simpa [hne, eq_comm] using hzero
      exact hescape he (hdelim ▸ hb)
    · simp [hne] at hzero

theorem charAt_escaped_eq_one_iff (hne : x ≠ []) (he : e ∉ x) (hone : x.head? ≠ some 1) :
    (escaped d e x).charAt 0 = 1 ↔ e = 1 ∧ x.head? = some d := by
  cases x with
  | nil => exact absurd rfl hne
  | cons b x =>
      have hb : b ≠ 1 := by simpa using hone
      rw [escaped_cons]
      by_cases hd : b = d
      · simp [hd, charAt]
      · simp [hd, charAt, hb]

theorem implodeFrom_cons (hne : x ≠ []) (h : 0 ∉ x) (rest : List CStr) :
    implodeFrom d e (x :: rest) =
      escaped d e x ++ (if rest.isEmpty then [] else [d]) ++ implodeFrom d e rest := by
  have hpos : ¬ x.length = 0 := by simpa using hne
  have hlen := length_escaped d e x
  rw [implodeFrom]
  simp only [strlen_eq h, escapeString, take_length, if_neg hpos]
  by_cases hcount : x.count d = 0
  · rw [if_pos hcount, escaped_eq_self (count_eq_zero.mp hcount)]
  · rw [if_neg hcount, ← hlen]
    exact congrArg (· ++ _ ++ _) take_length

end Escaped

/-! ## The loop over the imploded string -/

section Pieces

variable {d e : UInt8} {t front piece back x : CStr}

/-- The loop of `StringArrayExplodeStrN` with an escape and no comment. -/
abbrev splitLoop (d e : UInt8) (t : CStr) (i : Nat) : Explode :=
  explodeLoop (splitArgs t [d] (some [e]) none addLine true) t [] i

theorem charAt_append (front : CStr) (b : UInt8) (back : CStr) :
    charAt (front ++ b :: back) front.length = b := by
  simp [charAt]

theorem slice_append (front piece back : CStr) :
    slice (front ++ piece ++ back) front.length piece.length = piece := by
  rw [slice, append_assoc, drop_left, take_left]

theorem splitLoop_byte {i : Nat} (h : charAt t i ≠ d) :
    splitLoop d e t (i + 1) = splitLoop d e t i := by
  have htoken : (splitArgs t [d] (some [e]) none addLine true).token i = false := by
    simpa [charAt] using h
  rcases explodeStep_cases (splitArgs t [d] (some [e]) none addLine true) t i (splitLoop d e t i)
    with ⟨-, hstep⟩ | ⟨rfl, hfirst, -⟩ | ⟨-, hdelim, -, -⟩ | ⟨-, hdelim, -, -⟩
  · exact hstep
  · exact absurd (htoken.symm.trans hfirst) Bool.false_ne_true
  · exact absurd (htoken.symm.trans hdelim) Bool.false_ne_true
  · exact absurd (htoken.symm.trans hdelim) Bool.false_ne_true

theorem splitLoop_escaped {i : Nat} (hi : i ≠ 0) (h : charAt t i = d)
    (hescape : charAt t (i - 1) = e) :
    splitLoop d e t (i + 1) = { splitLoop d e t i with escapeFlag := true } := by
  have hzero : ¬ (i = 0 ∧ (splitArgs t [d] (some [e]) none addLine true).token 0 = true) :=
    fun hfirst => hi hfirst.1
  have htoken : (splitArgs t [d] (some [e]) none addLine true).token i = true := by
    simpa [charAt] using h
  rw [splitLoop, explodeLoop, explodeStep, if_neg hzero, if_pos htoken, if_pos ⟨hi, hescape⟩]

/-- A delimiter that is not escaped ends an element, which is added unless it starts with the
byte that stands for a comment. -/
theorem splitLoop_token {i : Nat} (hi : i ≠ 0) (h : charAt t i = d)
    (hescape : charAt t (i - 1) ≠ e) {s : Explode} (hs : splitLoop d e t i = s) :
    splitLoop d e t (i + 1) =
      if (t.slice s.start (i - s.start)).charAt 0 = 1 then
        { s with base := i, foundTokenFlag := true }
      else
        { s with
          arr := s.arr ++ [addLine (if s.escapeFlag then
            unescapeString (t.slice s.start (i - s.start)) e else t.slice s.start (i - s.start))]
          base := i
          escapeFlag := false
          foundTokenFlag := true } := by
  have hzero : ¬ (i = 0 ∧ (splitArgs t [d] (some [e]) none addLine true).token 0 = true) :=
    fun hfirst => hi hfirst.1
  have htoken : (splitArgs t [d] (some [e]) none addLine true).token i = true := by
    simpa [charAt] using h
  have hnone : ¬ (i ≠ 0 ∧ charAt t (i - 1) = (splitArgs t [d] (some [e]) none addLine
      true).escapeByte) := fun hall => hescape hall.2
  rw [splitLoop, explodeLoop, ← splitLoop, hs, explodeStep, if_neg hzero, if_pos htoken,
    if_neg hnone]
  rfl

theorem splitLoop_piece (ht : t = front ++ piece ++ back) (hpiece : Preceded d e piece)
    {s : Explode} (hs : splitLoop d e t front.length = s) :
    splitLoop d e t (front.length + piece.length) =
      { s with escapeFlag := s.escapeFlag || decide (d ∈ piece) } := by
  induction piece using List.reverseRecOn generalizing back with
  | nil => simpa using hs
  | append_singleton piece b ih =>
      have ht' : t = front ++ piece ++ b :: back := by simpa using ht
      have hchar : charAt t (front.length + piece.length) = b := by
        rw [ht', ← length_append]
        exact charAt_append (front ++ piece) b back
      have hloop := ih ht' hpiece.of_append
      rw [length_append, length_singleton, ← Nat.add_assoc]
      by_cases hb : b = d
      · -- the byte in front of it is the escape
        obtain ⟨a, ha⟩ := hpiece piece [] (by rw [hb])
        have hlen : front.length + piece.length = (front ++ a).length + 1 := by
          rw [ha, length_append, length_append, length_singleton, Nat.add_assoc]
        have hescape : charAt t (front.length + piece.length - 1) = e := by
          rw [hlen, Nat.add_sub_cancel, ht', ha]
          simpa using charAt_append (front ++ a) e (b :: back)
        rw [splitLoop_escaped (by omega) (hchar.trans hb) hescape, hloop]
        simp [hb]
      · rw [splitLoop_byte (by rw [hchar]; exact hb), hloop]
        simp [Ne.symm hb]

theorem charAt_last {b : UInt8} (hb : piece.getLast? = some b) (front back : CStr) :
    charAt (front ++ piece ++ back) (front.length + piece.length - 1) = b := by
  obtain ⟨init, rfl⟩ : ∃ init, piece = init ++ [b] :=
    ⟨piece.dropLast, (dropLast_append_getLast? b hb).symm⟩
  have hi : front.length + (init ++ [b]).length - 1 = (front ++ init).length := by
    rw [length_append, length_append, length_singleton]
    omega
  rw [hi]
  simpa using charAt_append (front ++ init) b back

theorem element_eq (he : e ∉ x) (hzero : 0 ∉ escaped d e x) (escapeFlag : Bool) :
    (if (escapeFlag || decide (d ∈ escaped d e x)) = true then unescapeString (escaped d e x) e
      else escaped d e x) = x := by
  split
  · rw [unescapeString_eq hzero, filter_escaped he]
  · rename_i hflag
    apply escaped_eq_self
    intro hd
    exact hflag (by simp [mem_escaped_of_mem hd])

theorem Explode.start_of_base {s : Explode} (h : s.base ≠ 0) : s.start = s.base + 1 :=
  if_pos (.inl h)

theorem splitLoop_element (hne : x ≠ []) (he : e ∉ x)
    (ht : t = front ++ escaped d e x ++ d :: back) (hzero : 0 ∉ escaped d e x)
    (hlen : x.length ≤ maxArrLineSz) {s : Explode} (hs : splitLoop d e t front.length = s)
    (hstart : s.start = front.length) :
    ∃ s', splitLoop d e t (front ++ escaped d e x ++ [d]).length = s' ∧
      s'.start = (front ++ escaped d e x ++ [d]).length ∧ s'.foundTokenFlag = true ∧
      s'.arr = s.arr ++ if charAt (escaped d e x) 0 = 1 then [] else [x] := by
  have hloop := splitLoop_piece ht (preceded_escaped he) hs
  have helement := element_eq he hzero s.escapeFlag
  have hx : 0 ∉ x := fun hmem => hzero (mem_escaped_of_mem hmem)
  obtain ⟨b, hb⟩ := Option.ne_none_iff_exists'.mp (mt getLast?_eq_none_iff.mp hne)
  have hlast : (escaped d e x).getLast? = some b := (getLast?_escaped d e x).trans hb
  have hlen' := length_escaped d e x
  have hpos : front.length + (escaped d e x).length ≠ 0 := by
    have hxpos := length_pos_iff.mpr hne
    omega
  generalize escaped d e x = text at *
  have hchar : charAt t (front.length + text.length) = d := by
    rw [ht, ← length_append]
    exact charAt_append (front ++ text) d back
  have hescape : charAt t (front.length + text.length - 1) ≠ e := by
    rw [ht, charAt_last hlast]
    exact fun heq => he (heq ▸ mem_of_getLast? hb)
  have hslice : t.slice front.length (front.length + text.length - front.length) = text := by
    rw [ht, Nat.add_sub_cancel_left]
    exact slice_append front text (d :: back)
  have hlength : (front ++ text ++ [d]).length = front.length + text.length + 1 := by
    rw [length_append, length_append, length_singleton]
  have hstep := splitLoop_token hpos hchar hescape hloop
  have hstart' : Explode.start { s with escapeFlag := s.escapeFlag || decide (d ∈ text) } =
      front.length := hstart
  rw [hstart', hslice] at hstep
  simp only [helement, addLine_eq hx hlen] at hstep
  rw [hlength, hstep]
  split
  · exact ⟨_, rfl, Explode.start_of_base hpos, rfl, (append_nil _).symm⟩
  · exact ⟨_, rfl, Explode.start_of_base hpos, rfl, rfl⟩

/-! ## The result -/

/-- What `StringArrayExplodeStrN` returns when its loop looks at `n` bytes. -/
def exploded (d e : UInt8) (t : CStr) (n : Nat) : List CStr :=
  explodeRest (splitArgs t [d] (some [e]) none addLine true) t n (splitLoop d e t n)
    (splitLoop d e t n).start (t.take n)

theorem exploded_part {k : Nat} (ht : t = front ++ escaped d e x ++ back) (he : e ∉ x)
    (hk : k ≤ (escaped d e x).length) (hzero : 0 ∉ (escaped d e x).take k)
    (hlen : k ≤ maxArrLineSz) {s : Explode} (hs : splitLoop d e t front.length = s)
    (hstart : s.start = front.length) (hfound : s.foundTokenFlag = true) :
    exploded d e t (front.length + k) = s.arr ++
      if charAt ((escaped d e x).take k) 0 = 1 then []
      else [((escaped d e x).take k).filter (· ≠ e)] := by
  have hpart : (escaped d e x).take k ++ (escaped d e x).drop k = escaped d e x :=
    take_append_drop _ _
  have hpreceded : Preceded d e ((escaped d e x).take k ++ (escaped d e x).drop k) := by
    rw [hpart]
    exact preceded_escaped he
  have hk' : ((escaped d e x).take k).length = k := length_take_of_le hk
  have ht' : t = front ++ (escaped d e x).take k ++ ((escaped d e x).drop k ++ back) := by
    rw [ht, append_assoc front _ (_ ++ back), ← append_assoc _ _ back, hpart,
      ← append_assoc]
  have hloop := splitLoop_piece ht' hpreceded.of_append hs
  generalize (escaped d e x).take k = part at *
  subst hk'
  have hslice : t.slice front.length (front.length + part.length - front.length) = part := by
    rw [ht', Nat.add_sub_cancel_left]
    exact slice_append front part _
  have hfilter : (if e ≠ 0 then unescapeString part e else part) = part.filter (· ≠ e) := by
    rw [unescapeString_eq hzero]
    split
    · rfl
    · rename_i he
      rw [not_not] at he
      subst he
      exact (filter_eq_self.mpr fun b hb => by
        simpa using fun heq : b = 0 => hzero (heq ▸ hb)).symm
  have hline : addLine (part.filter (· ≠ e)) = part.filter (· ≠ e) := by
    apply addLine_eq
    · exact fun hmem => hzero (mem_filter.mp hmem).1
    · exact (length_filter_le _ _).trans hlen
  have hstart' : Explode.start { s with escapeFlag := s.escapeFlag || decide (d ∈ part) } =
      front.length := hstart
  have hescape : (splitArgs t [d] (some [e]) none addLine true).escapeByte = e := rfl
  have hcomment : (splitArgs t [d] (some [e]) none addLine true).commentByte = 1 := rfl
  rw [exploded, hloop, explodeRest, if_pos hfound, hstart', hslice, hescape, hcomment]
  simp only [hfilter, hline]
  split
  · exact (append_nil _).symm
  · rfl

/-- A string as an element of an array that is imploded. -/
structure Plain (e : UInt8) (x : CStr) : Prop where
  ne_nil : x ≠ []
  zero : 0 ∉ x
  escape : e ∉ x
  head : x.head? ≠ some 1

instance instDecidablePlain (e : UInt8) (x : CStr) : Decidable (Plain e x) :=
  decidable_of_iff (x ≠ [] ∧ 0 ∉ x ∧ e ∉ x ∧ x.head? ≠ some 1)
    ⟨fun ⟨hne, hzero, hescape, hhead⟩ => ⟨hne, hzero, hescape, hhead⟩,
      fun h => ⟨h.ne_nil, h.zero, h.escape, h.head⟩⟩

theorem implode_cons (h : Plain e x) (rest : List CStr) :
    implodeFrom d e (x :: rest) =
      escaped d e x ++ ((if rest.isEmpty then [] else [d]) ++ implodeFrom d e rest) := by
  rw [implodeFrom_cons h.ne_nil h.zero, append_assoc]

theorem notMem_take_of_part {k n : Nat} (ht : t = front ++ piece ++ back)
    (hzero : 0 ∉ t.take n) (hk : front.length + k ≤ n) :
    0 ∉ piece.take k := by
  intro hmem
  apply hzero
  rw [ht, append_assoc, take_append, mem_append]
  refine .inr ?_
  rw [take_append, mem_append]
  exact .inl (take_subset_take_left _ (by omega) hmem)

theorem length_eq_iff {k : Nat} {rest : List CStr}
    (ht : t = front ++ escaped d e x ++
      ((if rest.isEmpty then [] else [d]) ++ implodeFrom d e rest))
    (hk : k ≤ (escaped d e x).length) :
    front.length + k = t.length ↔ rest = [] ∧ k = (escaped d e x).length := by
  rw [ht]
  cases rest with
  | nil => simp [implodeFrom]
  | cons y rest =>
      simp
      omega

theorem part_eq_iff {k : Nat} {rest : List CStr} (hx : Plain e x)
    (ht : t = front ++ escaped d e x ++
      ((if rest.isEmpty then [] else [d]) ++ implodeFrom d e rest))
    (hk : k ≤ (escaped d e x).length) :
    (if charAt ((escaped d e x).take k) 0 = 1 then []
      else [((escaped d e x).take k).filter (· ≠ e)]) = x :: rest ↔
      front.length + k = t.length ∧ ∀ y ∈ x :: rest, charAt (escaped d e y) 0 ≠ 1 := by
  rw [length_eq_iff ht hk]
  constructor
  · intro heq
    split at heq
    · exact absurd heq (by simp)
    · rename_i hcomment
      obtain ⟨hpart, rfl⟩ := List.cons.inj heq
      have hall : k = (escaped d e x).length :=
        Nat.le_antisymm hk (length_le_of_filter_take hx.escape hpart)
      rw [hall, take_length] at hcomment
      refine ⟨⟨rfl, hall⟩, fun y hy => ?_⟩
      obtain rfl := mem_singleton.mp hy
      exact hcomment
  · rintro ⟨⟨rfl, rfl⟩, hnone⟩
    rw [take_length, if_neg (hnone x (by simp)), filter_escaped hx.escape]

theorem element_append_iff {n : Nat} {rest found : List CStr} (hle : found.length ≤ rest.length)
    (hiff : found = rest ↔ n = t.length ∧ ∀ y ∈ rest, charAt (escaped d e y) 0 ≠ 1) :
    (if charAt (escaped d e x) 0 = 1 then [] else [x]) ++ found = x :: rest ↔
      n = t.length ∧ ∀ y ∈ x :: rest, charAt (escaped d e y) 0 ≠ 1 := by
  rw [forall_mem_cons]
  split
  · rename_i hcomment
    constructor
    · intro hall
      rw [nil_append] at hall
      rw [hall, length_cons] at hle
      omega
    · rintro ⟨-, hnone, -⟩
      exact absurd hcomment hnone
  · rename_i hcomment
    simp [hiff, hcomment]

/-- The elements behind a delimiter: a part of a text gives no more elements than there are,
and gives them all only if it is the whole text. -/
theorem exploded_found {n : Nat} {es : List CStr} (hne : es ≠ []) (hes : ∀ x ∈ es, Plain e x)
    (ht : t = front ++ implodeFrom d e es) (hfront : front.length ≤ n) (hn : n ≤ t.length)
    (hcap : n ≤ maxArrLineSz) (hzero : 0 ∉ t.take n) {s : Explode}
    (hs : splitLoop d e t front.length = s) (hstart : s.start = front.length)
    (hfound : s.foundTokenFlag = true) :
    ∃ found, exploded d e t n = s.arr ++ found ∧ found.length ≤ es.length ∧
      (found = es ↔ n = t.length ∧ ∀ x ∈ es, charAt (escaped d e x) 0 ≠ 1) := by
  induction es generalizing front s with
  | nil => exact absurd rfl hne
  | cons x rest ih =>
      obtain ⟨hx, hrest⟩ := forall_mem_cons.mp hes
      rw [implode_cons hx, ← append_assoc] at ht
      by_cases hend : n ≤ front.length + (escaped d e x).length
      · -- the line ends in this element
        obtain ⟨k, rfl⟩ := Nat.exists_eq_add_of_le hfront
        have hk : k ≤ (escaped d e x).length := by omega
        have hpart := exploded_part ht hx.escape hk (notMem_take_of_part ht hzero le_rfl)
          (by omega) hs hstart hfound
        refine ⟨_, hpart, ?_, ?_⟩
        · split <;> simp
        · exact part_eq_iff hx ht hk
      · cases rest with
        | nil =>
            rw [ht] at hn
            simp [implodeFrom] at hn
            omega
        | cons y rest =>
            have ht' : t = front ++ escaped d e x ++ d :: implodeFrom d e (y :: rest) := by
              simpa using ht
            have hzero' : 0 ∉ escaped d e x := by
              have hpiece := notMem_take_of_part ht hzero (Nat.le_of_not_le hend)
              rwa [take_length] at hpiece
            have hlen : x.length ≤ maxArrLineSz := by
              have hlen' := length_escaped d e x
              omega
            obtain ⟨s', hs', hstart', hfound', harr⟩ :=
              splitLoop_element hx.ne_nil hx.escape ht' hzero' hlen hs hstart
            have ht'' : t = front ++ escaped d e x ++ [d] ++ implodeFrom d e (y :: rest) := by
              simpa using ht'
            obtain ⟨found, heq, hle, hiff⟩ := ih (cons_ne_nil _ _) hrest ht''
              (by simp; omega) hs' hstart' hfound'
            refine ⟨(if charAt (escaped d e x) 0 = 1 then [] else [x]) ++ found, ?_, ?_, ?_⟩
            · rw [heq, harr, append_assoc]
            · split
              · simp only [nil_append, length_cons] at hle ⊢
                omega
              · simpa using hle
            · exact element_append_iff hle hiff

theorem exploded_whole {n : Nat} (ht : t = escaped d e x ++ back) (he : e ∉ x)
    (hn : n ≤ (escaped d e x).length) : exploded d e t n = [(escaped d e x).take n] := by
  have hpart : (escaped d e x).take n ++ (escaped d e x).drop n = escaped d e x :=
    take_append_drop _ _
  have hpreceded : Preceded d e ((escaped d e x).take n ++ (escaped d e x).drop n) := by
    rw [hpart]
    exact preceded_escaped he
  have ht' : t = [] ++ (escaped d e x).take n ++ ((escaped d e x).drop n ++ back) := by
    rw [nil_append, ← append_assoc, hpart, ht]
  have hloop := splitLoop_piece (s := {}) ht' hpreceded.of_append rfl
  rw [length_nil, Nat.zero_add, length_take_of_le hn] at hloop
  rw [exploded, hloop, explodeRest, if_neg Bool.false_ne_true, ht, take_append_of_le_length hn]
  rfl

/-- A part of the text of the first element gives back the array iff there is nothing else, and
nothing was escaped. -/
theorem whole_eq_iff {n : Nat} {rest : List CStr} (hx : Plain e x)
    (ht : t = escaped d e x ++ ((if rest.isEmpty then [] else [d]) ++ implodeFrom d e rest))
    (hn : n ≤ (escaped d e x).length) :
    [(escaped d e x).take n] = x :: rest ↔
      (n = t.length ∧ ∀ y ∈ x :: rest, charAt (escaped d e y) 0 ≠ 1) ∧
        ((x :: rest).length = 1 → ∀ y ∈ x :: rest, d ∉ y) := by
  have hlen := @length_eq_iff d e t [] x n rest (by simpa using ht) hn
  rw [length_nil, Nat.zero_add] at hlen
  rw [hlen]
  constructor
  · intro heq
    obtain ⟨hpart, rfl⟩ := List.cons.inj heq
    have hfilter : ((escaped d e x).take n).filter (· ≠ e) = x := by
      rw [hpart]
      exact filter_eq_self.mpr fun b hb => by
        simpa using fun heq : b = e => hx.escape (heq ▸ hb)
    have hall : n = (escaped d e x).length :=
      Nat.le_antisymm hn (length_le_of_filter_take hx.escape hfilter)
    rw [hall, take_length] at hpart
    have hd : d ∉ x := by
      have hcount := length_escaped d e x
      rw [hpart] at hcount
      exact count_eq_zero.mp (by omega)
    simp only [mem_singleton, forall_eq, hpart]
    refine ⟨⟨⟨trivial, by rw [hall, hpart]⟩, ?_⟩, fun _ => hd⟩
    have hone := hx.head
    cases x with
    | nil => exact absurd rfl hx.ne_nil
    | cons b x => simpa [charAt] using hone
  · rintro ⟨⟨⟨rfl, rfl⟩, -⟩, hd⟩
    rw [take_length, escaped_eq_self (hd rfl x (by simp))]

theorem exploded_eq_iff {n : Nat} {es : List CStr} (hne : es ≠ []) (hes : ∀ x ∈ es, Plain e x)
    (ht : t = implodeFrom d e es) (hn : n ≤ t.length) (hcap : n ≤ maxArrLineSz)
    (hzero : 0 ∉ t.take n) :
    exploded d e t n = es ↔ (n = t.length ∧ ∀ x ∈ es, charAt (escaped d e x) 0 ≠ 1) ∧
      (es.length = 1 → ∀ x ∈ es, d ∉ x) := by
  obtain ⟨x, rest, rfl⟩ := exists_cons_of_ne_nil hne
  obtain ⟨hx, hrest⟩ := forall_mem_cons.mp hes
  rw [implode_cons hx] at ht
  by_cases hend : n ≤ (escaped d e x).length
  · rw [exploded_whole ht hx.escape hend]
    exact whole_eq_iff hx ht hend
  · cases rest with
    | nil =>
        rw [ht] at hn
        simp [implodeFrom] at hn
        omega
    | cons y rest =>
        have ht' : t = [] ++ escaped d e x ++ d :: implodeFrom d e (y :: rest) := by
          simpa using ht
        have hzero' : 0 ∉ escaped d e x := by
          have hpiece := notMem_take_of_part ht' hzero
            (by simpa using Nat.le_of_not_le hend : [].length + (escaped d e x).length ≤ n)
          rwa [take_length] at hpiece
        have hlen : x.length ≤ maxArrLineSz := by
          have hlen' := length_escaped d e x
          omega
        obtain ⟨s', hs', hstart', hfound', harr⟩ :=
          splitLoop_element (s := {}) hx.ne_nil hx.escape ht' hzero' hlen rfl rfl
        have ht'' : t = [] ++ escaped d e x ++ [d] ++ implodeFrom d e (y :: rest) := by
          simpa using ht'
        obtain ⟨found, heq, hle, hiff⟩ := exploded_found (cons_ne_nil _ _) hrest ht''
          (by simp; omega) hn hcap hzero hs' hstart' hfound'
        have htwo : ¬ (x :: y :: rest).length = 1 := by simp
        have hnil : ({} : Explode).arr = [] := rfl
        rw [heq, harr, hnil, nil_append]
        simp only [htwo, false_implies, and_true]
        exact element_append_iff hle hiff

end Pieces

/-! ## The round trip -/

section RoundTrip

variable {d e : UInt8} {es : List CStr}

theorem length_implodeFrom (hne : es ≠ []) (hes : ∀ x ∈ es, Plain e x) :
    (implodeFrom d e es).length + 1 = (es.map fun x => x.length + x.count d + 1).sum := by
  induction es with
  | nil => exact absurd rfl hne
  | cons x rest ih =>
      obtain ⟨hx, hrest⟩ := forall_mem_cons.mp hes
      rw [implode_cons hx, map_cons, sum_cons, length_append, length_escaped]
      cases rest with
      | nil => simp [implodeFrom]
      | cons y rest =>
          rw [← ih (cons_ne_nil _ _) hrest]
          simp
          omega

theorem zero_notMem_implodeFrom_iff (hne : es ≠ []) (hes : ∀ x ∈ es, Plain e x) :
    0 ∉ implodeFrom d e es ↔ (d = 0 → es.length = 1) ∧ (e = 0 → ∀ x ∈ es, d ∉ x) := by
  induction es with
  | nil => exact absurd rfl hne
  | cons x rest ih =>
      obtain ⟨hx, hrest⟩ := forall_mem_cons.mp hes
      rw [implode_cons hx, mem_append, not_or, zero_notMem_escaped_iff hx.zero]
      cases rest with
      | nil => simp [implodeFrom]
      | cons y rest =>
          have ih := ih (cons_ne_nil _ _) hrest
          rw [mem_append, not_or, ih]
          simp
          constructor
          · intro h
            obtain ⟨hfirst, hd, -, hothers⟩ := h
            exact ⟨fun h => hd h.symm, fun he => ⟨hfirst he, hothers he⟩⟩
          · intro h
            obtain ⟨hd, hall⟩ := h
            exact ⟨fun he => (hall he).1, fun h => hd h.symm, fun h => absurd h hd,
              fun he => (hall he).2⟩

/-- The exact condition for a round trip: the imploded string fits into a line and has no zero
in it, a single element has no delimiter, and no text starts with an escape that looks like a
comment. -/
def ComesBack (d e : UInt8) (es : List CStr) : Prop :=
  (es.map fun x => x.length + x.count d + 1).sum ≤ memBufferMaxPrintf ∧
    (es.length = 1 → ∀ x ∈ es, d ∉ x) ∧ (d = 0 → es.length = 1) ∧
    (e = 0 → ∀ x ∈ es, d ∉ x) ∧ (e = 1 → ∀ x ∈ es, x.head? ≠ some d)

theorem explodeStrN_eq_exploded (t : CStr) (n : Int) :
    explodeStrN t [d] (some [e]) none n = exploded d e t (min (min t.strlen
      (if n < 0 then ((memBufferMaxPrintf - 1 : Nat) : Int) else n).toNat)
        (memBufferMaxPrintf - 1)) := rfl

/-- **Imploding and exploding** give back an array of non-empty strings that contain no escape
byte and do not start with the byte for comments iff `ComesBack` holds. -/
theorem explodeStrN_implodeToMemBuffer_iff (es : List CStr) (d e : UInt8) (hne : es ≠ [])
    (hes : ∀ x ∈ es, Plain e x) (n : Int)
    (hn : n < 0 ∨ ((implodeToMemBuffer es [d] (some [e])).length : Int) ≤ n) :
    explodeStrN (implodeToMemBuffer es [d] (some [e])) [d] (some [e]) none n = es ↔
      ComesBack d e es := by
  have ht : implodeToMemBuffer es [d] (some [e]) = implodeFrom d e es := rfl
  rw [ht] at hn ⊢
  have hlen := @length_implodeFrom d e es hne hes
  have hzero := @zero_notMem_implodeFrom_iff d e es hne hes
  have hstrlen := strlen_le (implodeFrom d e es)
  have hcap : (memBufferMaxPrintf : Nat) = 65535 := rfl
  have hline : (maxArrLineSz : Nat) = 65535 := rfl
  rw [explodeStrN_eq_exploded]
  obtain ⟨k, hk⟩ : ∃ k, min (min (strlen (implodeFrom d e es))
      (if n < 0 then ((memBufferMaxPrintf - 1 : Nat) : Int) else n).toNat)
        (memBufferMaxPrintf - 1) = k := ⟨_, rfl⟩
  have hk' : k = min (strlen (implodeFrom d e es)) 65534 := by
    rw [← hk]
    split <;> omega
  have hseen : 0 ∉ (implodeFrom d e es).take k := by
    intro hmem
    apply not_mem_take_strlen (implodeFrom d e es)
    exact take_subset_take_left _ (by omega) hmem
  have hall : k = (implodeFrom d e es).length ↔
      0 ∉ implodeFrom d e es ∧ (implodeFrom d e es).length ≤ 65534 := by
    constructor
    · intro heq
      rw [heq, take_length] at hseen
      exact ⟨hseen, by omega⟩
    · rintro ⟨hnone, hle⟩
      rw [hk', strlen_eq hnone]
      omega
  have hcomment : (∀ x ∈ es, charAt (escaped d e x) 0 ≠ 1) ↔
      (e = 1 → ∀ x ∈ es, x.head? ≠ some d) := by
    constructor
    · intro hnone he x hx hhead
      exact hnone x hx ((charAt_escaped_eq_one_iff (hes x hx).ne_nil (hes x hx).escape
        (hes x hx).head).mpr ⟨he, hhead⟩)
    · intro hnone x hx hone
      obtain ⟨he, hhead⟩ := (charAt_escaped_eq_one_iff (hes x hx).ne_nil (hes x hx).escape
        (hes x hx).head).mp hone
      exact hnone he x hx hhead
  have hfit : (implodeFrom d e es).length ≤ 65534 ↔
      (es.map fun x => x.length + x.count d + 1).sum ≤ memBufferMaxPrintf := by omega
  rw [hk, exploded_eq_iff hne hes rfl (by omega) (by omega) hseen, hall, hzero, hcomment, hfit]
  constructor
  · rintro ⟨⟨⟨⟨hdelim, hescape⟩, hfit⟩, hone⟩, hsingle⟩
    exact ⟨hfit, hsingle, hdelim, hescape, hone⟩
  · rintro ⟨hfit, hsingle, hdelim, hescape, hone⟩
    exact ⟨⟨⟨⟨hdelim, hescape⟩, hfit⟩, hone⟩, hsingle⟩

/-- `a,` and `,b` with a comma and a backslash. -/
theorem explodeStrN_implodeToMemBuffer_iff_two :
    explodeStrN (implodeToMemBuffer [[97, 44], [44, 98]] [44] (some [92])) [44] (some [92]) none
        (-1) = [[97, 44], [44, 98]] ↔
      ComesBack 44 92 [[97, 44], [44, 98]] :=
  explodeStrN_implodeToMemBuffer_iff [[97, 44], [44, 98]] 44 92 (by decide) (by decide) (-1)
    (by decide)

/-- `a,b` alone comes back with its backslash. -/
theorem single_element_keeps_the_escape :
    explodeStrN (implodeToMemBuffer [[97, 44, 98]] [44] (some [92])) [44] (some [92]) none (-1) ≠
      [[97, 44, 98]] := by
  decide

end RoundTrip

end StringArray

end BrbData
