import BrbFramework.Data.KeyValue
import BrbFramework.Data.MemBufferContent

/-!
# Templates

`KvInterpTplToMemBuffer` puts the values of keys in the place of `${key}`. Where a `${` is
not closed it adds what it has read from the front of the template on, and where it is the
end of the template it is lost.
-/

namespace BrbData

namespace KeyValue

open CStr MemBufferContent List

/-- `$`, `{` and `}`. -/
def dollar : UInt8 := '$'.toUInt8

def opening : UInt8 := '{'.toUInt8

def closing : UInt8 := '}'.toUInt8

/-- `number:`. -/
def numberPrefix : CStr := ['n', 'u', 'm', 'b', 'e', 'r', ':'].map Char.toUInt8

/-- `BRB_KV_TPL_STATE_READING_TEXT` and `BRB_KV_TPL_STATE_READING_PARAM`. -/
inductive TplState
  | readingText
  | readingParam
  deriving DecidableEq, Repr

/-- The loop of `KvInterpTplToMemBuffer` from `i` on, which fails where `fuel` is used up. -/
def interpTplLoop (rows : List (Option KeyValue)) (dataStr : CStr) (dataSz : Int) :
    Nat → TplState → Nat → MemBuffer → Option MemBuffer
  | 0, _, _, _ => none
  | fuel + 1, state, i, mb =>
    if (i : Int) < dataSz then
      match state with
      | .readingText =>
        if dataStr.charAt i = dollar ∧ dataStr.charAt (i + 1) = opening then
          interpTplLoop rows dataStr dataSz fuel .readingParam (i + 2) mb
        else interpTplLoop rows dataStr dataSz fuel .readingText (i + 1) (mb.add [dataStr.charAt i])
      | .readingParam =>
        let param : CStr := (dataStr.drop i).takeWhile fun b => b ≠ closing ∧ b ≠ 0
        let j := i + param.length
        if dataStr.charAt j ≠ closing then
          some ((mb.add [dollar, opening]).add (dataStr.take (dataSz - (i + 1)).toNat))
        else
          let key := if 7 < param.length ∧ strncmpEq (dataStr.drop i) numberPrefix 7
            then param.drop 7 else param
          let mb := match rowGetByKey rows key with
            | some item =>
              if item.value.getD 0 0 ≠ 0 ∧ 0 < item.valueSz then
                mb.add (item.value.take item.valueSz)
              else mb.putNULLTerminator
            | none => mb.putNULLTerminator
          interpTplLoop rows dataStr dataSz fuel .readingText (j + 1) mb
    else some mb

/-- `KvInterpTplToMemBuffer`. -/
def interpTplToMemBuffer (fuel : Nat) (rows : List (Option KeyValue)) (dataStr : CStr)
    (dataSz : Int) (mb : MemBuffer) : Option MemBuffer :=
  let dataSz := if dataSz < 0 then (dataStr.strlen : Int) else dataSz
  interpTplLoop rows dataStr dataSz fuel .readingText 0 mb

/-! ## What a template stands for -/

/-- The value of a key, nothing where there is none. -/
def valueOf (rows : List (Option KeyValue)) (key : CStr) : List UInt8 :=
  match (rows.filterMap id).find? (isOf key) with
  | some kv => if kv.value.getD 0 0 = 0 then [] else kv.value.take kv.valueSz
  | none => []

/-- `out` is the template with the values in the place of its keys, which have no `*` and no
`number:` in front. -/
inductive Renders (value : CStr → List UInt8) : CStr → List UInt8 → Prop
  | nil : Renders value [] []
  | text {c : UInt8} {t : CStr} {out : List UInt8} : ¬ [dollar, opening] <+: c :: t →
      Renders value t out → Renders value (c :: t) (c :: out)
  | param {key t : CStr} {out : List UInt8} : closing ∉ key → star ∉ key →
      ¬ numberPrefix <+: key → Renders value t out →
      Renders value (dollar :: opening :: (key ++ closing :: t)) (value key ++ out)
  | unclosed {t : CStr} : closing ∉ t →
      Renders value (dollar :: opening :: t) (dollar :: opening :: t)

/-- Every `${` of the template is closed. -/
def Closed (t : CStr) : Prop := ∀ u v, t = u ++ dollar :: opening :: v → closing ∈ v

/-- `KvInterpTplToMemBuffer` adds `out` to any buffer, whether it is told the size of the
template or measures it. -/
def Outputs (rows : List (Option KeyValue)) (t : CStr) (out : List UInt8) : Prop :=
  ∀ (dataSz : Int) (mb : MemBuffer) (fuel : Nat), dataSz < 0 ∨ dataSz = t.length → mb.WF →
    t.length < fuel → ∃ mb', interpTplToMemBuffer fuel rows t dataSz mb = some mb' ∧
      content mb' = content mb ++ out

/-! ## Closed templates -/

theorem closed_text {c : UInt8} {t : CStr} (h : ¬ [dollar, opening] <+: c :: t) :
    Closed (c :: t) ↔ Closed t := by
  constructor
  · intro hclosed u v heq
    exact hclosed (c :: u) v (by rw [heq, cons_append])
  · intro hclosed u v heq
    cases u with
    | nil =>
      have hprefix : [dollar, opening] <+: c :: t := ⟨v, heq.symm⟩
      exact absurd hprefix h
    | cons b u =>
      rw [cons_append] at heq
      exact hclosed u v (List.cons.inj heq).2

theorem closed_param {key t : CStr} :
    Closed (dollar :: opening :: (key ++ closing :: t)) ↔ Closed t := by
  have hmarker : closing ≠ dollar ∧ closing ≠ opening := by decide
  constructor
  · intro hclosed u v heq
    apply hclosed (dollar :: opening :: (key ++ closing :: u)) v
    simp [heq]
  · intro hclosed u v heq
    by_contra hopen
    have hsplit : (dollar :: opening :: key) ++ closing :: t = u ++ dollar :: opening :: v := by
      simpa using heq
    rcases append_eq_append_iff.mp hsplit with ⟨w, hu, hright⟩ | ⟨w, hleft, hright⟩
    · -- the marker is behind the parameter
      cases w with
      | nil =>
        rw [nil_append] at hright
        exact hmarker.1 (List.cons.inj hright).1
      | cons b w =>
        rw [cons_append] at hright
        exact hopen (hclosed w v (List.cons.inj hright).2)
    · -- the marker is in the parameter
      have hmem : closing ∈ dollar :: opening :: v := by
        rw [hright]
        simp
      simp [hmarker.1, hmarker.2, hopen] at hmem

theorem not_closed_of_unclosed {t : CStr} (h : closing ∉ t) :
    ¬ Closed (dollar :: opening :: t) := by
  intro hclosed
  exact h (hclosed [] t rfl)

/-! ## The loop -/

theorem charAt_drop (t : CStr) (i k : Nat) : CStr.charAt (t.drop i) k = t.charAt (i + k) := by
  simp [charAt, getD_eq_getElem?_getD]

section Loop

variable {rows : List (Option KeyValue)} {t : CStr}

theorem content_value {key : CStr} (hnul : 0 ∉ key) (hstar : star ∉ key) {mb : MemBuffer}
    (h : mb.WF) :
    ∃ mb', (match rowGetByKey rows key with
        | some item =>
          if item.value.getD 0 0 ≠ 0 ∧ 0 < item.valueSz then
            mb.add (item.value.take item.valueSz)
          else mb.putNULLTerminator
        | none => mb.putNULLTerminator) = mb' ∧
      mb'.WF ∧ content mb' = content mb ++ valueOf rows key := by
  refine ⟨_, rfl, ?_⟩
  have hnothing := And.intro (wf_putNULLTerminator h) (content_putNULLTerminator h)
  rw [rowGetByKey_eq hnul hstar, valueOf]
  cases (rows.filterMap id).find? (isOf key) with
  | none => simpa using hnothing
  | some item =>
    simp only
    by_cases hzero : item.value.getD 0 0 = 0
    · rw [if_neg fun hval => hval.1 hzero, if_pos hzero, append_nil]
      exact hnothing
    · rw [if_neg hzero]
      by_cases hsize : 0 < item.valueSz
      · rw [if_pos ⟨hzero, hsize⟩]
        exact ⟨h.add _, MemBuffer.take_add h _⟩
      · have hnil : item.valueSz = 0 := Nat.eq_zero_of_not_pos hsize
        rw [if_neg fun hval => hsize hval.2, hnil, take_zero, append_nil]
        exact hnothing

theorem interpTplLoop_marker {rest : CStr} {i fuel : Nat} {mb : MemBuffer}
    (hrest : t.drop i = dollar :: opening :: rest) :
    interpTplLoop rows t t.length (fuel + 1) .readingText i mb =
      interpTplLoop rows t t.length fuel .readingParam (i + 2) mb := by
  have hlength := congrArg List.length hrest
  simp only [length_drop, length_cons] at hlength
  have hfirst : t.charAt i = dollar := by rw [← Nat.add_zero i, ← charAt_drop, hrest]; rfl
  have hnext : t.charAt (i + 1) = opening := by rw [← charAt_drop, hrest]; rfl
  rw [interpTplLoop, if_pos (by omega)]
  simp only [hfirst, hnext, and_self, if_true]

/-- From a place in the text on, what is added is what the rest of the template stands for if
all of it is closed, and less if not. -/
theorem interpTplLoop_renders (hnul : 0 ∉ t) {rest : CStr} {out : List UInt8}
    (h : Renders (valueOf rows) rest out) : ∀ (i fuel : Nat) (mb : MemBuffer),
    t.drop i = rest → rest.length < fuel → mb.WF →
    ∃ mb' out', interpTplLoop rows t t.length fuel .readingText i mb = some mb' ∧
      content mb' = content mb ++ out' ∧ (Closed rest → out' = out) ∧
      (¬ Closed rest → out'.length < out.length) := by
  induction h with
  | nil =>
    intro i fuel mb hrest hfuel hwf
    obtain ⟨fuel, rfl⟩ := Nat.exists_eq_succ_of_ne_zero (Nat.ne_zero_of_lt hfuel)
    have hend : t.length ≤ i := drop_eq_nil_iff.mp hrest
    have hclosed : Closed [] := by
      intro u v heq
      simp at heq
    refine ⟨mb, [], ?_, (append_nil _).symm, fun _ => rfl, fun hopen => absurd hclosed hopen⟩
    rw [interpTplLoop, if_neg (by omega)]
  | @text c rest out hmarker _ ih =>
    intro i fuel mb hrest hfuel hwf
    obtain ⟨fuel, rfl⟩ := Nat.exists_eq_succ_of_ne_zero (Nat.ne_zero_of_lt hfuel)
    have hlength := congrArg List.length hrest
    simp only [length_drop, length_cons] at hlength hfuel
    have hdrop : t.drop (i + 1) = rest := by
      rw [← drop_drop, hrest, drop_one, tail_cons]
    have hfirst : t.charAt i = c := by
      rw [← Nat.add_zero i, ← charAt_drop, hrest]
      rfl
    have hno : ¬ (t.charAt i = dollar ∧ t.charAt (i + 1) = opening) := by
      intro hboth
      apply hmarker
      rw [hfirst, ← charAt_drop, hrest] at hboth
      cases rest with
      | nil =>
        have hzero : (0 : UInt8) ≠ opening := by decide
        exact (hzero hboth.2).elim
      | cons b rest =>
        obtain ⟨hc, hb⟩ := hboth
        have hb' : b = opening := hb
        exact ⟨rest, by rw [hc, hb']; rfl⟩
    obtain ⟨mb', out', hloop, hcontent, hclosed, hopen⟩ :=
      ih (i + 1) fuel (mb.add [c]) hdrop (by omega) (hwf.add [c])
    have hadded : content (mb.add [c]) = content mb ++ [c] := MemBuffer.take_add hwf [c]
    refine ⟨mb', c :: out', ?_, ?_, ?_, ?_⟩
    · rw [interpTplLoop, if_pos (by omega)]
      rw [if_neg hno, hfirst]
      exact hloop
    · rw [hcontent, hadded, append_assoc]
      rfl
    · intro hall
      rw [hclosed ((closed_text hmarker).mp hall)]
    · intro hnot
      have hshort := hopen fun hall => hnot ((closed_text hmarker).mpr hall)
      simp only [length_cons]
      omega
  | @param key rest out hkey hstar hnumber _ ih =>
    intro i fuel mb hrest hfuel hwf
    obtain ⟨fuel, rfl⟩ : ∃ k, fuel = k + 2 := ⟨fuel - 2, by
      simp only [length_cons] at hfuel
      omega⟩
    have hlength := congrArg List.length hrest
    simp only [length_drop, length_cons, length_append] at hlength hfuel
    have hparam : t.drop (i + 2) = key ++ closing :: rest := by
      rw [← drop_drop, hrest]
      rfl
    have hkeynul : 0 ∉ key := by
      intro hmem
      apply hnul
      apply mem_of_mem_drop
      rw [hparam]
      simp [hmem]
    have htake : (key ++ closing :: rest).takeWhile (fun b => decide (b ≠ closing ∧ b ≠ 0)) =
        key := by
      rw [takeWhile_append_of_pos]
      · simp
      · intro b hb
        have hb₁ : b ≠ closing := fun heq => hkey (heq ▸ hb)
        have hb₂ : b ≠ 0 := fun heq => hkeynul (heq ▸ hb)
        simp [hb₁, hb₂]
    have hend : t.charAt (i + 2 + key.length) = closing := by
      rw [← charAt_drop, hparam, charAt, getD_eq_getElem?_getD,
        getElem?_append_right (Nat.le_refl _), Nat.sub_self]
      rfl
    have hplain : ¬ (7 < key.length ∧ strncmpEq (key ++ closing :: rest) numberPrefix 7 = true) := by
      intro hboth
      apply hnumber
      rw [strncmpEq_comm] at hboth
      have hprefix := (@strncmpEq_iff numberPrefix (by decide) _).mp hboth.2
      exact prefix_of_prefix_length_le hprefix (prefix_append _ _)
        (Nat.le_of_lt hboth.1)
    have hdrop : t.drop (i + 2 + key.length + 1) = rest := by
      rw [Nat.add_assoc, ← drop_drop, hparam, ← drop_drop, drop_left]
      rfl
    obtain ⟨mb₁, hvalue, hwf₁, hcontent₁⟩ := @content_value rows key hkeynul hstar mb hwf
    obtain ⟨mb', out', hloop, hcontent, hclosed, hopen⟩ :=
      ih (i + 2 + key.length + 1) fuel mb₁ hdrop (by omega) hwf₁
    refine ⟨mb', valueOf rows key ++ out', ?_, ?_, ?_, ?_⟩
    · rw [interpTplLoop_marker hrest, interpTplLoop, if_pos (by omega)]
      simp only [hparam, htake, hend, ne_eq, not_true_eq_false, if_false, if_neg hplain, hvalue]
      exact hloop
    · rw [hcontent, hcontent₁, append_assoc]
    · intro hall
      rw [hclosed (closed_param.mp hall)]
    · intro hnot
      have hshort := hopen fun hall => hnot (closed_param.mpr hall)
      simp only [length_append]
      omega
  | @unclosed rest hclosing =>
    intro i fuel mb hrest hfuel hwf
    obtain ⟨fuel, rfl⟩ : ∃ k, fuel = k + 2 := ⟨fuel - 2, by
      simp only [length_cons] at hfuel
      omega⟩
    have hlength := congrArg List.length hrest
    simp only [length_drop, length_cons] at hlength hfuel
    have hnot := not_closed_of_unclosed hclosing
    have hparam : t.drop (i + 2) = rest := by
      rw [← drop_drop, hrest]
      rfl
    rw [interpTplLoop_marker hrest, interpTplLoop]
    by_cases hmore : ((i + 2 : Nat) : Int) < t.length
    · have htake : rest.takeWhile (fun b => decide (b ≠ closing ∧ b ≠ 0)) = rest := by
        apply takeWhile_eq_self_iff.mpr
        intro b hb
        have hb₁ : b ≠ closing := fun heq => hclosing (heq ▸ hb)
        have hb₂ : b ≠ 0 := by
          intro heq
          apply hnul
          apply mem_of_mem_drop
          rw [hparam]
          exact heq ▸ hb
        simp [hb₁, hb₂]
      have hend : t.charAt (i + 2 + rest.length) ≠ closing := by
        rw [charAt, getD_eq_getElem?_getD, getElem?_eq_none (by omega)]
        decide
      obtain ⟨front, hfront⟩ : ∃ front, t.take ((t.length : Int) - ((i + 2 : Nat) + 1)).toNat =
        front := ⟨_, rfl⟩
      have hfirst := MemBuffer.take_add hwf [dollar, opening]
      have hsecond := MemBuffer.take_add (hwf.add [dollar, opening]) front
      refine ⟨(mb.add [dollar, opening]).add front, [dollar, opening] ++ front, ?_, ?_, ?_, ?_⟩
      · rw [if_pos hmore]
        simp only [hparam, htake, hend, hfront, ne_eq, not_false_eq_true, if_true]
      · rw [content, hsecond, hfirst, append_assoc]
        rfl
      · intro hall
        exact absurd hall hnot
      · intro _
        rw [← hfront]
        simp only [length_append, length_take, length_cons, length_nil]
        omega
    · refine ⟨mb, [], ?_, (append_nil _).symm, ?_, ?_⟩
      · rw [if_neg hmore]
      · intro hall
        exact absurd hall hnot
      · intro _
        simp

end Loop

/-- The row of `name`. -/
def nameRow : Option KeyValue :=
  some ⟨['n', 'a', 'm', 'e'].map Char.toUInt8, 4, ['B', 'o', 'b'].map Char.toUInt8, 3⟩

/-- `a${name}`. -/
def closedTpl : CStr := ['a', '$', '{', 'n', 'a', 'm', 'e', '}'].map Char.toUInt8

/-- `ab${cd`. -/
def openTpl : CStr := ['a', 'b', '$', '{', 'c', 'd'].map Char.toUInt8

end KeyValue

end BrbData
