import Mathlib.Algebra.GroupWithZero.Nat
import BrbFramework.Data.StringArrayWalk

/-!
# The configuration scanner

`BrbJsonParseConfigString` goes through its input line by line and keeps the nesting in an
array of 64 values. Behind a line it goes on after the byte that ended it, which may be the
zero that ends the input. Each line is changed where it lies, but only up to its end, and the
values that are made do not decide where the scanner goes: both are left out.

A pointer is what is left of the memory. The counts are `int`s.
-/

namespace BrbData

namespace JsonConfig

open StringArray List

abbrev lineFeed : UInt8 := '\n'.toUInt8

abbrev carriageReturn : UInt8 := '\r'.toUInt8

def isBreak (c : UInt8) : Bool := c == lineFeed || c == carriageReturn

def isBlank (c : UInt8) : Bool := c == ' '.toUInt8 || c == '\t'.toUInt8

def isText (c : UInt8) : Bool := c != 0 && c != lineFeed

/-- The bytes that are passed over from a pointer on. It fails where it leaves the memory. -/
def spanBytes (p : UInt8 → Bool) : List UInt8 → Option (CStr × List UInt8)
  | [] => none
  | c :: linePtr =>
    if p c then (spanBytes p linePtr).map fun found => (c :: found.1, found.2)
    else some ([], c :: linePtr)

/-- `BRBCFG_TRIM_BACK`. -/
def trimBack (line : CStr) : CStr :=
  (line.reverse.dropWhile fun c => isBlank c || isBreak c).reverse

def popLoop (indentLevel : Nat) : Nat → Option Nat
  | 0 => some 0
  | stackSz + 1 =>
    if indentLevel < stackSz + 1 then
      if stackSz < 64 then popLoop indentLevel stackSz else none
    else some (stackSz + 1)

/-- What a line does to `stack_sz`. It fails where `stack_val` is left. -/
def nest (stackSz indentLevel : Nat) (line : CStr) : Option Nat :=
  match line.head? with
  | none => some stackSz
  | some c =>
    if c = '#'.toUInt8 then some stackSz
    else if c = '!'.toUInt8 then
      if stackSz = 0 then none
      else
        let stackSz := if 0 < stackSz - 1 then stackSz - 1 - 1 else stackSz - 1
        if stackSz < 64 then some stackSz else none
    else if stackSz < indentLevel then
      if stackSz < 64 ∧ stackSz + 1 < 64 then some (stackSz + 1 + 1) else none
    else popLoop indentLevel stackSz

/-- The loop over the lines. It fails behind the end of the memory, outside `stack_val`, where
a count overflows, and where `fuel` is used up. -/
def parseLoop : Nat → List UInt8 → Nat → Option Nat
  | 0, _, _ => none
  | fuel + 1, linePtr, stackSz => do
    if (← linePtr.head?) = 0 then some stackSz
    else do
      let (_, linePtr) ← spanBytes isBreak linePtr
      let (blanks, linePtr) ← spanBytes isBlank linePtr
      let (line, endPtr) ← spanBytes isText linePtr
      if 2 ^ 31 ≤ blanks.length ∨ 2 ^ 31 ≤ line.length then none
      else do
        let stackSz ← nest stackSz blanks.length (trimBack line)
        parseLoop fuel (endPtr.drop 1) stackSz

/-- `BrbJsonParseConfigString`. -/
def parseConfigString (buffer : CStr) : Option Nat :=
  parseLoop (buffer.length + 1) (buffer ++ [0]) 0

/-! ## Lines -/

def indentOf (line : CStr) : CStr := (line.dropWhile (· == carriageReturn)).takeWhile isBlank

def textOf (line : CStr) : CStr := (line.dropWhile (· == carriageReturn)).dropWhile isBlank

/-- The input is empty, or its last line has a line break, and is not empty but for carriage
returns. -/
def EndsLine (lines : List CStr) : Prop :=
  lines = [[]] ∨ ∃ front line, lines = front ++ [line, []] ∧ ∃ c ∈ line, c ≠ carriageReturn

/-- The lines nest: no block is ended outside one, and there is room for each that begins. -/
def Nested : Nat → List CStr → Prop
  | _, [] => True
  | depth, line :: lines =>
    match (trimBack (textOf line)).head? with
    | none => Nested depth lines
    | some c =>
      if c = '#'.toUInt8 then Nested depth lines
      else if c = '!'.toUInt8 then 0 < depth ∧ Nested (depth - 2) lines
      else if depth < (indentOf line).length then depth ≤ 62 ∧ Nested (depth + 2) lines
      else Nested (indentOf line).length lines

def Short (line : CStr) : Prop :=
  (indentOf line).length < 2 ^ 31 ∧ (textOf line).length < 2 ^ 31

structure Safe (buffer : CStr) : Prop where
  ends : EndsLine (bytePieces lineFeed [] buffer)
  nested : Nested 0 (bytePieces lineFeed [] buffer)
  short : ∀ line ∈ bytePieces lineFeed [] buffer, Short line

section Lines

variable {p q : UInt8 → Bool}

theorem spanBytes_eq (hzero : p 0 = false) (body : CStr) :
    spanBytes p (body ++ [0]) = some (body.takeWhile p, body.dropWhile p ++ [0]) := by
  induction body with
  | nil => simp [spanBytes, hzero]
  | cons c body ih =>
    rw [cons_append, spanBytes, ih]
    by_cases hc : p c = true
    · simp [hc]
    · simp [hc]

theorem span_subset (hsub : ∀ c, p c = true → q c = true) (body : CStr) :
    (body.takeWhile q).takeWhile p = body.takeWhile p ∧
      (body.takeWhile q).dropWhile p = (body.dropWhile p).takeWhile q ∧
      (body.dropWhile p).dropWhile q = body.dropWhile q := by
  induction body with
  | nil => exact ⟨rfl, rfl, rfl⟩
  | cons c body ih =>
    by_cases hp : p c = true
    · have hq := hsub c hp
      simpa [hp, hq] using ih
    · by_cases hq : q c = true
      · simp [hp, hq]
      · simp [hp, hq]

theorem isText_of_isBlank (c : UInt8) (h : isBlank c = true) : isText c = true := by
  rcases Bool.or_eq_true_iff.mp h with hc | hc
  · rw [beq_iff_eq.mp hc]
    decide
  · rw [beq_iff_eq.mp hc]
    decide

theorem span_line {line rest : CStr} (hzero : 0 ∉ line) (hline : lineFeed ∉ line)
    (hrest : ∀ c ∈ rest.head?, c = lineFeed) :
    (line ++ rest).takeWhile isText = line ∧ (line ++ rest).dropWhile isText = rest := by
  have htext : ∀ c ∈ line, isText c = true := by
    intro c hc
    have hne : c ≠ 0 := ne_of_mem_of_not_mem hc hzero
    have hfeed : c ≠ lineFeed := ne_of_mem_of_not_mem hc hline
    simp [isText, hne, hfeed]
  have hstop : rest.takeWhile isText = [] ∧ rest.dropWhile isText = rest := by
    cases rest with
    | nil => exact ⟨rfl, rfl⟩
    | cons c rest =>
      obtain rfl : c = lineFeed := hrest c rfl
      exact ⟨rfl, rfl⟩
  rw [takeWhile_append_of_pos htext, dropWhile_append_of_pos htext, hstop.1, hstop.2,
    append_nil]
  exact ⟨rfl, rfl⟩

theorem bytePieces_front (d : UInt8) (rest : CStr) : ∃ line lines, ∀ piece : CStr,
    bytePieces d piece rest = (piece ++ line) :: lines := by
  by_cases hmem : d ∈ rest
  · obtain ⟨line, back, rfl, hline⟩ := eq_append_cons_of_mem hmem
    exact ⟨line, _, bytePieces_append hline back⟩
  · exact ⟨rest, [], bytePieces_of_notMem rest hmem⟩

theorem bytePieces_ne {d : UInt8} {rest : CStr} (hrest : rest ≠ []) :
    bytePieces d [] rest ≠ [[]] := by
  intro heq
  have hlength := length_bytePieces (d := d) rest []
  rw [heq, length_singleton] at hlength
  have hmem : d ∉ rest := count_eq_zero.mp (by omega)
  rw [bytePieces_of_notMem rest hmem, nil_append] at heq
  exact hrest (singleton_inj.mp heq)

/-! ## The end of the input -/

theorem endsLine_singleton {line : CStr} : EndsLine [line] ↔ line = [] := by
  constructor
  · rintro (hline | ⟨front, line', heq, -⟩)
    · exact singleton_inj.mp hline
    · have hlength := congrArg List.length heq
      simp at hlength
  · intro hline
    exact .inl (by rw [hline])

theorem endsLine_cons {line : CStr} {lines : List CStr} (hlines : lines ≠ []) :
    EndsLine (line :: lines) ↔
      (lines = [[]] ∧ ∃ c ∈ line, c ≠ carriageReturn) ∨ (lines ≠ [[]] ∧ EndsLine lines) := by
  constructor
  · rintro (heq | ⟨front, line', heq, hbyte⟩)
    · exact absurd (List.cons.inj heq).2 hlines
    · cases front with
      | nil =>
        obtain ⟨rfl, rfl⟩ := List.cons.inj heq
        exact .inl ⟨rfl, hbyte⟩
      | cons _ front =>
        obtain ⟨rfl, rfl⟩ := List.cons.inj heq
        refine .inr ⟨?_, .inr ⟨front, line', rfl, hbyte⟩⟩
        intro heq
        have hlength := congrArg List.length heq
        simp at hlength
  · rintro (⟨rfl, hbyte⟩ | ⟨hne, hend | ⟨front, line', rfl, hbyte⟩⟩)
    · exact .inr ⟨[], line, rfl, hbyte⟩
    · exact absurd hend hne
    · exact .inr ⟨line :: front, line', rfl, hbyte⟩

theorem endsLine_line {line : CStr} {lines : List CStr} (hlines : lines ≠ [])
    (hbyte : ∃ c ∈ line, c ≠ carriageReturn) : EndsLine (line :: lines) ↔ EndsLine lines := by
  rw [endsLine_cons hlines]
  by_cases heq : lines = [[]]
  · simp only [heq, hbyte, true_and, ne_eq, not_true_eq_false, false_and, or_false]
    exact iff_of_true trivial (.inl rfl)
  · simp only [heq, ne_eq, not_false_eq_true, true_and, false_and, false_or]

theorem not_endsLine_byte (c : UInt8) : ¬ EndsLine (bytePieces lineFeed [] [c]) := by
  by_cases hfeed : c = lineFeed
  · rw [bytePieces, if_pos hfeed, bytePieces, endsLine_cons (cons_ne_nil _ _)]
    simp
  · rw [bytePieces, if_neg hfeed, bytePieces, endsLine_singleton]
    simp

/-! ## The nesting -/

theorem popLoop_eq {indentLevel : Nat} (stackSz : Nat) (hle : indentLevel ≤ stackSz)
    (hstack : stackSz ≤ 64) : popLoop indentLevel stackSz = some indentLevel := by
  induction stackSz with
  | zero =>
    obtain rfl := Nat.le_zero.mp hle
    rfl
  | succ stackSz ih =>
    rw [popLoop]
    by_cases hlt : indentLevel < stackSz + 1
    · rw [if_pos hlt, if_pos (by omega), ih (by omega) (by omega)]
    · rw [if_neg hlt, show indentLevel = stackSz + 1 by omega]

theorem nested_cons {depth : Nat} (hdepth : depth ≤ 64) (line : CStr) (lines : List CStr) :
    (∀ after, nest depth (indentOf line).length (trimBack (textOf line)) = some after →
      after ≤ 64) ∧
    (Nested depth (line :: lines) ↔
      ∃ after, nest depth (indentOf line).length (trimBack (textOf line)) = some after ∧
        Nested after lines) := by
  have hsome : ∀ after ≤ 64, (∀ after', some after = some after' → after' ≤ 64) ∧
      (Nested after lines ↔ ∃ after', some after = some after' ∧ Nested after' lines) := by
    intro after hafter
    simp [hafter]
  rw [Nested, nest]
  cases (trimBack (textOf line)).head? with
  | none => exact hsome depth hdepth
  | some c =>
    simp only
    by_cases hcomment : c = '#'.toUInt8
    · rw [if_pos hcomment, if_pos hcomment]
      exact hsome depth hdepth
    rw [if_neg hcomment, if_neg hcomment]
    by_cases hend : c = '!'.toUInt8
    · rw [if_pos hend, if_pos hend]
      by_cases hzero : depth = 0
      · simp [hzero]
      · have hpop : (if 0 < depth - 1 then depth - 1 - 1 else depth - 1) = depth - 2 := by
          by_cases hpos : 0 < depth - 1
          · rw [if_pos hpos]
            omega
          · rw [if_neg hpos]
            omega
        rw [if_neg hzero, hpop, if_pos (by omega), and_iff_right (Nat.pos_of_ne_zero hzero)]
        exact hsome (depth - 2) (by omega)
    rw [if_neg hend, if_neg hend]
    by_cases hdeeper : depth < (indentOf line).length
    · rw [if_pos hdeeper, if_pos hdeeper]
      by_cases hroom : depth ≤ 62
      · rw [if_pos (by omega), and_iff_right hroom]
        exact hsome (depth + 1 + 1) (by omega)
      · rw [if_neg (by omega)]
        simp [hroom]
    · rw [if_neg hdeeper, if_neg hdeeper, popLoop_eq depth (by omega) hdepth]
      exact hsome _ (by omega)

end Lines

/-! ## The scanner -/

section Scan

variable {fuel stackSz : Nat}

theorem parseLoop_text {body : CStr} (hbody : body ≠ []) (hzero : 0 ∉ body) :
    parseLoop (fuel + 1) (body ++ [0]) stackSz =
      (let text := body.dropWhile isBreak
        if 2 ^ 31 ≤ (text.takeWhile isBlank).length ∨
            2 ^ 31 ≤ ((text.dropWhile isBlank).takeWhile isText).length then none
        else
          (nest stackSz (text.takeWhile isBlank).length
            (trimBack ((text.dropWhile isBlank).takeWhile isText))).bind fun stackSz =>
              parseLoop fuel ((text.dropWhile isText ++ [0]).drop 1) stackSz) := by
  obtain ⟨c, body, rfl⟩ := exists_cons_of_ne_nil hbody
  have hc : c ≠ 0 := fun hc => hzero (by simp [hc])
  rw [parseLoop, spanBytes_eq (by decide)]
  simp only [cons_append, head?_cons, Option.bind_eq_bind, Option.bind_some, if_neg hc]
  rw [spanBytes_eq (by decide), Option.bind_some, spanBytes_eq (by decide), Option.bind_some,
    (span_subset isText_of_isBlank _).2.2]

theorem parseLoop_break {c : UInt8} {body : CStr} (hc : isBreak c = true) (hbody : body ≠ [])
    (hzero : 0 ∉ c :: body) :
    parseLoop (fuel + 1) (c :: body ++ [0]) stackSz =
      parseLoop (fuel + 1) (body ++ [0]) stackSz := by
  have htail : 0 ∉ body := fun hmem => hzero (mem_cons_of_mem _ hmem)
  rw [parseLoop_text (cons_ne_nil _ _) hzero, parseLoop_text hbody htail,
    dropWhile_cons_of_pos hc]

theorem parseLoop_nil : parseLoop fuel [] stackSz = none := by
  cases fuel with
  | zero => rfl
  | succ fuel => rfl

theorem parseLoop_last {c : UInt8} (hc : isBreak c = true) :
    parseLoop (fuel + 1) ([c] ++ [0]) stackSz = none := by
  have hzero : 0 ∉ [c] := by
    rw [mem_singleton]
    rintro rfl
    exact absurd hc (by decide)
  rw [parseLoop_text (cons_ne_nil _ _) hzero, dropWhile_cons_of_pos hc]
  simp [parseLoop_nil]

theorem parseLoop_line {c : UInt8} {line rest : CStr} (hc : ¬ isBreak c = true)
    (hzero : 0 ∉ c :: line ++ rest) (hline : lineFeed ∉ c :: line)
    (hrest : ∀ c ∈ rest.head?, c = lineFeed) :
    (∃ n, parseLoop (fuel + 1) (c :: line ++ rest ++ [0]) stackSz = some n) ↔
      Short (c :: line) ∧
        ∃ after, nest stackSz (indentOf (c :: line)).length (trimBack (textOf (c :: line))) =
            some after ∧
          ∃ n, parseLoop fuel ((rest ++ [0]).drop 1) after = some n := by
  have hzeroLine : 0 ∉ c :: line := fun hmem => hzero (mem_append_left _ hmem)
  have hspan := span_line hzeroLine hline hrest
  have hsub := span_subset isText_of_isBlank (c :: line ++ rest)
  rw [hspan.1, hspan.2] at hsub
  have hreturn : ¬ (c == carriageReturn) = true := by
    intro hreturn
    exact hc (by simp [isBreak, hreturn])
  have hdrop : (c :: line).dropWhile (· == carriageReturn) = c :: line :=
    dropWhile_cons_of_neg hreturn
  have hindent : indentOf (c :: line) = (c :: line ++ rest).takeWhile isBlank := by
    rw [indentOf, hdrop, hsub.1]
  have htext : textOf (c :: line) = ((c :: line ++ rest).dropWhile isBlank).takeWhile isText := by
    rw [textOf, hdrop, hsub.2.1]
  rw [@parseLoop_text fuel stackSz (c :: line ++ rest) (by simp) hzero, Short, hindent, htext]
  simp only [cons_append, dropWhile_cons_of_neg hc]
  rw [← cons_append, hspan.2]
  by_cases hshort : 2 ^ 31 ≤ ((c :: line ++ rest).takeWhile isBlank).length ∨
      2 ^ 31 ≤ (((c :: line ++ rest).dropWhile isBlank).takeWhile isText).length
  · rw [if_pos hshort]
    constructor
    · rintro ⟨n, hn⟩
      exact absurd hn (Option.some_ne_none n).symm
    · rintro ⟨⟨_, _⟩, -⟩
      omega
  · rw [if_neg hshort]
    simp only [Option.bind_eq_some_iff]
    constructor
    · rintro ⟨n, after, hafter, hn⟩
      exact ⟨⟨by omega, by omega⟩, after, hafter, n, hn⟩
    · rintro ⟨-, after, hafter, n, hn⟩
      exact ⟨n, after, hafter, hn⟩

theorem lines_break {c : UInt8} {body : CStr} (hc : isBreak c = true) (hbody : body ≠ []) :
    (EndsLine (bytePieces lineFeed [] (c :: body)) ↔ EndsLine (bytePieces lineFeed [] body)) ∧
      (Nested stackSz (bytePieces lineFeed [] (c :: body)) ↔
        Nested stackSz (bytePieces lineFeed [] body)) ∧
      ((∀ line ∈ bytePieces lineFeed [] (c :: body), Short line) ↔
        ∀ line ∈ bytePieces lineFeed [] body, Short line) := by
  have hne := @bytePieces_ne lineFeed body hbody
  by_cases hfeed : c = lineFeed
  · have hnested : Nested stackSz ([] :: bytePieces lineFeed [] body) ↔
        Nested stackSz (bytePieces lineFeed [] body) := Iff.rfl
    have hshort : Short [] := ⟨by decide, by decide⟩
    rw [bytePieces, if_pos hfeed, endsLine_cons (bytePieces_ne_nil _ _), hnested,
      forall_mem_cons]
    simp [hne, hshort]
  · have hreturn : c = carriageReturn := by
      simpa [isBreak, hfeed] using hc
    obtain ⟨line, lines, hpieces⟩ := bytePieces_front lineFeed body
    rw [hpieces] at hne
    rw [bytePieces, if_neg hfeed, hpieces, hpieces, hreturn]
    refine ⟨?_, Iff.rfl, ?_⟩
    · cases lines with
      | nil => simpa [endsLine_singleton] using hne
      | cons line' lines =>
        simp [endsLine_cons]
    · rw [forall_mem_cons, forall_mem_cons]
      exact Iff.rfl

theorem parseLoop_iff (fuel : Nat) : ∀ (body : CStr) (stackSz : Nat), body.length < fuel →
    0 ∉ body → stackSz ≤ 64 →
    ((∃ n, parseLoop fuel (body ++ [0]) stackSz = some n) ↔
      EndsLine (bytePieces lineFeed [] body) ∧ Nested stackSz (bytePieces lineFeed [] body) ∧
        ∀ line ∈ bytePieces lineFeed [] body, Short line) := by
  induction fuel with
  | zero =>
    intro body stackSz hlength
    omega
  | succ fuel ih =>
    intro body stackSz hlength hzero hstack
    induction body with
    | nil =>
      have hends : EndsLine [[]] := .inl rfl
      have hnested : Nested stackSz [[]] := trivial
      simp [bytePieces, parseLoop, hends, hnested, Short, indentOf, textOf]
    | cons c body ihbody =>
      have hlength' : body.length < fuel := by
        rw [length_cons] at hlength
        omega
      by_cases hc : isBreak c = true
      · by_cases hbody : body = []
        · rw [hbody, parseLoop_last hc]
          simp [not_endsLine_byte]
        · have hlines := @lines_break stackSz c body hc hbody
          rw [parseLoop_break hc hbody hzero, hlines.1, hlines.2.1, hlines.2.2]
          exact ihbody (by omega) fun hmem => hzero (mem_cons_of_mem _ hmem)
      · have hfeed : lineFeed ≠ c := by
          rintro rfl
          exact hc (by decide)
        by_cases hmem : lineFeed ∈ body
        · obtain ⟨line, rest, rfl, hline⟩ := eq_append_cons_of_mem hmem
          have hlineAll : lineFeed ∉ c :: line := not_mem_cons_of_ne_of_not_mem hfeed hline
          have hpieces : bytePieces lineFeed [] (c :: (line ++ lineFeed :: rest)) =
              (c :: line) :: bytePieces lineFeed [] rest := bytePieces_append hlineAll rest []
          have hbyte : ∃ b ∈ c :: line, b ≠ carriageReturn :=
            ⟨c, mem_cons_self, fun heq => hc (by simp [isBreak, heq])⟩
          have hnested := nested_cons hstack (c :: line) (bytePieces lineFeed [] rest)
          have hrest : ∀ after ≤ 64, _ := fun after hafter => ih rest after
            (by simp at hlength'; omega) (fun hmem => hzero (by simp [hmem])) hafter
          rw [hpieces, endsLine_line (bytePieces_ne_nil _ _) hbyte, hnested.2,
            forall_mem_cons]
          refine (parseLoop_line hc hzero hlineAll (by simp)).trans ?_
          constructor
          · rintro ⟨hshort, after, hafter, hn⟩
            have hlines := (hrest after (hnested.1 after hafter)).mp hn
            exact ⟨hlines.1, ⟨after, hafter, hlines.2.1⟩, hshort, hlines.2.2⟩
          · rintro ⟨hlast, ⟨after, hafter, hlines⟩, hshort, hall⟩
            exact ⟨hshort, after, hafter,
              (hrest after (hnested.1 after hafter)).mpr ⟨hlast, hlines, hall⟩⟩
        · have hlineAll : lineFeed ∉ c :: body := not_mem_cons_of_ne_of_not_mem hfeed hmem
          have hends : ¬ EndsLine [c :: body] := by
            simp [endsLine_singleton]
          have hlast := @parseLoop_line fuel stackSz c body [] hc (by simpa using hzero)
            hlineAll (by simp)
          rw [append_nil] at hlast
          rw [bytePieces_of_notMem _ hlineAll]
          refine hlast.trans ?_
          simp [hends, parseLoop_nil]

end Scan

/-- Every text with its zero is scanned to its end, with the stack in its bounds, just where its
last line is ended, its blocks nest and no count overflows. -/
theorem parse_iff (buffer : CStr) (hzero : 0 ∉ buffer) :
    (∃ n, parseConfigString buffer = some n) ↔ Safe buffer := by
  refine (parseLoop_iff _ buffer 0 (Nat.lt_succ_self _) hzero (Nat.zero_le _)).trans ?_
  constructor
  · rintro ⟨hends, hnested, hshort⟩
    exact ⟨hends, hnested, hshort⟩
  · rintro ⟨hends, hnested, hshort⟩
    exact ⟨hends, hnested, hshort⟩

/-- A block with one value in it. -/
theorem parse_iff_block :
    (∃ n, parseConfigString (['a', '\n', ' ', 'b', '=', 'c', '\n', '!', '\n'].map Char.toUInt8) =
        some n) ∧
      Safe (['a', '\n', ' ', 'b', '=', 'c', '\n', '!', '\n'].map Char.toUInt8) := by
  have hscan : ∃ n, parseConfigString
      (['a', '\n', ' ', 'b', '=', 'c', '\n', '!', '\n'].map Char.toUInt8) = some n :=
    ⟨0, by decide⟩
  exact ⟨hscan, (parse_iff _ (by decide)).mp hscan⟩

/-- A last line without a line break is left behind its zero, and an end of no block in front
of the stack. -/
theorem unended_not_parsed :
    ¬ (∃ n, parseConfigString ['a'.toUInt8] = some n) ∧
      ¬ ∃ n, parseConfigString ['!'.toUInt8, lineFeed] = some n := by
  have hlast : parseConfigString ['a'.toUInt8] = none := by decide
  have hpop : parseConfigString ['!'.toUInt8, lineFeed] = none := by decide
  simp [hlast, hpop]

end JsonConfig

end BrbData
