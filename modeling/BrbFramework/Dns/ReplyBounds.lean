import BrbFramework.Dns.PartialAnswers
import BrbFramework.Dns.Resolver

/-!
# What the parsing of a reply touches

The functions of the parser once more, with every access to the message, to the
name buffers and to the data of an answer checked before it is made, and with an
error where a loop would go on for ever. Each is proved equal to the parser's
own function, under a condition on the message, and to the error elsewhere.

Names are written inside their buffers, and names and records come to an end, in
every message. Three things are read that are not there: what lies behind the
message when a question runs out of it, the second octet of a pointer that is
cut off, and the address of an answer that is too short for one.
-/

namespace Rfc1035

open List

inductive Violation
  | read  -- an octet that is not of the message
  | write  -- an octet that is not of the name buffer
  | copy  -- an octet that is not of the answer's data
  | stuck  -- a loop that does not end
deriving DecidableEq

abbrev Checked := Except Violation

section Checked

variable (buf : Nat → UInt8) (sz : Nat)

/-- `len` octets of the message are read. -/
def reads (off len : Nat) : Checked Unit :=
  if off + len ≤ sz then pure ⟨⟩ else throw .read

/-- `len` octets of a name buffer are written. -/
def writes (pos len : Nat) : Checked Unit :=
  if pos + len ≤ maxHostNameSz then pure ⟨⟩ else throw .write

/-- The loop of `rfc1035NameUnpack`. The name begins at `base` in its buffer, and `spent` tells
that no pointer may be followed any more. -/
def labelsChecked (spent : Bool) (base ns : Nat) :
    Nat → (off no rd : Nat) → List UInt8 → Checked Labels
  | 0, _, _, _, _ => throw .stuck
  | fuel + 1, off, no, rd, name =>
      if sz ≤ off then return .bad
      else do
        reads sz off 1
        let c := (buf off).toNat
        if 191 < c then
          if spent then return .bad
          else do
            reads sz off 2
            if sz < off + 2 then return .bad
            else
              let ptr := short buf off % 0x4000
              if sz ≤ ptr then return .bad else return .jump (off + 2) ptr no rd name
        else if maxLabelSz < c then return .bad
        else if c = 0 then return .root (off + 1) no rd name
        else if ns - no - 1 < c then return .bad
        else if sz ≤ off + 1 + c then return .bad
        else do
          reads sz (off + 1) c
          writes (base + no) (c + 1)
          let name := name ++ octets buf (off + 1) c ++ [46]
          if no + c + 1 < ns then
            labelsChecked spent base ns fuel (off + 1 + c) (no + c + 1) (rd + c + 1) name
          else return .root (off + 1 + c) (no + c + 1) (rd + c + 1) name

/-- `rfc1035NameUnpack`. -/
def nameUnpackChecked :
    (depth base ns off : Nat) → Checked (Option (List UInt8 × Nat × Nat))
  | depth, base, ns, off => do
      match ← labelsChecked buf sz (decide (depth = 0)) base ns sz off 0 0 [] with
      | .bad => return none
      | .root off no rd name => do
          -- the terminator
          writes (base + (no - 1)) 1
          return some (name.dropLast, off, rd)
      | .jump off ptr no rd name =>
          match depth with
          | 0 => return none
          | depth + 1 => do
              let r ← nameUnpackChecked depth (base + no) (ns - no) ptr
              return r.map fun (rest, _, rd') => (name ++ rest, off, rd + rd')

/-- `rfc1035RRUnpack`. -/
def rrUnpackChecked (off : Nat) : Checked (Except Rr (Rr × Nat)) := do
  match ← nameUnpackChecked buf sz 65 0 maxHostNameSz off with
  | none => return .error {}
  | some (name, off, _) =>
      if sz < off + 10 then return .error {}
      else do
        reads sz off 10
        let rdlength := short buf (off + 8)
        let rr : Rr :=
          { name := name, type := short buf off, cls := short buf (off + 2)
            ttl := long buf (off + 4), rdlength := rdlength }
        let off := off + 10
        if sz < off + rdlength then return .error {}
        else if rr.type = typePtr then do
          match ← nameUnpackChecked buf sz 65 0 maxHostNameSz off with
          | none => return .error { rr with rdlength := 0 }
          | some (rdata, rdataOff, len) =>
              if off + rdlength < rdataOff then return .error {}
              else return .ok ({ rr with rdlength := len, rdata := rdata }, off + rdlength)
        else do
          reads sz off rdlength
          return .ok ({ rr with rdata := octets buf off rdlength }, off + rdlength)

def skipNameChecked : Nat → Nat → Checked Skipped
  | 0, _ => throw .stuck
  | fuel + 1, off => do
      reads sz off 1
      let l := (buf off).toNat
      if 191 < l then return .done (off + 2)
      else if maxLabelSz < l then return .illegal
      else if 0 < l then skipNameChecked fuel (off + 1 + l)
      else return .done (off + 1)

def skipQuestionsChecked : Nat → Nat → Checked Skipped
  | 0, off => return .done off
  | n + 1, off => do
      match ← skipNameChecked buf sz (2 ^ 31) off with
      | .done off => if sz < off + 4 then return .illegal else skipQuestionsChecked n (off + 4)
      | s => return s

def answersLoopChecked : (i off : Nat) → (recs : List Rr) → (nr : Nat) → Checked (List Rr × Nat)
  | 0, _, recs, nr => return (recs, nr)
  | i + 1, off, recs, nr =>
      if sz ≤ off then return (List.replicate (i + 1) {} ++ recs, nr)
      else do
        match ← rrUnpackChecked buf sz off with
        | .error rr => return (List.replicate i {} ++ rr :: recs, nr)
        | .ok (rr, off) => answersLoopChecked i off (rr :: recs) (nr + 1)

/-- `rfc1035HeaderUnpack`. -/
def headerUnpackChecked : Checked (Option Message) :=
  if sz < 12 then return none
  else do
    reads sz 0 12
    return headerUnpack buf sz

/-- `rfc1035AnswersUnpack`. -/
def answersUnpackChecked : Checked Unpacked := do
  match ← headerUnpackChecked buf sz with
  | none => return { replyCount := -unpackError }
  | some hdr =>
      if hdr.rcode ≠ 0 then return { replyCount := -hdr.rcode, id := hdr.id }
      else do
        match ← skipQuestionsChecked buf sz hdr.qdcount 12 with
        | .overrun => throw .stuck
        | .illegal => return { replyCount := -unpackError, id := hdr.id }
        | .done off =>
            if hdr.ancount = 0 then return { replyCount := 0, id := hdr.id }
            else do
              let (recs, nr) ← answersLoopChecked buf sz hdr.ancount off [] 0
              if nr = 0 then return { replyCount := -unpackError, id := hdr.id }
              else return { replyCount := nr, records := recs, id := hdr.id }

/-! ## Where the accesses stay inside -/

/-- The labels of a name lead to a pointer of which only the first octet is there. -/
def cutPointer (ns : Nat) : Nat → (off no : Nat) → Bool
  | 0, _, _ => false
  | fuel + 1, off, no =>
      if sz ≤ off then false
      else
        let c := (buf off).toNat
        if 191 < c then decide (sz < off + 2)
        else if maxLabelSz < c then false
        else if c = 0 then false
        else if ns - no - 1 < c then false
        else if sz ≤ off + 1 + c then false
        else if no + c + 1 < ns then cutPointer ns fuel (off + 1 + c) (no + c + 1)
        else false

/-- No pointer of the name that would be followed is cut off. -/
def nameInside : (depth ns off : Nat) → Bool
  | 0, _, _ => true
  | depth + 1, ns, off =>
      !cutPointer buf sz ns sz off 0 &&
        match labels buf sz ns sz off 0 0 [] with
        | .jump _ ptr no _ _ => nameInside depth (ns - no) ptr
        | _ => true

/-- The names of the record are inside, also the one that the data of a pointer record is. -/
def recordInside (off : Nat) : Bool :=
  nameInside buf sz 65 maxHostNameSz off &&
    match nameUnpack buf sz 65 maxHostNameSz off with
    | none => true
    | some (_, off, _) =>
        if sz < off + 10 then true
        else if sz < off + 10 + short buf (off + 8) then true
        else if short buf off = typePtr then nameInside buf sz 65 maxHostNameSz (off + 10)
        else true

/-- The records that are tried, of `n` from `off` on, are inside. -/
def recordsInside : (n off : Nat) → Bool
  | 0, _ => true
  | n + 1, off =>
      if sz ≤ off then true
      else
        recordInside buf sz off &&
          match rrUnpack buf sz off with
          | .error _ => true
          | .ok (_, off) => recordsInside n off

/-- The labels of a question begin inside the message. -/
def labelsInside : Nat → Nat → Bool
  | 0, _ => false
  | fuel + 1, off =>
      decide (off < sz) &&
        let l := (buf off).toNat
        if 191 < l then true
        else if maxLabelSz < l then true
        else if 0 < l then labelsInside fuel (off + 1 + l)
        else true

/-- The questions that are skipped, of `n` from `off` on, are inside. -/
def questionsInside : (n off : Nat) → Bool
  | 0, _ => true
  | n + 1, off =>
      labelsInside buf sz (2 ^ 31) off &&
        match skipName buf (2 ^ 31) off with
        | .done off => if sz < off + 4 then true else questionsInside n (off + 4)
        | _ => true

/-- The questions and the names of the answers are inside the message. -/
def replyInside : Bool :=
  match headerUnpack buf sz with
  | none => true
  | some hdr =>
      if hdr.rcode ≠ 0 then true
      else
        questionsInside buf sz hdr.qdcount 12 &&
          match skipQuestions buf sz hdr.qdcount 12 with
          | .done off => recordsInside buf sz hdr.ancount off
          | _ => true

end Checked

section Equations

variable {buf : Nat → UInt8} {sz : Nat}

theorem ok_bind {α β : Type} (a : α) (f : α → Checked β) : (Except.ok a : Checked α) >>= f = f a :=
  rfl

theorem error_bind {α β : Type} (v : Violation) (f : α → Checked β) :
    (Except.error v : Checked α) >>= f = .error v := rfl

theorem reads_eq {off len : Nat} (h : off + len ≤ sz) : reads sz off len = .ok ⟨⟩ := if_pos h

theorem reads_eq_error {off len : Nat} (h : sz < off + len) : reads sz off len = .error .read :=
  if_neg (Nat.not_le.mpr h)

theorem writes_eq {pos len : Nat} (h : pos + len ≤ maxHostNameSz) : writes pos len = .ok ⟨⟩ :=
  if_pos h

/-- A name that ends in a pointer, where no pointer may be followed. -/
def Labels.unjump : Labels → Labels
  | .jump .. => .bad
  | l => l

theorem labelsChecked_eq (spent : Bool) {base ns fuel off no : Nat}
    (hbase : base + ns ≤ maxHostNameSz) (hfuel : sz - off ≤ fuel) (hpos : 0 < fuel) (hno : no < ns)
    (rd : Nat) (name : List UInt8) :
    labelsChecked buf sz spent base ns fuel off no rd name =
      if spent then .ok (labels buf sz ns fuel off no rd name).unjump
      else if cutPointer buf sz ns fuel off no then .error .read
      else .ok (labels buf sz ns fuel off no rd name) := by
  induction fuel generalizing off no rd name with
  | zero => omega
  | succ fuel ih =>
      rw [labelsChecked, labels, cutPointer]
      by_cases hend : sz ≤ off
      · simp only [if_pos hend]
        cases spent <;> rfl
      simp only [if_neg hend]
      rw [reads_eq (by omega), ok_bind]
      obtain ⟨n, hn⟩ : ∃ n, n = (buf off).toNat := ⟨_, rfl⟩
      simp only [← hn]
      by_cases hpointer : 191 < n
      · simp only [if_pos hpointer]
        cases spent with
        | true =>
            rw [if_pos rfl, if_pos rfl]
            split
            · rfl
            · split <;> rfl
        | false =>
            by_cases hcut : sz < off + 2
            · rw [reads_eq_error hcut, error_bind, decide_eq_true hcut]
              rfl
            · rw [reads_eq (by omega), ok_bind, decide_eq_false hcut, if_neg hcut, if_neg hcut]
              by_cases hbehind : sz ≤ short buf off % 0x4000
              · simp only [if_pos hbehind]
                rfl
              · simp only [if_neg hbehind]
                rfl
      simp only [if_neg hpointer]
      by_cases hlong : maxLabelSz < n
      · simp only [if_pos hlong]
        cases spent <;> rfl
      simp only [if_neg hlong]
      by_cases hroot : n = 0
      · simp only [if_pos hroot]
        cases spent <;> rfl
      simp only [if_neg hroot]
      by_cases hfit : ns - no - 1 < n
      · simp only [if_pos hfit]
        cases spent <;> rfl
      simp only [if_neg hfit]
      by_cases hshort : sz ≤ off + 1 + n
      · simp only [if_pos hshort]
        cases spent <;> rfl
      simp only [if_neg hshort]
      rw [reads_eq (by omega), ok_bind, writes_eq (by omega), ok_bind]
      by_cases hroom : no + n + 1 < ns
      · simp only [if_pos hroom]
        exact ih (by omega) (by omega) hroom _ _
      · simp only [if_neg hroom]
        cases spent <;> rfl

/-- The labels end inside the name buffer, and in front of its end if a pointer follows. -/
def Labels.Fits (ns : Nat) : Labels → Prop
  | .bad => True
  | .root _ no _ _ => no ≤ ns
  | .jump _ _ no _ _ => no < ns

theorem labels_fits {ns fuel off no rd : Nat} {name : List UInt8} (hno : no < ns) :
    (labels buf sz ns fuel off no rd name).Fits ns := by
  induction fuel generalizing off no rd name with
  | zero => trivial
  | succ fuel ih =>
      rw [labels]
      obtain ⟨n, hn⟩ : ∃ n, n = (buf off).toNat := ⟨_, rfl⟩
      simp only [← hn]
      by_cases hend : sz ≤ off
      · rw [if_pos hend]
        trivial
      rw [if_neg hend]
      by_cases hpointer : 191 < n
      · rw [if_pos hpointer]
        split
        · trivial
        · split
          · trivial
          · exact hno
      rw [if_neg hpointer]
      by_cases hlong : maxLabelSz < n
      · rw [if_pos hlong]
        trivial
      rw [if_neg hlong]
      by_cases hroot : n = 0
      · rw [if_pos hroot]
        exact Nat.le_of_lt hno
      rw [if_neg hroot]
      by_cases hfit : ns - no - 1 < n
      · rw [if_pos hfit]
        trivial
      rw [if_neg hfit]
      by_cases hshort : sz ≤ off + 1 + n
      · rw [if_pos hshort]
        trivial
      rw [if_neg hshort]
      by_cases hroom : no + n + 1 < ns
      · rw [if_pos hroom]
        exact ih hroom
      · rw [if_neg hroom]
        change no + n + 1 ≤ ns
        omega

theorem nameUnpackChecked_eq {depth base ns off : Nat} (hbase : base + ns ≤ maxHostNameSz)
    (hns : 0 < ns) (hsz : 0 < sz) :
    nameUnpackChecked buf sz depth base ns off =
      if nameInside buf sz depth ns off then .ok (nameUnpack buf sz depth ns off)
      else .error .read := by
  induction depth generalizing base ns off with
  | zero =>
      have hfits := @labels_fits buf sz ns sz off 0 0 [] hns
      rw [nameUnpackChecked, nameUnpack, nameInside, if_pos rfl,
        labelsChecked_eq _ hbase (by omega) hsz hns, if_pos (decide_eq_true rfl), ok_bind]
      cases hlabels : labels buf sz ns sz off 0 0 [] with
      | bad => rfl
      | jump off ptr no rd name => rfl
      | root off no rd name =>
          rw [hlabels] at hfits
          simp only [Labels.unjump]
          rw [writes_eq (by change no ≤ ns at hfits; omega), ok_bind]
          rfl
  | succ depth ih =>
      have hfits := @labels_fits buf sz ns sz off 0 0 [] hns
      rw [nameUnpackChecked, nameUnpack, nameInside,
        labelsChecked_eq _ hbase (by omega) hsz hns, if_neg (by simp)]
      cases hcut : cutPointer buf sz ns sz off 0 with
      | true => rfl
      | false =>
          rw [if_neg Bool.false_ne_true, ok_bind, Bool.not_false, Bool.true_and]
          cases hlabels : labels buf sz ns sz off 0 0 [] with
          | bad => rfl
          | root off no rd name =>
              rw [hlabels] at hfits
              simp only
              rw [writes_eq (by change no ≤ ns at hfits; omega), ok_bind]
              rfl
          | jump off ptr no rd name =>
              rw [hlabels] at hfits
              change no < ns at hfits
              simp only
              rw [@ih (base + no) (ns - no) ptr (by omega) (by omega)]
              split
              · rfl
              · rfl

theorem rrUnpackChecked_eq (hsz : 0 < sz) (off : Nat) :
    rrUnpackChecked buf sz off =
      if recordInside buf sz off then .ok (rrUnpack buf sz off) else .error .read := by
  have hname (off : Nat) : nameUnpackChecked buf sz 65 0 maxHostNameSz off =
      if nameInside buf sz 65 maxHostNameSz off then
        .ok (nameUnpack buf sz 65 maxHostNameSz off) else .error .read :=
    nameUnpackChecked_eq (Nat.le_of_eq (Nat.zero_add _)) (by decide) hsz
  rw [rrUnpackChecked, recordInside, rrUnpack, hname]
  cases nameInside buf sz 65 maxHostNameSz off with
  | false => rfl
  | true =>
      rw [if_pos rfl, ok_bind, Bool.true_and]
      cases nameUnpack buf sz 65 maxHostNameSz off with
      | none => rfl
      | some r =>
          obtain ⟨name, off, len⟩ := r
          simp only
          by_cases hfields : sz < off + 10
          · simp only [if_pos hfields]
            rfl
          simp only [if_neg hfields]
          rw [reads_eq (by omega), ok_bind]
          by_cases hdata : sz < off + 10 + short buf (off + 8)
          · simp only [if_pos hdata]
            rfl
          simp only [if_neg hdata]
          by_cases hptr : short buf off = typePtr
          · simp only [if_pos hptr]
            rw [hname]
            cases nameInside buf sz 65 maxHostNameSz (off + 10) with
            | false => rfl
            | true =>
                rw [if_pos rfl, if_pos rfl, ok_bind]
                cases nameUnpack buf sz 65 maxHostNameSz (off + 10) with
                | none => rfl
                | some r =>
                    obtain ⟨rdata, rdataOff, rdlen⟩ := r
                    simp only
                    split <;> rfl
          · simp only [if_neg hptr]
            rw [reads_eq (by omega), ok_bind]
            rfl

theorem answersLoopChecked_eq (hsz : 0 < sz) (n off : Nat) (recs : List Rr) (nr : Nat) :
    answersLoopChecked buf sz n off recs nr =
      if recordsInside buf sz n off then .ok (answersLoop buf sz n off recs nr)
      else .error .read := by
  induction n generalizing off recs nr with
  | zero => rfl
  | succ n ih =>
      rw [answersLoopChecked, recordsInside, answersLoop]
      by_cases hend : sz ≤ off
      · simp only [if_pos hend]
        rfl
      simp only [if_neg hend]
      rw [rrUnpackChecked_eq hsz]
      cases recordInside buf sz off with
      | false => rfl
      | true =>
          rw [if_pos rfl, ok_bind, Bool.true_and]
          cases rrUnpack buf sz off with
          | error rr => rfl
          | ok r => exact ih r.2 _ _

theorem skipNameChecked_eq {fuel off : Nat} (hfuel : sz - off < fuel) :
    skipNameChecked buf sz fuel off =
      if labelsInside buf sz fuel off then .ok (skipName buf fuel off) else .error .read := by
  induction fuel generalizing off with
  | zero => omega
  | succ fuel ih =>
      rw [skipNameChecked, labelsInside, skipName]
      by_cases hinside : off < sz
      · rw [reads_eq (by omega), ok_bind, decide_eq_true hinside, Bool.true_and]
        obtain ⟨l, hl⟩ : ∃ l, l = (buf off).toNat := ⟨_, rfl⟩
        simp only [← hl]
        by_cases hpointer : 191 < l
        · simp only [if_pos hpointer]
          rfl
        simp only [if_neg hpointer]
        by_cases hlong : maxLabelSz < l
        · simp only [if_pos hlong]
          rfl
        simp only [if_neg hlong]
        by_cases hlabel : 0 < l
        · simp only [if_pos hlabel]
          exact ih (by omega)
        · simp only [if_neg hlabel]
          rfl
      · rw [reads_eq_error (by omega), error_bind, decide_eq_false hinside]
        rfl

theorem skipName_inside {fuel off : Nat} (h : labelsInside buf sz fuel off = true) :
    skipName buf fuel off ≠ .overrun := by
  induction fuel generalizing off with
  | zero => cases h
  | succ fuel ih =>
      rw [labelsInside, Bool.and_eq_true] at h
      have hrest := h.2
      rw [skipName]
      simp only at hrest ⊢
      split
      · nofun
      rename_i hpointer
      rw [if_neg hpointer] at hrest
      split
      · nofun
      rename_i hlong
      rw [if_neg hlong] at hrest
      split
      · rename_i hlabel
        rw [if_pos hlabel] at hrest
        exact ih hrest
      · nofun

theorem skipQuestionsChecked_eq (hsz : sz < 2 ^ 31) (n off : Nat) :
    skipQuestionsChecked buf sz n off =
      if questionsInside buf sz n off then .ok (skipQuestions buf sz n off)
      else .error .read := by
  induction n generalizing off with
  | zero => rfl
  | succ n ih =>
      rw [skipQuestionsChecked, questionsInside, skipQuestions,
        skipNameChecked_eq (by omega : sz - off < 2 ^ 31)]
      cases labelsInside buf sz (2 ^ 31) off with
      | false => rfl
      | true =>
          rw [if_pos rfl, ok_bind, Bool.true_and]
          cases skipName buf (2 ^ 31) off with
          | illegal => rfl
          | overrun => rfl
          | done off =>
              simp only
              split
              · rfl
              · exact ih _

theorem skipQuestions_inside {n off : Nat} (h : questionsInside buf sz n off = true) :
    skipQuestions buf sz n off ≠ .overrun := by
  induction n generalizing off with
  | zero => nofun
  | succ n ih =>
      rw [questionsInside, Bool.and_eq_true] at h
      have hname := skipName_inside h.1
      have hrest := h.2
      rw [skipQuestions]
      cases hskip : skipName buf (2 ^ 31) off with
      | overrun => exact absurd hskip hname
      | illegal => nofun
      | done off =>
          rw [hskip] at hrest
          simp only at hrest ⊢
          split
          · nofun
          · rename_i hroom
            rw [if_neg hroom] at hrest
            exact ih hrest

theorem answersUnpackChecked_inside (hsz : sz < 2 ^ 31) (h : replyInside buf sz = true) :
    ∃ u, answersUnpack buf sz = some u ∧ answersUnpackChecked buf sz = .ok u := by
  rw [answersUnpackChecked, headerUnpackChecked, answersUnpack]
  rw [replyInside] at h
  by_cases hshort : sz < 12
  · rw [headerUnpack_none.mpr hshort, if_pos hshort]
    exact ⟨_, rfl, rfl⟩
  rw [if_neg hshort, reads_eq (by omega), ok_bind]
  cases hhdr : headerUnpack buf sz with
  | none => exact absurd (headerUnpack_none.mp hhdr) hshort
  | some hdr =>
      simp only [hhdr, pure_bind] at h ⊢
      by_cases hrcode : hdr.rcode ≠ 0
      · simp only [if_pos hrcode]
        exact ⟨_, rfl, rfl⟩
      simp only [if_neg hrcode, Bool.and_eq_true] at h ⊢
      have hquestions := skipQuestions_inside h.1
      have hrest := h.2
      rw [skipQuestionsChecked_eq hsz, if_pos h.1, ok_bind]
      cases hskip : skipQuestions buf sz hdr.qdcount 12 with
      | overrun => exact absurd hskip hquestions
      | illegal => exact ⟨_, rfl, rfl⟩
      | done off =>
          rw [hskip] at hrest
          simp only at hrest ⊢
          by_cases hnone : hdr.ancount = 0
          · simp only [if_pos hnone]
            exact ⟨_, rfl, rfl⟩
          simp only [if_neg hnone]
          rw [answersLoopChecked_eq (by omega), if_pos hrest, ok_bind]
          split
          · exact ⟨_, rfl, rfl⟩
          · exact ⟨_, rfl, rfl⟩

theorem answersUnpackChecked_outside (hsz : sz < 2 ^ 31) (h : replyInside buf sz = false) :
    answersUnpackChecked buf sz = .error .read := by
  rw [answersUnpackChecked, headerUnpackChecked]
  rw [replyInside] at h
  by_cases hshort : sz < 12
  · rw [headerUnpack_none.mpr hshort] at h
    cases h
  rw [if_neg hshort, reads_eq (by omega), ok_bind]
  cases hhdr : headerUnpack buf sz with
  | none => exact absurd (headerUnpack_none.mp hhdr) hshort
  | some hdr =>
      simp only [hhdr, pure_bind] at h ⊢
      by_cases hrcode : hdr.rcode ≠ 0
      · rw [if_pos hrcode] at h
        cases h
      simp only [if_neg hrcode] at h ⊢
      rw [skipQuestionsChecked_eq hsz]
      cases hquestions : questionsInside buf sz hdr.qdcount 12 with
      | false => rfl
      | true =>
          rw [hquestions, Bool.true_and] at h
          rw [if_pos rfl, ok_bind]
          cases hskip : skipQuestions buf sz hdr.qdcount 12 with
          | overrun =>
              rw [hskip] at h
              cases h
          | illegal =>
              rw [hskip] at h
              cases h
          | done off =>
              rw [hskip] at h
              simp only at h ⊢
              by_cases hnone : hdr.ancount = 0
              · rw [hnone] at h
                cases h
              · simp only [if_neg hnone]
                rw [answersLoopChecked_eq (by omega), h]
                rfl

theorem rrUnpack_error_type {off : Nat} {rr : Rr} (h : rrUnpack buf sz off = .error rr) :
    rr.type = 0 ∨ rr.type = typePtr := by
  rw [rrUnpack] at h
  split at h
  · cases h
    exact .inl rfl
  · split at h
    · cases h
      exact .inl rfl
    · simp only at h
      split at h
      · cases h
        exact .inl rfl
      · split at h
        · rename_i hptr
          split at h
          · cases h
            exact .inr hptr
          · split at h
            · cases h
              exact .inl rfl
            · cases h
        · cases h

end Equations

/-- The address of an answer is as long as its type says. -/
def Rr.Whole (rr : Rr) : Prop :=
  (rr.type = typeA → 4 ≤ rr.rdata.length) ∧ (rr.type = typeAaaa → 16 ≤ rr.rdata.length)

instance (rr : Rr) : Decidable rr.Whole := inferInstanceAs (Decidable (_ ∧ _))

end Rfc1035

namespace Dns

open Rfc1035 List

/-- `len` octets are copied of an answer's data. -/
def copies (len : Nat) (rdata : List UInt8) : Checked Unit :=
  if len ≤ rdata.length then pure ⟨⟩ else throw .copy

/-- What the loop of `CommEvDNSDataEvent` copies of an answer. -/
def copyAnswer (rr : Rr) : Checked Unit :=
  if rr.type = typeA then copies 4 rr.rdata
  else if rr.type = typeAaaa then copies 16 rr.rdata
  else pure ⟨⟩

def copyAnswers : List Rr → Checked Unit
  | [] => return ⟨⟩
  | rr :: answers => do
      copyAnswer rr
      copyAnswers answers

/-- `CommEvDNSDataEvent` from the received reply to the copied answers. `inUse` tells which queries
are in use. -/
def dataEventChecked (buf : Nat → UInt8) (sz : Nat) (inUse : Nat → Bool) : Checked Unpacked := do
  let u ← answersUnpackChecked buf sz
  if inUse (replySeqId u) ∧ 0 ≤ u.replyCount then
    copyAnswers ((u.records.take u.replyCount.toNat).take (maxReplyCount - 1))
  return u

theorem copyAnswer_eq (rr : Rr) :
    copyAnswer rr = if rr.Whole then .ok ⟨⟩ else .error .copy := by
  unfold copyAnswer
  by_cases ha : rr.type = typeA
  · have hwhole : rr.Whole ↔ 4 ≤ rr.rdata.length := by
      simp [Rr.Whole, ha, typeA, typeAaaa]
    simp only [if_pos ha, hwhole]
    rfl
  rw [if_neg ha]
  by_cases haaaa : rr.type = typeAaaa
  · have hwhole : rr.Whole ↔ 16 ≤ rr.rdata.length := by
      simp [Rr.Whole, haaaa, typeA, typeAaaa]
    simp only [if_pos haaaa, hwhole]
    rfl
  · have hwhole : rr.Whole := ⟨fun h => absurd h ha, fun h => absurd h haaaa⟩
    rw [if_neg haaaa, if_pos hwhole]
    rfl

theorem copyAnswers_eq (answers : List Rr) :
    copyAnswers answers = if ∀ rr ∈ answers, rr.Whole then .ok ⟨⟩ else .error .copy := by
  induction answers with
  | nil => rfl
  | cons rr answers ih =>
      rw [copyAnswers, copyAnswer_eq, ih]
      simp only [forall_mem_cons]
      by_cases hwhole : rr.Whole
      · rw [if_pos hwhole, ok_bind]
        simp only [hwhole, true_and]
      · rw [if_neg hwhole, error_bind, if_neg fun h => hwhole h.1]

/-- The answers of which the address is copied: the last ones of the message, or all. -/
def copied (buf : Nat → UInt8) (sz n off : Nat) : List Rr :=
  (decoded buf sz n off).reverse.take
    (min (decoded buf sz n off).length (maxReplyCount - 1) - (n - (decoded buf sz n off).length))

/-- A query in use is given no address that is cut off. -/
def AddressesWhole (buf : Nat → UInt8) (sz : Nat) (inUse : Nat → Bool) : Prop :=
  match headerUnpack buf sz with
  | none => True
  | some hdr =>
      hdr.rcode = 0 → inUse hdr.id = true →
        match skipQuestions buf sz hdr.qdcount 12 with
        | .done off => ∀ rr ∈ copied buf sz hdr.ancount off, rr.Whole
        | _ => True

section Copies

variable {buf : Nat → UInt8} {sz : Nat}

theorem whole_unfilled {n off : Nat} {rr : Rr} (h : rr ∈ unfilled buf sz n off) : rr.Whole := by
  have hblank : Rr.Whole {} := by decide
  have hleft (n off : Nat) : (leftover buf sz n off).Whole := by
    induction n generalizing off with
    | zero => exact hblank
    | succ n ih =>
        rw [leftover]
        split
        · exact hblank
        · split
          · rename_i rr hrr
            rcases rrUnpack_error_type hrr with htype | htype
            · exact ⟨fun h => absurd (htype.symm.trans h) (by decide),
                fun h => absurd (htype.symm.trans h) (by decide)⟩
            · exact ⟨fun h => absurd (htype.symm.trans h) (by decide),
                fun h => absurd (htype.symm.trans h) (by decide)⟩
          · exact ih _
  unfold unfilled at h
  split at h
  · cases h
  · rcases mem_append.mp h with hrep | hlast
    · rw [eq_of_mem_replicate hrep]
      exact hblank
    · rw [mem_singleton.mp hlast]
      exact hleft n off

theorem whole_read_iff (n off : Nat) :
    (∀ rr ∈ ((unfilled buf sz n off ++ (decoded buf sz n off).reverse).take
      (decoded buf sz n off).length).take (maxReplyCount - 1), rr.Whole) ↔
      ∀ rr ∈ copied buf sz n off, rr.Whole := by
  rw [take_take, Nat.min_comm, take_append, length_unfilled, forall_mem_append,
    copied]
  exact and_iff_right fun rr hrr => whole_unfilled (mem_of_mem_take hrr)

theorem copy_answersUnpack (inUse : Nat → Bool) {u : Unpacked}
    (hu : answersUnpack buf sz = some u) :
    (inUse (replySeqId u) = true ∧ 0 ≤ u.replyCount →
      ∀ rr ∈ (u.records.take u.replyCount.toNat).take (maxReplyCount - 1), rr.Whole) ↔
      AddressesWhole buf sz inUse := by
  have hfailed : ¬(0 : Int) ≤ -unpackError := by decide
  rw [answersUnpack] at hu
  rw [AddressesWhole]
  cases hhdr : headerUnpack buf sz with
  | none =>
      rw [hhdr] at hu
      obtain rfl := Option.some.inj hu
      exact iff_of_true (fun h => absurd h.2 hfailed) trivial
  | some hdr =>
      simp only [hhdr] at hu
      by_cases hrcode : hdr.rcode ≠ 0
      · rw [if_pos hrcode] at hu
        obtain rfl := Option.some.inj hu
        refine iff_of_true (fun h => absurd h.2 ?_) fun hzero => absurd hzero hrcode
        change ¬(0 : Int) ≤ -(hdr.rcode : Int)
        omega
      rw [if_neg hrcode] at hu
      simp only [not_not.mp hrcode, forall_true_left]
      cases hskip : skipQuestions buf sz hdr.qdcount 12 with
      | overrun =>
          rw [hskip] at hu
          cases hu
      | illegal =>
          rw [hskip] at hu
          obtain rfl := Option.some.inj hu
          exact iff_of_true (fun h => absurd h.2 hfailed) fun _ => trivial
      | done off =>
          rw [hskip] at hu
          simp only at hu ⊢
          by_cases hnone : hdr.ancount = 0
          · rw [if_pos hnone] at hu
            obtain rfl := Option.some.inj hu
            rw [hnone]
            exact iff_of_true (fun _ rr hrr => by cases hrr) fun _ rr hrr => by cases hrr
          rw [if_neg hnone] at hu
          simp only [answersLoop_eq, Nat.zero_add, append_nil] at hu
          by_cases hzero : (decoded buf sz hdr.ancount off).length = 0
          · rw [if_pos hzero] at hu
            obtain rfl := Option.some.inj hu
            refine iff_of_true (fun h => absurd h.2 hfailed) fun _ rr hrr => ?_
            rw [copied, length_eq_zero_iff.mp hzero, reverse_nil, take_nil] at hrr
            cases hrr
          · rw [if_neg hzero] at hu
            obtain rfl := Option.some.inj hu
            have hread := @whole_read_iff buf sz hdr.ancount off
            simp only [replySeqId, Option.getD_some, Int.toNat_natCast, hread]
            refine ⟨fun h hused => h ⟨hused, Int.natCast_nonneg _⟩, fun h hused => h hused.1⟩

/-- **Memory.**  Every access is inside exactly where the questions and the names are inside the
message, and no address that is copied is cut off. -/
theorem dataEventChecked_safe_iff (buf : Nat → UInt8) {sz : Nat} (hsz : sz < 2 ^ 31)
    (inUse : Nat → Bool) :
    (∃ u, dataEventChecked buf sz inUse = .ok u) ↔
      replyInside buf sz = true ∧ AddressesWhole buf sz inUse := by
  rw [dataEventChecked]
  cases hinside : replyInside buf sz with
  | false =>
      rw [answersUnpackChecked_outside hsz hinside]
      refine iff_of_false ?_ fun h => Bool.false_ne_true h.1
      rintro ⟨u, hu⟩
      cases hu
  | true =>
      obtain ⟨u, hu, hchecked⟩ := answersUnpackChecked_inside hsz hinside
      rw [hchecked, ok_bind, ← copy_answersUnpack inUse hu, copyAnswers_eq]
      by_cases hused : inUse (replySeqId u) = true ∧ 0 ≤ u.replyCount
      · rw [if_pos hused]
        by_cases hwhole : ∀ rr ∈ (u.records.take u.replyCount.toNat).take (maxReplyCount - 1),
            rr.Whole
        · rw [if_pos hwhole]
          exact iff_of_true ⟨u, rfl⟩ ⟨rfl, fun _ => hwhole⟩
        · rw [if_neg hwhole]
          refine iff_of_false ?_ fun h => hwhole (h.2 hused)
          rintro ⟨v, hv⟩
          cases hv
      · rw [if_neg hused]
        exact iff_of_true ⟨u, rfl⟩ ⟨rfl, fun h => absurd h hused⟩

end Copies

/-- A reply of which the addresses are whole. -/
theorem twoAddresses_safe :
    (∃ u, dataEventChecked (message (twoAnnounced ++ address 1 ++ address 2)) 42 (fun _ => true) =
      .ok u) ↔
      replyInside (message (twoAnnounced ++ address 1 ++ address 2)) 42 = true ∧
        AddressesWhole (message (twoAnnounced ++ address 1 ++ address 2)) 42 fun _ => true :=
  dataEventChecked_safe_iff _ (by decide) _

/-- A header that announces a question, and nothing behind it. -/
def oneQuestion : List UInt8 := [0, 0, 0x81, 0x80, 0, 1, 0, 0, 0, 0, 0, 0]

/-- The question is looked for behind the message. -/
theorem oneQuestion_reads_behind :
    ¬∃ u, dataEventChecked (message oneQuestion) oneQuestion.length (fun _ => false) = .ok u := by
  have houtside : replyInside (message oneQuestion) oneQuestion.length = false := by
    decide
  rintro ⟨u, hu⟩
  rw [dataEventChecked, answersUnpackChecked_outside (by decide) houtside] at hu
  cases hu

end Dns
