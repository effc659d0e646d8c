import BrbFramework.Data.StringArrayExplode

/-!
# Exploding a string piece by piece

The loop of the functions that explode a string goes by indexes. `walk` is the same
from the byte in front and the piece that was begun, over the bytes that are left.
-/

namespace BrbData

namespace StringArray

open CStr List

section Walk

variable (token : CStr → Bool) (e c : UInt8) (line : CStr → CStr)

/-- What is added from `piece` on, whose last byte, or the delimiter in front of it, is `prev`. -/
def walk : Option UInt8 → CStr → Bool → Bool → CStr → List CStr
  | _, piece, _, found, [] =>
    if found then
      if piece.charAt 0 = c then []
      else [line (if e ≠ 0 then unescapeString piece e else piece)]
    else [piece]
  | prev, piece, escape, found, b :: rest =>
    if token (b :: rest) then
      if prev = none then [] :: walk (some b) [] escape true rest
      else if prev = some e then walk (some b) (piece ++ [b]) true found rest
      else if piece.charAt 0 = c then walk (some b) [] escape true rest
      else line (if escape then unescapeString piece e else piece) ::
        walk (some b) [] false true rest
    else walk (some b) (piece ++ [b]) escape found rest

end Walk

section Loops

variable {p : ExplodeArgs} {token : CStr → Bool} {str : CStr} {n : Nat}

theorem slice_part {front piece rest : CStr} (h : str.take n = front ++ piece ++ rest) :
    str.slice front.length piece.length = piece := by
  have hlength := congrArg List.length h
  simp only [length_take, length_append] at hlength
  have htake : (str.take n).take (front.length + piece.length) =
      str.take (front.length + piece.length) := by
    rw [take_take, Nat.min_eq_left (by omega)]
  have hpart : str.take (front.length + piece.length) = front ++ piece := by
    rw [← htake, h, ← length_append, take_left]
  have hslice : str.slice front.length piece.length =
      (str.take (front.length + piece.length)).drop front.length := by
    rw [slice, drop_take, Nat.add_sub_cancel_left]
  rw [hslice, hpart, drop_left]

theorem charAt_part {front rest : CStr} {b : UInt8} (h : str.take n = front ++ b :: rest) :
    str.charAt front.length = b := by
  have hlength := congrArg List.length h
  simp only [length_take, length_append, length_cons] at hlength
  have hget : (str.take n)[front.length]? = some b := by
    rw [h, getElem?_append_right (Nat.le_refl _), Nat.sub_self]
    rfl
  rw [getElem?_take_of_lt (by omega)] at hget
  rw [charAt, getD_eq_getElem?_getD, hget]
  rfl

theorem explodeRest_eq_walk (hfirst : p.firstIsFound = true)
    (htoken : ∀ i < n, p.token i = token ((str.take n).drop i)) (rest : CStr) :
    ∀ (front piece : CStr) (s : Explode), str.take n = front ++ piece ++ rest →
      n ≤ str.length → explodeLoop p str [] (front ++ piece).length = s →
      s.start = front.length → (s.foundTokenFlag = false → front = []) →
      explodeRest p str n (explodeLoop p str [] n) (explodeLoop p str [] n).start (str.take n) =
        s.arr ++ walk token p.escapeByte p.commentByte p.line (front ++ piece).getLast? piece
          s.escapeFlag s.foundTokenFlag rest := by
  induction rest with
  | nil =>
    intro front piece s hstr hn hs hstart₀ hfound
    have hlength := congrArg List.length hstr
    simp only [append_nil, length_take] at hlength
    have hend : (front ++ piece).length = n := by omega
    have hslice := slice_part hstr
    have hsize : n - front.length = piece.length := by
      rw [← hend, length_append]
      omega
    rw [hend] at hs
    rw [hs, explodeRest, hstart₀, hsize, hslice, walk]
    cases hflag : s.foundTokenFlag with
    | false =>
      have hnil := hfound hflag
      subst hnil
      rw [nil_append, append_nil] at hstr
      rw [hstr]
      rfl
    | true =>
      simp only [if_true]
      by_cases hcomment : piece.charAt 0 = p.commentByte
      · rw [if_pos hcomment, if_pos hcomment, append_nil]
      · rw [if_neg hcomment, if_neg hcomment]
  | cons b rest ih =>
    intro front piece s hstr hn hs hstart₀ hfound
    have hlength := congrArg List.length hstr
    simp only [length_take, length_append, length_cons] at hlength
    have hlt : (front ++ piece).length < n := by
      rw [length_append]
      omega
    have hnext : str.take n = front ++ (piece ++ [b]) ++ rest := by simp [hstr]
    have hcut : str.take n = (front ++ piece ++ [b]) ++ [] ++ rest := by simp [hstr]
    have hdrop : (str.take n).drop (front ++ piece).length = b :: rest := by
      rw [hstr, drop_left]
    have hfind := htoken _ hlt
    rw [hdrop] at hfind
    have hstep : explodeLoop p str [] ((front ++ piece).length + 1) =
        explodeStep p str (front ++ piece).length s := by rw [explodeLoop, hs]
    have hmore : (front ++ (piece ++ [b])).length = (front ++ piece).length + 1 := by
      simp only [length_append, length_singleton]
      omega
    have hbehind : (front ++ piece ++ [b] ++ []).length = (front ++ piece).length + 1 := by
      simp only [length_append, length_singleton, length_nil]
    have hlast : (front ++ (piece ++ [b])).getLast? = some b := by
      rw [← append_assoc, getLast?_concat]
    have hcutLast : (front ++ piece ++ [b] ++ []).getLast? = some b := by simp
    rw [walk]
    by_cases htok : token (b :: rest) = true
    · rw [if_pos htok]
      rw [htok] at hfind
      by_cases hfront : front ++ piece = []
      · -- a delimiter at the very front
        obtain ⟨rfl, rfl⟩ := append_eq_nil_iff.mp hfront
        have hinit : s = { arr := [] } := hs.symm
        subst hinit
        have hnow : explodeStep p str 0 { arr := [] } =
            { arr := [[]], firstTokenFlag := true, foundTokenFlag := true } := by
          have hcond : (0 = 0 ∧ p.token 0 = true) := ⟨rfl, hfind⟩
          rw [explodeStep, if_pos hcond, hfirst]
          rfl
        have hall := ih [b] [] _ hcut hn (hstep.trans hnow) rfl (fun h => absurd h (by simp))
        rw [if_pos (by simp)]
        simpa using hall
      · have hpos : (front ++ piece).length ≠ 0 := by simpa using hfront
        have hnot : ¬ ((front ++ piece).length = 0 ∧ p.token 0 = true) := fun h => hpos h.1
        obtain ⟨init, prev, hconcat⟩ :=
          (eq_nil_or_concat (front ++ piece)).resolve_left hfront
        have hprev : front ++ piece = init ++ [prev] := by rw [hconcat, concat_eq_append]
        have hprevChar : str.charAt ((front ++ piece).length - 1) = prev := by
          have hat : str.take n = init ++ prev :: (b :: rest) := by
            rw [hstr, hprev]
            simp
          rw [hprev, length_append, length_singleton, Nat.add_sub_cancel]
          exact charAt_part hat
        have hprevLast : (front ++ piece).getLast? = some prev := by
          rw [hprev]
          simp
        rw [hprevLast, if_neg (by simp)]
        by_cases hescape : prev = p.escapeByte
        · have hnow : explodeStep p str (front ++ piece).length s = { s with escapeFlag := true } := by
            rw [explodeStep, if_neg hnot, if_pos hfind, if_pos ⟨hpos, hprevChar.trans hescape⟩]
          have hall := ih front (piece ++ [b]) _ hnext hn
            ((congrArg (explodeLoop p str []) hmore).trans (hstep.trans hnow)) hstart₀ hfound
          rw [if_pos (by rw [hescape]), hall, hlast]
        · have hplain : ¬ ((front ++ piece).length ≠ 0 ∧
              str.charAt ((front ++ piece).length - 1) = p.escapeByte) :=
            fun h => hescape (hprevChar.symm.trans h.2)
          have hsize : (front ++ piece).length - front.length = piece.length := by
            rw [length_append, Nat.add_sub_cancel_left]
          have hslice := slice_part hstr
          have hneq : ¬ some prev = some p.escapeByte := fun h => hescape (Option.some_inj.mp h)
          have hstart : (if s.base ≠ 0 ∨ s.firstTokenFlag then s.base + 1 else s.base) =
              front.length := hstart₀
          rw [if_neg hneq]
          rw [explodeStep, if_neg hnot, if_pos hfind, if_neg hplain] at hstep
          simp only [hstart, hsize, hslice] at hstep
          have hbase : ∀ t : Explode, t.base = (front ++ piece).length →
              t.start = (front ++ piece ++ [b]).length := by
            intro t ht
            have hlen : (front ++ piece ++ [b]).length = (front ++ piece).length + 1 :=
              length_append
            rw [Explode.start, if_pos (.inl (ht ▸ hpos)), ht, hlen]
          by_cases hcomment : piece.charAt 0 = p.commentByte
          · rw [if_pos hcomment] at hstep
            have hall := ih (front ++ piece ++ [b]) [] _ hcut hn
              ((congrArg (explodeLoop p str []) hbehind).trans hstep) (hbase _ rfl)
              (fun h => absurd h (by simp))
            rw [if_pos hcomment, hall, hcutLast]
          · rw [if_neg hcomment] at hstep
            have hall := ih (front ++ piece ++ [b]) [] _ hcut hn
              ((congrArg (explodeLoop p str []) hbehind).trans hstep) (hbase _ rfl)
              (fun h => absurd h (by simp))
            rw [if_neg hcomment, hall, hcutLast]
            simp
    · have hno : p.token (front ++ piece).length = false := by
        rw [hfind]
        simpa using htok
      have hnow : explodeStep p str (front ++ piece).length s = s := by
        have hzero : ¬ ((front ++ piece).length = 0 ∧ p.token 0 = true) := by
          intro h
          rw [h.1] at hno
          rw [hno] at h
          exact Bool.false_ne_true h.2
        rw [explodeStep, if_neg hzero, if_neg (Bool.eq_false_iff.mp hno)]
      have hall := ih front (piece ++ [b]) s hnext hn
        ((congrArg (explodeLoop p str []) hmore).trans (hstep.trans hnow)) hstart₀ hfound
      rw [if_neg htok, hall, hlast]

end Loops

section Functions

variable {str delim : CStr} {escape comment : Option CStr}

def isByte (d : UInt8) (rest : CStr) : Bool := rest.head? == some d

theorem charAt_eq_isByte {i n : Nat} (hi : i < n) (hn : n ≤ str.length) (d : UInt8) :
    (str.charAt i == d) = isByte d ((str.take n).drop i) := by
  have hget : ((str.take n).drop i).head? = some (str.charAt i) := by
    rw [head?_drop, getElem?_take_of_lt hi, charAt, getD_eq_getElem?_getD,
      getElem?_eq_getElem (by omega)]
    rfl
  rw [isByte, hget]
  rfl

theorem explodeStrN_eq_walk (hstr : 0 ∉ str) :
    explodeStrN str delim escape comment (-1) =
      walk (isByte (delim.charAt 0)) (optionByte escape) (optionByte comment) addLine none [] false
        false (str.take (memBufferMaxPrintf - 1)) := by
  obtain ⟨n, hn⟩ : ∃ n, min (min str.length (memBufferMaxPrintf - 1)) (memBufferMaxPrintf - 1) = n :=
    ⟨_, rfl⟩
  have htake : str.take n = str.take (memBufferMaxPrintf - 1) := by
    rw [← hn, Nat.min_assoc, Nat.min_self, Nat.min_comm, ← take_take, take_length]
  have hle : n ≤ str.length := by omega
  have hwalk := @explodeRest_eq_walk (splitArgs str delim escape comment addLine true)
    (isByte (delim.charAt 0)) str n rfl
    (by
      intro i hi
      exact charAt_eq_isByte hi hle _)
    (str.take n) [] [] {} (by simp) hle rfl rfl (fun _ => rfl)
  rw [htake] at hwalk
  simp only [explodeStrN, strlen_eq hstr, if_pos (show (-1 : Int) < 0 by decide),
    Int.toNat_natCast, hn, htake]
  exact hwalk

theorem explodeLargeStrNDelimM_eq_walk (hstr : 0 ∉ str) (hdelim : 0 ∉ delim) (hne : delim ≠ [])
    {k : Int} (hk : (str.length : Int) ≤ k) :
    explodeLargeStrNDelimM str delim delim.length escape comment k =
      walk delim.isPrefixOf (optionByte escape) (optionByte comment) id none [] false false str := by
  have hstop : min str.length k.toNat = str.length := by omega
  have hwalk := @explodeRest_eq_walk
    { token := fun i => str.charAt i == delim.charAt 0 && (decide ((delim.length : Int) ≤ 1) ||
        strncmpEq (str.drop i) delim (delim.length : Int).toNat)
      escapeByte := optionByte escape
      commentByte := optionByte comment
      line := id
      firstIsFound := true }
    delim.isPrefixOf str str.length rfl
    (by
      intro i hi
      have hbyte := charAt_eq_isByte hi (Nat.le_refl _) (delim.charAt 0)
      simp only [hbyte, take_length, Int.toNat_natCast, strncmpEq_comm delim.length]
      obtain ⟨d, tail, rfl⟩ := exists_cons_of_ne_nil hne
      have hd : CStr.charAt (d :: tail) 0 = d := rfl
      rw [hd]
      obtain ⟨b, rest, hrest⟩ := exists_cons_of_ne_nil
        (mt drop_eq_nil_iff.mp (Nat.not_le.mpr hi))
      rw [hrest, isByte, head?_cons, Bool.eq_iff_iff]
      simp only [Bool.and_eq_true, beq_iff_eq, Option.some_inj, Bool.or_eq_true,
        decide_eq_true_eq, strncmpEq_iff hdelim, isPrefixOf_iff_prefix]
      constructor
      · intro h
        rcases h.2 with hone | hprefix
        · have hnil : tail = [] := by
            simp only [length_cons] at hone
            exact length_eq_zero_iff.mp (by omega)
          subst hnil
          rw [h.1]
          exact ⟨rest, rfl⟩
        · exact hprefix
      · intro h
        exact ⟨(cons_prefix_cons.mp h).1.symm, .inr h⟩)
    str [] [] {} (by simp) (Nat.le_refl _) rfl rfl (fun _ => rfl)
  rw [take_length] at hwalk
  simp only [explodeLargeStrNDelimM, strlen_eq hstr, hstop, take_length]
  exact hwalk

end Functions

/-! ## Cutting at a byte -/

/-- The pieces between the bytes `d`, the first of them behind `piece`. -/
def bytePieces (d : UInt8) : CStr → CStr → List CStr
  | piece, [] => [piece]
  | piece, b :: rest =>
    if b = d then piece :: bytePieces d [] rest else bytePieces d (piece ++ [b]) rest

section Bytes

variable {d : UInt8}

theorem length_bytePieces (rest : CStr) : ∀ piece : CStr,
    (bytePieces d piece rest).length = rest.count d + 1 := by
  induction rest with
  | nil =>
    intro piece
    rfl
  | cons b rest ih =>
    intro piece
    rw [bytePieces]
    by_cases hb : b = d
    · rw [if_pos hb, length_cons, ih, hb, count_cons_self]
    · rw [if_neg hb, ih, count_cons_of_ne hb]

theorem bytePieces_of_notMem (rest : CStr) (h : d ∉ rest) : ∀ piece : CStr,
    bytePieces d piece rest = [piece ++ rest] := by
  induction rest with
  | nil =>
    intro piece
    simp [bytePieces]
  | cons b rest ih =>
    intro piece
    obtain ⟨hb, hrest⟩ := not_or.mp (mem_cons.not.mp h)
    rw [bytePieces, if_neg (Ne.symm hb), ih hrest]
    simp

theorem bytePieces_append {front : CStr} (h : d ∉ front) (rest : CStr) : ∀ piece : CStr,
    bytePieces d piece (front ++ d :: rest) = (piece ++ front) :: bytePieces d [] rest := by
  induction front with
  | nil =>
    intro piece
    rw [nil_append, bytePieces, if_pos rfl, append_nil]
  | cons b front ih =>
    intro piece
    obtain ⟨hb, hfront⟩ := not_or.mp (mem_cons.not.mp h)
    rw [cons_append, bytePieces, if_neg (Ne.symm hb), ih hfront]
    simp

theorem bytePieces_ne_nil (rest piece : CStr) : bytePieces d piece rest ≠ [] := by
  rw [← length_pos_iff, length_bytePieces]
  exact Nat.succ_pos _

theorem length_walk_le {e c : UInt8} {line : CStr → CStr} (rest : CStr) :
    ∀ (prev : Option UInt8) (piece : CStr) (escape found : Bool),
      (walk (isByte d) e c line prev piece escape found rest).length ≤ rest.count d + 1 := by
  induction rest with
  | nil =>
    intro prev piece escape found
    rw [walk]
    split
    · split <;> simp
    · simp
  | cons b rest ih =>
    intro prev piece escape found
    rw [walk]
    by_cases hb : b = d
    · have htoken : isByte d (b :: rest) = true := by simp [isByte, hb]
      rw [if_pos htoken, hb, count_cons_self]
      split
      · exact Nat.succ_le_succ (ih _ _ _ _)
      · split
        · exact Nat.le_succ_of_le (ih _ _ _ _)
        · split
          · exact Nat.le_succ_of_le (ih _ _ _ _)
          · exact Nat.succ_le_succ (ih _ _ _ _)
    · have htoken : ¬ isByte d (b :: rest) = true := by simp [isByte, hb]
      rw [if_neg htoken, count_cons_of_ne hb]
      exact ih _ _ _ _

end Bytes

end StringArray

end BrbData
