import BrbFramework.Icmp.Base
import Mathlib.Data.List.Nodup

/-!
# The lists of a family

A slot is free, or its request is in one of the two lists, as its flag says; only while it
is being written may it be in neither. Each thing that the base does to a record keeps
this.
-/

namespace EvICMP

open List Function EvICMPPending

variable {p : EvICMPPending} {x : Nat}

theorem EvICMPPending.setQuery_self (p : EvICMPPending) (x : Nat)
    (f : ICMPQueryInfo → ICMPQueryInfo) : (p.setQuery x f).arena x = f (p.arena x) :=
  update_self ..

theorem EvICMPPending.setQuery_of_ne (p : EvICMPPending) (f : ICMPQueryInfo → ICMPQueryInfo)
    {y : Nat} (hy : y ≠ x) : (p.setQuery x f).arena y = p.arena y :=
  update_of_ne hy ..

/-- The slots, the records and the lists agree, where one record may have been popped. -/
structure Lists (p : EvICMPPending) (popped : Option Nat) : Prop where
  nodup : ∀ w, (p.list w).Nodup
  mem : ∀ w, ∀ x ∈ p.list w, (p.arena x).inUse = true ∧ (p.arena x).waitingReply = w
  linked : ∀ x, (p.arena x).inUse = true → popped ≠ some x → x ∈ p.list (p.arena x).waitingReply
  popped : ∀ x, popped = some x → (p.arena x).inUse = true ∧ ∀ w, x ∉ p.list w
  slotId : ∀ x, (p.arena x).inUse = true → (p.arena x).slotId = x
  slots : p.slots.Nodup
  free : ∀ x ∈ p.slots, (p.arena x).inUse = false

namespace Lists

variable {popped : Option Nat}

theorem cancel_list (p : EvICMPPending) (x : Nat) (w : Bool) :
    (p.cancel x).list w =
      if w = (p.arena x).waitingReply then (p.list w).erase x else p.list w := by
  cases w with
  | false => cases h : (p.arena x).waitingReply <;>
      simp [cancel, list, setQuery, h]
  | true => cases h : (p.arena x).waitingReply <;>
      simp [cancel, list, setQuery, h]

theorem cancel_arena (p : EvICMPPending) (x : Nat) :
    (p.cancel x).arena = update p.arena x {} := by
  cases h : (p.arena x).waitingReply <;>
    simp [cancel, setQuery, h]

theorem cancel_slots (p : EvICMPPending) (x : Nat) :
    (p.cancel x).slots = (p.arena x).slotId :: p.slots := by
  cases h : (p.arena x).waitingReply <;>
    simp [cancel, setQuery, h]

theorem mem_cancel (h : Lists p popped) (x y : Nat) (w : Bool) :
    y ∈ (p.cancel x).list w ↔ y ≠ x ∧ y ∈ p.list w := by
  rw [cancel_list]
  split
  · exact (h.nodup w).mem_erase_iff
  next hw =>
    constructor
    · intro hy
      refine ⟨?_, hy⟩
      rintro rfl
      exact hw (h.mem w y hy).2.symm
    · exact And.right

theorem cancel (h : Lists p popped) (hx : (p.arena x).inUse = true) {popped' : Option Nat}
    (hpopped : ∀ y, popped' = some y ↔ popped = some y ∧ y ≠ x) : Lists (p.cancel x) popped' := by
  have hself : (p.cancel x).arena x = {} := by rw [cancel_arena, update_self]
  have hother : ∀ y, y ≠ x → (p.cancel x).arena y = p.arena y := by
    intro y hy
    rw [cancel_arena, update_of_ne hy]
  have hne : ∀ y, ((p.cancel x).arena y).inUse = true → y ≠ x := by
    rintro y hy rfl
    rw [hself] at hy
    cases hy
  refine ⟨fun w => ?_, fun w y hy => ?_, fun y hy hnot => ?_, fun y hy => ?_, fun y hy => ?_, ?_,
    fun y hy => ?_⟩
  · rw [cancel_list]
    split
    · exact (h.nodup w).erase x
    · exact h.nodup w
  · obtain ⟨hyx, hy⟩ := (h.mem_cancel x y w).1 hy
    rw [hother y hyx]
    exact h.mem w y hy
  · have hyx := hne y hy
    rw [hother y hyx] at hy ⊢
    refine (h.mem_cancel x y _).2 ⟨hyx, h.linked y hy fun hp => hnot ?_⟩
    exact (hpopped y).2 ⟨hp, hyx⟩
  · obtain ⟨hp, hyx⟩ := (hpopped y).1 hy
    rw [hother y hyx]
    refine ⟨(h.popped y hp).1, fun w hw => ?_⟩
    exact (h.popped y hp).2 w ((h.mem_cancel x y w).1 hw).2
  · have hyx := hne y hy
    rw [hother y hyx] at hy ⊢
    exact h.slotId y hy
  · rw [cancel_slots, h.slotId x hx]
    refine nodup_cons.2 ⟨fun hin => ?_, h.slots⟩
    exact absurd (h.free x hin) (by rw [hx]; exact nofun)
  · rw [cancel_slots, h.slotId x hx] at hy
    by_cases hyx : y = x
    · rw [hyx, hself]
    · rw [hother y hyx]
      exact h.free y ((mem_cons.1 hy).resolve_left hyx)

theorem send (h : Lists p popped) {slots : List Nat} (hslots : p.slots = x :: slots)
    {query : ICMPQueryInfo} (huse : query.inUse = true) (hid : query.slotId = x)
    (hwait : query.waitingReply = false) :
    Lists { p.setQuery x (fun _ => query) with slots, reqList := p.reqList ++ [x] } popped := by
  have hfree : (p.arena x).inUse = false := h.free x (by rw [hslots]; exact mem_cons_self)
  have hnodup := h.slots
  rw [hslots] at hnodup
  have hnew : ∀ w, x ∉ p.list w := fun w hin =>
    absurd (h.mem w x hin).1 (by rw [hfree]; exact nofun)
  have hself : (p.setQuery x fun _ => query).arena x = query := p.setQuery_self x _
  have hother : ∀ y, y ≠ x → (p.setQuery x fun _ => query).arena y = p.arena y :=
    fun y hy => p.setQuery_of_ne _ hy
  have hold : ∀ w, ∀ y ∈ p.list w, y ≠ x := by
    rintro w y hy rfl
    exact hnew w hy
  have hmem : ∀ w y, y ∈ ({ p.setQuery x (fun _ => query) with
      slots, reqList := p.reqList ++ [x] } : EvICMPPending).list w ↔
        y ∈ p.list w ∨ (y = x ∧ w = false) := by
    intro w y
    cases w with
    | false => simp [list]
    | true => simp [list, setQuery]
  refine ⟨fun w => ?_, fun w y hy => ?_, fun y hy hnot => ?_, fun y hy => ?_, fun y hy => ?_,
    (nodup_cons.1 hnodup).2, fun y hy => ?_⟩
  · cases w with
    | false => exact nodup_append.2 ⟨h.nodup false, nodup_singleton x, fun y hy z hz => by
        rw [mem_singleton.1 hz]
        exact hold false y hy⟩
    | true => exact h.nodup true
  · dsimp only
    rcases (hmem w y).1 hy with hy | ⟨rfl, rfl⟩
    · rw [hother y (hold w y hy)]
      exact h.mem w y hy
    · rw [hself]
      exact ⟨huse, hwait⟩
  · dsimp only at hy ⊢
    by_cases hyx : y = x
    · rw [hyx, hself, hwait]
      exact (hmem false x).2 (.inr ⟨rfl, rfl⟩)
    · rw [hother y hyx] at hy ⊢
      exact (hmem _ y).2 (.inl (h.linked y hy hnot))
  · have hyx : y ≠ x := by
      rintro rfl
      exact absurd (h.popped y hy).1 (by rw [hfree]; exact nofun)
    dsimp only
    rw [hother y hyx]
    refine ⟨(h.popped y hy).1, fun w hw => ?_⟩
    rcases (hmem w y).1 hw with hw | ⟨heq, -⟩
    · exact (h.popped y hy).2 w hw
    · exact hyx heq
  · dsimp only at hy ⊢
    by_cases hyx : y = x
    · rw [hyx, hself, hid]
    · rw [hother y hyx] at hy ⊢
      exact h.slotId y hy
  · dsimp only at hy ⊢
    have hyx : y ≠ x := by
      rintro rfl
      exact (nodup_cons.1 hnodup).1 hy
    rw [hother y hyx]
    exact h.free y (by rw [hslots]; exact mem_cons_of_mem _ hy)

theorem pop (h : Lists p none) {rest : List Nat} (hlist : p.reqList = x :: rest) :
    Lists { p with reqList := rest } (some x) := by
  have hnodup := h.nodup false
  have hhead : x ∈ p.list false := by
    rw [list, hlist]
    exact mem_cons_self
  rw [list, hlist] at hnodup
  obtain ⟨hnot, hrest⟩ := nodup_cons.1 hnodup
  have hmem : ∀ w y, y ∈ ({ p with reqList := rest } : EvICMPPending).list w ↔
      y ∈ p.list w ∧ y ≠ x := by
    intro w y
    cases w with
    | false =>
        simp only [list, hlist, mem_cons]
        constructor
        · intro hy
          exact ⟨.inr hy, fun heq => hnot (heq ▸ hy)⟩
        · rintro ⟨hy, hne⟩
          exact hy.resolve_left hne
    | true =>
        refine (and_iff_left_of_imp fun hy => ?_).symm
        rintro rfl
        have := (h.mem true y hy).2.symm.trans (h.mem false y hhead).2
        cases this
  refine ⟨fun w => ?_, fun w y hy => h.mem w y ((hmem w y).1 hy).1, fun y hy hnot => ?_,
    fun y hy => ?_, h.slotId, h.slots, h.free⟩
  · cases w with
    | false => exact hrest
    | true => exact h.nodup true
  · refine (hmem _ y).2 ⟨h.linked y hy nofun, ?_⟩
    rintro rfl
    exact hnot rfl
  · obtain rfl := Option.some.inj hy
    exact ⟨(h.mem false x hhead).1, fun w hw => ((hmem w x).1 hw).2 rfl⟩

theorem setQuery (h : Lists p popped) (x : Nat) (f : ICMPQueryInfo → ICMPQueryInfo)
    (hf : (f (p.arena x)).inUse = (p.arena x).inUse ∧ (f (p.arena x)).slotId = (p.arena x).slotId ∧
      (f (p.arena x)).waitingReply = (p.arena x).waitingReply) : Lists (p.setQuery x f) popped := by
  have hsame : ∀ y, ((p.setQuery x f).arena y).inUse = (p.arena y).inUse ∧
      ((p.setQuery x f).arena y).slotId = (p.arena y).slotId ∧
      ((p.setQuery x f).arena y).waitingReply = (p.arena y).waitingReply := by
    intro y
    by_cases hyx : y = x
    · rw [hyx, p.setQuery_self]
      exact hf
    · rw [p.setQuery_of_ne f hyx]
      exact ⟨rfl, rfl, rfl⟩
  have hlist : ∀ w, (p.setQuery x f).list w = p.list w := by
    intro w
    cases w with
    | false | true => rfl
  refine ⟨fun w => ?_, fun w y hy => ?_, fun y hy hnot => ?_, fun y hy => ?_, fun y hy => ?_,
    h.slots, fun y hy => ?_⟩
  · rw [hlist]
    exact h.nodup w
  · rw [(hsame y).1, (hsame y).2.2]
    exact h.mem w y (hlist w ▸ hy)
  · rw [(hsame y).2.2, hlist]
    exact h.linked y ((hsame y).1 ▸ hy) hnot
  · rw [(hsame y).1]
    refine ⟨(h.popped y hy).1, fun w hw => ?_⟩
    exact (h.popped y hy).2 w (hlist w ▸ hw)
  · rw [(hsame y).2.1]
    exact h.slotId y ((hsame y).1 ▸ hy)
  · rw [(hsame y).1]
    exact h.free y hy

theorem sent (h : Lists p (some x)) :
    Lists (({ p with replyList := p.replyList ++ [x] } : EvICMPPending).setQuery x
      fun query => { query with waitingReply := true }) none := by
  obtain ⟨huse, hnew⟩ := h.popped x rfl
  obtain ⟨q, hq⟩ : ∃ q, (({ p with replyList := p.replyList ++ [x] } : EvICMPPending).setQuery x
      fun query => { query with waitingReply := true }) = q := ⟨_, rfl⟩
  have hself : q.arena x = { p.arena x with waitingReply := true } := by
    rw [← hq, setQuery_self]
  have hother : ∀ y, y ≠ x → q.arena y = p.arena y := by
    intro y hy
    rw [← hq, setQuery_of_ne _ _ hy]
  have hslots : q.slots = p.slots := by rw [← hq]; rfl
  have hold : ∀ w, ∀ y ∈ p.list w, y ≠ x := by
    rintro w y hy rfl
    exact hnew w hy
  have hmem : ∀ w y, y ∈ q.list w ↔ y ∈ p.list w ∨ (y = x ∧ w = true) := by
    intro w y
    rw [← hq]
    cases w with
    | false => simp [EvICMPPending.list, EvICMPPending.setQuery]
    | true => simp [EvICMPPending.list, EvICMPPending.setQuery]
  rw [hq]
  refine ⟨fun w => ?_, fun w y hy => ?_, fun y hy _ => ?_, nofun, fun y hy => ?_, hslots ▸ h.slots,
    fun y hy => ?_⟩
  · rw [← hq]
    cases w with
    | false => exact h.nodup false
    | true => exact nodup_append.2 ⟨h.nodup true, nodup_singleton x, fun y hy z hz => by
        rw [mem_singleton.1 hz]
        exact hold true y hy⟩
  · rcases (hmem w y).1 hy with hy | ⟨rfl, rfl⟩
    · rw [hother y (hold w y hy)]
      exact h.mem w y hy
    · rw [hself]
      exact ⟨huse, rfl⟩
  · rw [hmem]
    by_cases hyx : y = x
    · rw [hyx, hself]
      exact .inr ⟨rfl, rfl⟩
    · rw [hother y hyx] at hy ⊢
      exact .inl (h.linked y hy fun heq => hyx (Option.some.inj heq).symm)
  · by_cases hyx : y = x
    · rw [hyx, hself]
      exact h.slotId x huse
    · rw [hother y hyx] at hy ⊢
      exact h.slotId y hy
  · rw [hslots] at hy
    have hyx : y ≠ x := by
      rintro rfl
      exact absurd (h.free y hy) (by rw [huse]; exact nofun)
    rw [hother y hyx]
    exact h.free y hy

end Lists

end EvICMP
