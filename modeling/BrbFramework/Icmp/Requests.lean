import BrbFramework.Icmp.Lists
import BrbFramework.Lib.Ledger

/-!
# The requests of the ICMP base

A handler cancels what its record says after the callback, and the walk over a list goes on
from the node that it remembers. As long as no callback cancels its own request or that of
the remembered node, each accepted request is called once at most and released once, by the
program or in its own handling.
-/

namespace EvICMP

open Handler Ledger List Function EvICMPBase

variable {s t : EvICMPBase} {p : EvICMPPending} {family : Family} {x : Nat}

def EvICMPBase.holder (s : EvICMPBase) (i : Family × Nat) : Option Nat :=
  if (s.query i.1 i.2).inUse then some (s.query i.1 i.2).serial else none

/-- How often a request was released, and how often its callback was called. -/
def EvICMPBase.releases (s : EvICMPBase) (n : Nat) : Nat :=
  s.log.countP fun | .released _ m => m = n | _ => false

def EvICMPBase.calls (s : EvICMPBase) (n : Nat) : Nat :=
  s.log.countP fun | .called m _ => m = n | _ => false

/-- Each request is released once, when it is not in its slot any more, and called once at
most. The handling of a request releases no other. -/
structure Proper (s : EvICMPBase) : Prop where
  once : ∀ n, s.releases n ≤ 1
  kept : ∀ n < s.accepted, s.releases n = 0 ↔ ∃ i, s.holder i = some n
  called : ∀ n, s.calls n ≤ 1
  own : ∀ m n, .released (some m) n ∈ s.log → m = n

/-- No assertion fails but that on what the program cancels. -/
def Sound (c : Runs.Config Fault EvICMPBase) : Prop :=
  ∀ f, c.fault = some f → f = .notInUse none

/-- The base is not in the callback of this request, and does not remember its node. -/
def Far (s : EvICMPBase) (family : Family) (x : Nat) : Prop :=
  match s.walk with
  | .calling g y _ after => family = g → x ≠ y ∧ after.node ≠ some x
  | _ => True

/-- No callback cancels its own request or that of the remembered node. -/
def Orderly (s : EvICMPBase) : Event → Prop
  | .cancelByReqID family reqId => Far s family reqId
  | .cancelByOwnerID family ownerId =>
      ∀ x ∈ (s.pending family).reqList ++ (s.pending family).replyList,
        (s.query family x).ownerId = ownerId → Far s family x
  | _ => True

/-! ## The invariant -/

/-- The request `x` has been popped if it is called for after a write. -/
def After.popped (family : Family) (x : Nat) (g : Family) : After → Option Nat
  | write => if family = g then some x else none
  | _ => none

def EvICMPBase.popped (s : EvICMPBase) (family : Family) : Option Nat :=
  match s.walk with
  | .calling g x _ after => after.popped g x family
  | _ => none

/-- The node that is remembered in the callback of a request is that of another one. -/
def After.Fine (s : EvICMPBase) (family : Family) (x : Nat) : After → Prop
  | read | write => True
  | timeout w node _ => ∀ y, node = some y → y ≠ x ∧ y ∈ (s.pending family).list w

def Walk.Fine (s : EvICMPBase) : Walk → Prop
  | idle | write .. => True
  | timeout family w node _ => ∀ y, node = some y → y ∈ (s.pending family).list w
  | calling family x n after => s.holder (family, x) = some n ∧ after.Fine s family x

structure Inv (s : EvICMPBase) : Prop where
  lists : ∀ family, Lists (s.pending family) (s.popped family)
  books : Books s.holder s.accepted s.releases
  once : ∀ n, s.calls n ≤ 1
  called : ∀ family x n, s.holder (family, x) = some n → 0 < s.calls n →
    ∃ after, s.walk = .calling family x n after
  uncalled : ∀ n, s.accepted ≤ n → s.calls n = 0
  own : ∀ m n, .released (some m) n ∈ s.log → m = n
  fine : s.walk.Fine s

theorem Inv.proper (h : Inv s) : Proper s where
  once := h.books.left_le
  kept _ hn := h.books.left_eq_zero_iff hn
  called := h.once
  own := h.own

theorem holder_eq_some {n : Nat} :
    s.holder (family, x) = some n ↔
      (s.query family x).inUse = true ∧ (s.query family x).serial = n := by
  simp only [holder]
  split
  next hx => simp [hx]
  next hx => simp [hx]

theorem holder_of_inUse (hx : (s.query family x).inUse = true) :
    s.holder (family, x) = some (s.query family x).serial :=
  holder_eq_some.2 ⟨hx, rfl⟩

theorem holder_congr (h : ∀ g y, (t.query g y).inUse = (s.query g y).inUse ∧
    (t.query g y).serial = (s.query g y).serial) : t.holder = s.holder := by
  funext ⟨g, y⟩
  apply Option.ext
  intro n
  rw [holder_eq_some, holder_eq_some, (h g y).1, (h g y).2]

theorem holder_eq_update {v : Option Nat} (hself : t.holder (family, x) = v)
    (hother : ∀ g y, (g, y) ≠ (family, x) → t.query g y = s.query g y) :
    t.holder = update s.holder (family, x) v := by
  funext ⟨g, y⟩
  by_cases hy : (g, y) = (family, x)
  · rw [hy, update_self, hself]
  · rw [update_of_ne hy, holder, holder, hother g y hy]

theorem setPending_self (s : EvICMPBase) (family : Family) (p : EvICMPPending) :
    (s.setPending family p).pending family = p :=
  update_self ..

theorem setPending_of_ne (s : EvICMPBase) (p : EvICMPPending) {g : Family} (hg : g ≠ family) :
    (s.setPending family p).pending g = s.pending g :=
  update_of_ne hg ..

theorem Inv.keep (h : Inv s) (hholder : t.holder = s.holder) (haccepted : t.accepted = s.accepted)
    (hlog : t.log = s.log) (hlists : ∀ family, Lists (t.pending family) (t.popped family))
    (hcall : ∀ family x n after, s.walk = .calling family x n after → t.walk = s.walk)
    (hfine : t.walk.Fine t) : Inv t := by
  have hreleases : t.releases = s.releases := by
    funext n
    rw [releases, hlog, releases]
  have hcalls : t.calls = s.calls := by
    funext n
    rw [calls, hlog, calls]
  refine ⟨hlists, ?_, fun n => ?_, fun family x n hx hn => ?_, fun n hn => ?_, fun m n hn => ?_,
    hfine⟩
  · rw [hholder, haccepted, hreleases]
    exact h.books
  · rw [hcalls]
    exact h.once n
  · rw [hholder] at hx
    rw [hcalls] at hn
    obtain ⟨after, hwalk⟩ := h.called family x n hx hn
    exact ⟨after, (hcall family x n after hwalk).trans hwalk⟩
  · rw [hcalls]
    exact h.uncalled n (haccepted ▸ hn)
  · exact h.own m n (hlog ▸ hn)

theorem Inv.call {n : Nat} {after : After} (h : Inv s) (reply : ICMPReply)
    (hholder : t.holder = s.holder) (haccepted : t.accepted = s.accepted)
    (hlog : t.log = s.log ++ [.called n reply])
    (hlists : ∀ family, Lists (t.pending family) (t.popped family))
    (hidle : ∀ family x n after, s.walk ≠ .calling family x n after)
    (hx : s.holder (family, x) = some n) (hwalk : t.walk = .calling family x n after)
    (hfine : after.Fine t family x) : Inv t := by
  have hreleases : t.releases = s.releases := by
    funext m
    rw [releases, hlog, countP_append, releases]
    simp
  have hcalls : ∀ m, t.calls m = s.calls m + if n = m then 1 else 0 := by
    intro m
    rw [calls, hlog, countP_append, calls]
    simp [countP_cons]
  have hnever : ∀ g y m, s.holder (g, y) = some m → s.calls m = 0 := by
    intro g y m hy
    by_contra hne
    obtain ⟨after, hcalling⟩ := h.called g y m hy (Nat.pos_of_ne_zero hne)
    exact hidle g y m after hcalling
  refine ⟨hlists, ?_, fun m => ?_, fun g y m hy hm => ?_, fun m hm => ?_, fun m k hk => ?_, ?_⟩
  · rw [hholder, haccepted, hreleases]
    exact h.books
  · rw [hcalls]
    split
    next heq =>
      have hzero := hnever family x n hx
      rw [heq] at hzero
      omega
    next => exact h.once m
  · rw [hholder] at hy
    rw [hcalls, hnever g y m hy] at hm
    split at hm
    next heq =>
      have hslot := h.books.unique (g, y) (family, x) m hy (heq ▸ hx)
      cases hslot
      exact ⟨after, heq ▸ hwalk⟩
    next => exact absurd hm (Nat.lt_irrefl 0)
  · rw [haccepted] at hm
    have hne : n ≠ m := by
      have := h.books.fresh (family, x) n hx
      omega
    rw [hcalls, if_neg hne]
    exact h.uncalled m hm
  · rw [hlog] at hk
    exact h.own m k (by simpa using hk)
  · rw [hwalk]
    refine ⟨?_, hfine⟩
    rw [hholder]
    exact hx

theorem Inv.release {n : Nat} (caller : Caller) (h : Inv s)
    (hholder : t.holder = update s.holder (family, x) none)
    (haccepted : t.accepted = s.accepted) (hlog : t.log = s.log ++ [.released caller n])
    (hlists : ∀ family, Lists (t.pending family) (t.popped family))
    (hx : s.holder (family, x) = some n) (hcaller : ∀ m, caller = some m → m = n)
    (hcall : ∀ g y m after, s.walk = .calling g y m after →
      (g, y) = (family, x) ∨ t.walk = s.walk) (hfine : t.walk.Fine t) : Inv t := by
  have hreleases : t.releases = fun m => s.releases m + if m = n then 1 else 0 := by
    funext m
    rw [releases, hlog, countP_append, releases]
    simp [countP_cons, eq_comm]
  have hcalls : t.calls = s.calls := by
    funext m
    rw [calls, hlog, countP_append, calls]
    simp
  refine ⟨hlists, ?_, fun m => ?_, fun g y m hy hm => ?_, fun m hm => ?_, fun m k hk => ?_, hfine⟩
  · rw [hholder, haccepted, hreleases]
    exact h.books.leave hx
  · rw [hcalls]
    exact h.once m
  · rw [hcalls] at hm
    rw [hholder] at hy
    have hne : (g, y) ≠ (family, x) := by
      intro heq
      rw [heq, update_self] at hy
      cases hy
    rw [update_of_ne hne] at hy
    obtain ⟨after, hwalk⟩ := h.called g y m hy hm
    rcases hcall g y m after hwalk with heq | hsame
    · exact absurd heq hne
    · exact ⟨after, hsame.trans hwalk⟩
  · rw [hcalls]
    exact h.uncalled m (haccepted ▸ hm)
  · rw [hlog, mem_append, mem_singleton] at hk
    rcases hk with hk | hk
    · exact h.own m k hk
    · obtain ⟨hm, rfl⟩ := Obs.released.inj hk
      exact hcaller m hm.symm

theorem Inv.accept (h : Inv s)
    (hholder : t.holder = update s.holder (family, x) (some s.accepted))
    (haccepted : t.accepted = s.accepted + 1) (hlog : t.log = s.log)
    (hlists : ∀ family, Lists (t.pending family) (t.popped family))
    (hx : s.holder (family, x) = none) (hwalk : t.walk = s.walk) (hfine : t.walk.Fine t) :
    Inv t := by
  have hreleases : t.releases = s.releases := by
    funext n
    rw [releases, hlog, releases]
  have hcalls : t.calls = s.calls := by
    funext n
    rw [calls, hlog, calls]
  refine ⟨hlists, ?_, fun n => ?_, fun g y n hy hn => ?_, fun n hn => ?_, fun m n hn => ?_, hfine⟩
  · rw [hholder, haccepted, hreleases]
    exact h.books.enter hx
  · rw [hcalls]
    exact h.once n
  · rw [hcalls] at hn
    rw [hholder] at hy
    by_cases hne : (g, y) = (family, x)
    · rw [hne, update_self] at hy
      obtain rfl := Option.some.inj hy
      rw [h.uncalled _ (Nat.le_refl _)] at hn
      exact absurd hn (Nat.lt_irrefl 0)
    · rw [update_of_ne hne] at hy
      rw [hwalk]
      exact h.called g y n hy hn
  · rw [hcalls]
    exact h.uncalled n (by omega)
  · exact h.own m n (hlog ▸ hn)

/-! ## Handling a request -/

theorem holder_cancelled (s : EvICMPBase) (family : Family) (x : Nat) (l : List Obs) :
    ((s.setPending family ((s.pending family).cancel x)).note l).holder =
      update s.holder (family, x) none := by
  have hpending : ((s.setPending family ((s.pending family).cancel x)).note l).pending =
      (s.setPending family ((s.pending family).cancel x)).pending := rfl
  apply holder_eq_update
  · simp only [holder, query, hpending, setPending_self,
      Lists.cancel_arena, update_self]
    rfl
  · intro g y hy
    simp only [query, hpending]
    by_cases hg : g = family
    · have hyx : y ≠ x := by
        rintro rfl
        exact hy (by rw [hg])
      rw [hg, setPending_self, Lists.cancel_arena, update_of_ne hyx]
    · rw [setPending_of_ne s _ hg]

/-- A handler has taken the request `n` in the slot `x`, and the rest is as it was in `s`. -/
structure Taken (s u : EvICMPBase) (family : Family) (x n : Nat) (after : After) : Prop where
  holder : u.holder = s.holder
  accepted : u.accepted = s.accepted
  log : u.log = s.log
  lists : ∀ g, Lists (u.pending g) (after.popped family x g)
  held : s.holder (family, x) = some n
  fine : after.Fine u family x

theorem finishQuery_ends {u : EvICMPBase} {n : Nat} {after : After} (h : Inv s)
    (hu : Taken s u family x n after)
    (hcall : ∀ g y m b, s.walk = .calling g y m b → (g, y) = (family, x)) :
    Ends (finishQuery family x n after) u (fun _ => Inv) fun _ _ => False := by
  obtain ⟨huse, hserial⟩ := holder_eq_some.1 (hu.holder ▸ hu.held)
  have hid : (u.query family x).slotId = x := (hu.lists family).slotId x huse
  simp only [finishQuery, requestCancelByReqID, ends_bind, ends_get, ends_assertThat, ends_set,
    ends_modify, hid]
  refine ⟨fun _ => ?_, fun hno => absurd huse (by rw [hno]; simp)⟩
  obtain ⟨t, ht⟩ : ∃ t, (u.setPending family ((u.pending family).cancel x)).note
      [.released (some n) (u.query family x).serial] = t := ⟨_, rfl⟩
  have hpending : t.pending =
      (u.setPending family ((u.pending family).cancel x)).pending := by rw [← ht]; rfl
  -- Nothing is popped any more.
  have hlists : ∀ g, Lists (t.pending g) none := by
    intro g
    rw [hpending]
    by_cases hg : g = family
    · rw [hg, setPending_self]
      refine (hu.lists family).cancel huse fun y => ?_
      refine iff_of_false (by simp) ?_
      rintro ⟨hy, hyx⟩
      cases after with
      | read | timeout => cases hy
      | write =>
          rw [After.popped, if_pos rfl] at hy
          exact hyx (Option.some.inj hy).symm
    · rw [setPending_of_ne u _ hg]
      have hpopped : after.popped family x g = none := by
        cases after with
        | read | timeout => rfl
        | write => exact if_neg (Ne.symm hg)
      exact hpopped ▸ hu.lists g
  have hholder : t.holder = update s.holder (family, x) none := by
    rw [← ht, holder_cancelled, hu.holder]
  have haccepted : t.accepted = s.accepted := by
    rw [← ht]
    exact hu.accepted
  have hlog : t.log = s.log ++ [.released (some n) n] := by
    rw [← ht, ← hu.log, ← hserial]
    rfl
  rw [ht]
  have hcalling : ∀ (w : Walk) g y m b, s.walk = .calling g y m b →
      (g, y) = (family, x) ∨ w = s.walk := fun _ g y m b hw => .inl (hcall g y m b hw)
  have hown : ∀ m, some n = some m → m = n := fun m hm => (Option.some.inj hm).symm
  cases after with
  | read =>
      exact h.release (some n) hholder haccepted hlog hlists hu.held hown
        (hcalling _) trivial
  | write =>
      exact h.release (some n) hholder haccepted hlog hlists hu.held hown
        (hcalling _) trivial
  | timeout w node status =>
      refine h.release (some n) hholder haccepted hlog hlists hu.held hown
        (hcalling _) ?_
      intro y hy
      obtain ⟨hyx, hin⟩ := hu.fine y hy
      change y ∈ (t.pending family).list w
      rw [hpending, setPending_self]
      exact ((hu.lists family).mem_cancel x y w).2 ⟨hyx, hin⟩

theorem notify_ends {u : EvICMPBase} {n : Nat} {after : After} (h : Inv s)
    (hu : Taken s u family x n after)
    (hidle : ∀ g y m b, s.walk ≠ .calling g y m b) (reply : ICMPReply) :
    Ends (notify family x reply after) u (fun _ => Inv) fun _ _ => False := by
  obtain ⟨huse, hserial⟩ := holder_eq_some.1 (hu.holder ▸ hu.held)
  simp only [notify, ends_bind, ends_get, ends_ite, ends_set, hserial]
  refine ⟨fun _ => ?_, fun _ => ?_⟩
  · refine h.call (n := n) reply hu.holder hu.accepted ?_ hu.lists hidle hu.held rfl ?_
    · rw [← hu.log]
      rfl
    · cases after with
      | read | write => trivial
      | timeout w node status => exact hu.fine
  · exact finishQuery_ends h hu fun g y m b hw => absurd hw (hidle g y m b)

theorem popped_eq_none (hidle : ∀ g y m b, s.walk ≠ .calling g y m b) (family : Family) :
    s.popped family = none := by
  unfold popped
  split
  next g x n after hwalk => exact absurd hwalk (hidle g x n after)
  next => rfl

theorem baseEventRead_ends (h : Inv s) (hwalk : s.walk = .idle) (family : Family)
    (packet : Packet) :
    Ends (baseEventRead family packet) s (fun _ => Inv) fun _ _ => False := by
  have hidle : ∀ g y m b, s.walk ≠ .calling g y m b := by
    intro g y m b
    rw [hwalk]
    exact nofun
  have hread : Inv (s.setReadEvent family) := by
    refine h.keep rfl rfl rfl h.lists (fun _ _ _ _ _ => rfl) ?_
    change s.walk.Fine _
    rw [hwalk]
    trivial
  simp only [baseEventRead, ends_bind, ends_modify, ends_get, ends_ite, ends_pure]
  refine ⟨fun _ => hread, fun _ => ⟨fun _ => hread, fun _ => ⟨fun _ => hread, fun _ =>
    ⟨fun _ => hread, fun _ => ⟨fun _ => hread, fun huse => ?_⟩⟩⟩⟩⟩
  refine notify_ends (s := s) (n := (s.query family packet.icmpSeq).serial) h ?_ hidle _
  refine ⟨rfl, rfl, rfl, fun g => ?_, ?_, trivial⟩
  · have hlists := h.lists g
    rw [popped_eq_none hidle g] at hlists
    exact hlists
  · have hin : ((s.setReadEvent family).query family packet.icmpSeq).inUse = true := by
      simpa using huse
    exact holder_of_inUse hin

/-! ## Writing -/

theorem Inv.setPending (h : Inv s) (family : Family) {p : EvICMPPending}
    (hwalk : ∀ g y m b, s.walk ≠ .calling g y m b) (hlists : Lists p none)
    (harena : ∀ y, (p.arena y).inUse = ((s.pending family).arena y).inUse ∧
      (p.arena y).serial = ((s.pending family).arena y).serial)
    (hpending : t.pending = (s.setPending family p).pending) (haccepted : t.accepted = s.accepted)
    (hlog : t.log = s.log) (ht : ∀ g y m b, t.walk ≠ .calling g y m b) (hfine : t.walk.Fine t) :
    Inv t := by
  have hholder : t.holder = s.holder := by
    apply holder_congr
    intro g y
    rw [query, query, hpending]
    by_cases hg : g = family
    · rw [hg, setPending_self]
      exact harena y
    · rw [setPending_of_ne s _ hg]
      exact ⟨rfl, rfl⟩
  refine h.keep hholder haccepted hlog (fun g => ?_) (fun g y m b hw => absurd hw (hwalk g y m b))
    hfine
  rw [popped_eq_none ht, hpending]
  by_cases hg : g = family
  · rw [hg, setPending_self]
    exact hlists
  · rw [setPending_of_ne s _ hg]
    have hold := h.lists g
    rw [popped_eq_none hwalk] at hold
    exact hold

theorem baseEventWrite_ends {canWriteSz wroteBytes : Int} (h : Inv s)
    (hwalk : s.walk = .write family canWriteSz wroteBytes) (sent : Int) :
    Ends (baseEventWrite family canWriteSz wroteBytes sent) s (fun _ => Inv)
      fun _ _ => False := by
  have hidle : ∀ g y m b, s.walk ≠ .calling g y m b := by
    intro g y m b
    rw [hwalk]
    simp
  have hlists : ∀ g, Lists (s.pending g) none := by
    intro g
    rw [← popped_eq_none hidle g]
    exact h.lists g
  simp only [baseEventWrite, ends_bind, ends_get]
  cases hreq : (s.pending family).reqList with
  | nil =>
      rw [ends_set]
      exact h.keep rfl rfl rfl hlists (fun g y m b hw => absurd hw (hidle g y m b)) trivial
  | cons x rest =>
      obtain ⟨huse, hwait⟩ := (hlists family).mem false x (by
        rw [EvICMPPending.list, hreq]
        exact mem_cons_self)
      have hpop := (hlists family).pop hreq
      simp only [ends_bind, ends_assertThat, ends_ite, ends_set]
      refine ⟨fun _ => ⟨fun _ => ?_, fun _ => ⟨fun _ => ⟨fun _ => ?_, fun _ => ?_⟩, fun _ => ?_⟩⟩,
        fun hno => ?_⟩
      · refine h.setPending family (t := resume _ family .write) hidle (hlists family)
          (fun _ => ⟨rfl, rfl⟩) ?_ rfl rfl (fun _ _ _ _ => (fun h => by cases h)) trivial
        rw [← hreq]
        rfl
      · refine notify_ends (n := (s.query family x).serial) h ?_ hidle _
        refine ⟨?_, rfl, rfl, fun g => ?_, holder_of_inUse huse, trivial⟩
        · apply holder_congr
          intro g y
          rw [query, query]
          by_cases hg : g = family
          · rw [hg, setPending_self]
            exact ⟨rfl, rfl⟩
          · rw [setPending_of_ne s _ hg]
            exact ⟨rfl, rfl⟩
        · by_cases hg : g = family
          · rw [hg, setPending_self, After.popped, if_pos rfl]
            exact hpop
          · rw [setPending_of_ne s _ hg, After.popped, if_neg (Ne.symm hg)]
            exact hlists g
      · have hretry : Lists ((s.pending family).setQuery x fun query =>
            { query with txRetryCount := query.txRetryCount + 1 }) none :=
          (hlists family).setQuery x _ ⟨rfl, rfl, rfl⟩
        refine h.setPending family (t := resume _ family .write) hidle hretry (fun y => ?_) ?_ rfl
          rfl (fun _ _ _ _ => (fun h => by cases h)) trivial
        · by_cases hy : y = x
          · rw [hy, EvICMPPending.setQuery_self]
            exact ⟨rfl, rfl⟩
          · rw [EvICMPPending.setQuery_of_ne _ _ hy]
            exact ⟨rfl, rfl⟩
        · rw [← hreq]
          rfl
      · refine h.setPending family hidle hpop.sent (fun y => ?_) rfl rfl rfl
          (fun _ _ _ _ => (by simp)) trivial
        by_cases hy : y = x
        · rw [hy, EvICMPPending.setQuery_self]
          exact ⟨rfl, rfl⟩
        · rw [EvICMPPending.setQuery_of_ne _ _ hy]
          exact ⟨rfl, rfl⟩
      · have hwaiting : ((s.pending family).arena x).waitingReply = true := by simpa using hno
        rw [hwait] at hwaiting
        cases hwaiting

/-! ## Timeouts -/

theorem nodeNext_fine {w : Bool} (h : Lists p none) (hx : x ∈ p.list w) :
    ∀ y, p.nodeNext x = some y → y ≠ x ∧ y ∈ p.list w := by
  intro y hy
  have hnodup := h.nodup w
  simp only [EvICMPPending.nodeNext, (h.mem w x hx).2, if_pos hx] at hy
  have hin : y ∈ p.list w := mem_of_getElem? hy
  refine ⟨?_, hin⟩
  rintro rfl
  obtain ⟨hlt, hget⟩ := List.getElem?_eq_some_iff.1 hy
  have hidx := hnodup.idxOf_getElem ((p.list w).idxOf y + 1) hlt
  rw [hget] at hidx
  omega

theorem timeoutCheckPending_inv (h : Inv s) (hidle : ∀ g y m b, s.walk ≠ .calling g y m b)
    (family : Family) (status : Bool) : Inv (timeoutCheckPending s family status) := by
  have hlists : ∀ g, Lists (s.pending g) none := by
    intro g
    rw [← popped_eq_none hidle g]
    exact h.lists g
  have hcall : ∀ (w : Walk) g y m b, s.walk = .calling g y m b → w = s.walk :=
    fun _ g y m b hw => absurd hw (hidle g y m b)
  have hend : Inv (timeoutTimerEnd s status) := h.keep rfl rfl rfl hlists (hcall _) trivial
  have hhead : ∀ g, Inv { s with
      walk := .timeout g false (s.pending g).reqList.head? true } := by
    intro g
    refine h.keep rfl rfl rfl hlists (hcall _) ?_
    intro y hy
    exact mem_of_mem_head? hy
  unfold timeoutCheckPending
  split
  · exact hhead family
  · cases family with
    | v4 =>
        dsimp only
        split
        · exact hhead .v6
        · exact hend
    | v6 => exact hend

theorem timeoutTurn_ends {w status : Bool} {node : Option Nat} (h : Inv s)
    (hwalk : s.walk = .timeout family w node status) (timedOut : Bool) :
    Ends (timeoutTurn family w node status timedOut) s (fun _ => Inv) fun _ _ => False := by
  have hidle : ∀ g y m b, s.walk ≠ .calling g y m b := by
    intro g y m b
    rw [hwalk]
    simp
  have hlists : ∀ g, Lists (s.pending g) none := by
    intro g
    rw [← popped_eq_none hidle g]
    exact h.lists g
  have hcall : ∀ (w : Walk) g y m b, s.walk = .calling g y m b → w = s.walk :=
    fun _ g y m b hw => absurd hw (hidle g y m b)
  have hfine := h.fine
  rw [hwalk] at hfine
  simp only [timeoutTurn, ends_bind, ends_get]
  cases node with
  | some x =>
      have hx : x ∈ (s.pending family).list w := hfine x rfl
      obtain ⟨huse, -⟩ := (hlists family).mem w x hx
      have hnext := nodeNext_fine (hlists family) hx
      simp only [ends_bind, ends_assertThat, ends_ite, ends_set]
      refine ⟨fun _ => ⟨fun _ => ?_, fun _ => ?_⟩, fun hno => ?_⟩
      · refine notify_ends (n := (s.query family x).serial) h ?_ hidle _
        refine ⟨rfl, rfl, rfl, hlists, holder_of_inUse huse, ?_⟩
        intro y hy
        exact hnext y hy
      · refine h.keep rfl rfl rfl hlists (hcall _) ?_
        intro y hy
        exact (hnext y hy).2
      · exact absurd (huse.symm.trans hno) (by simp)
  | none =>
      cases w with
      | false =>
          refine h.keep rfl rfl rfl hlists (hcall _) ?_
          intro y hy
          exact mem_of_mem_head? hy
      | true =>
          cases family with
          | v4 => exact timeoutCheckPending_inv h hidle .v6 status
          | v6 => exact h.keep rfl rfl rfl hlists (hcall _) trivial

/-! ## The program -/

theorem Walk.Fine.of_list {w : Walk} (hw : w.Fine s) (huser : ∀ g b node c, w ≠ .timeout g b node c)
    (hholder : ∀ g y n after, w = .calling g y n after →
      t.holder (g, y) = s.holder (g, y))
    (hlist : ∀ g y n after z, w = .calling g y n after → after.node = some z →
      ∀ b, z ∈ (s.pending g).list b → z ∈ (t.pending g).list b) : w.Fine t := by
  cases w with
  | idle | write => trivial
  | timeout g b node c => exact absurd rfl (huser g b node c)
  | calling g y n after =>
      obtain ⟨hn, hafter⟩ := hw
      refine ⟨(hholder g y n after rfl).trans hn, ?_⟩
      cases after with
      | read | write => trivial
      | timeout b node status =>
          intro z hz
          obtain ⟨hzy, hin⟩ := hafter z hz
          exact ⟨hzy, hlist g y n _ z rfl hz b hin⟩

theorem not_timeout_of_userRuns (huser : s.userRuns = true) :
    ∀ g b node c, s.walk ≠ .timeout g b node c := by
  intro g b node c hwalk
  rw [userRuns, hwalk] at huser
  cases huser

theorem requestSend_ends (h : Inv s) (huser : s.userRuns = true) (family : Family) (icmpCode : Nat)
    (timeoutMs : Int) (payload : Option Int) (cbHandler : Option Nat) (cbData : Nat)
    (ownerId : Int) :
    Ends (requestSend family icmpCode timeoutMs payload cbHandler cbData ownerId) s
      (fun _ => Inv) fun _ _ => False := by
  simp only [requestSend, ends_bind, ends_ite, ends_pure, ends_get]
  refine ⟨fun _ => h, fun _ => ?_⟩
  cases hslots : (s.pending family).slots with
  | nil => exact h
  | cons x slots =>
      have hlists := h.lists family
      have hfree := hlists.free x (by rw [hslots]; exact mem_cons_self)
      have hnone : s.holder (family, x) = none := by
        rw [holder]
        exact if_neg (by rw [query, hfree]; simp)
      simp only [ends_bind, ends_assertThat, ends_set, ends_pure]
      refine ⟨fun _ => ?_, fun hno => ?_⟩
      · obtain ⟨q, hq⟩ : ∃ q : ICMPQueryInfo,
            { inUse := true, slotId := x, ownerId, cbHandler, cbData, timeoutMs, icmpCode,
              icmpPacketSz := headerSz + (payload.map fun len => min (max len 0) maxPayload).getD 0,
              serial := s.accepted } = q := ⟨_, rfl⟩
        obtain ⟨p, hp⟩ : ∃ p : EvICMPPending,
            { (s.pending family).setQuery x (fun _ => q) with
              slots, reqList := (s.pending family).reqList ++ [x] } = p := ⟨_, rfl⟩
        rw [hq, hp]
        have hself : p.arena x = q := by
          rw [← hp]
          exact (s.pending family).setQuery_self x fun _ => q
        have hother : ∀ y, y ≠ x → p.arena y = (s.pending family).arena y := by
          intro y hy
          rw [← hp]
          exact (s.pending family).setQuery_of_ne (fun _ => q) hy
        have hgrow : ∀ b y, y ∈ (s.pending family).list b → y ∈ p.list b := by
          intro b y hy
          rw [← hp]
          cases b with
          | false => exact mem_append_left _ hy
          | true => exact hy
        have hnew : Lists p (s.popped family) := by
          rw [← hp]
          apply hlists.send hslots
          all_goals rw [← hq]
        obtain ⟨t, ht⟩ : ∃ t : EvICMPBase,
            { (s.setPending family p).setWriteEvent family with
              minSeenTimeout := if s.minSeenTimeout > timeoutMs then timeoutMs else s.minSeenTimeout
              timer := true
              accepted := s.accepted + 1 } = t := ⟨_, rfl⟩
        rw [ht]
        have hpending : t.pending = (s.setPending family p).pending := by rw [← ht]; rfl
        have hwalk : t.walk = s.walk := by rw [← ht]; rfl
        have hholder : t.holder = update s.holder (family, x) (some s.accepted) := by
          apply holder_eq_update
          · rw [holder_eq_some, query, hpending, setPending_self, hself, ← hq]
            exact ⟨rfl, rfl⟩
          · intro g y hy
            rw [query, query, hpending]
            by_cases hg : g = family
            · have hyx : y ≠ x := by
                rintro rfl
                exact hy (by rw [hg])
              rw [hg, setPending_self, hother y hyx]
            · rw [setPending_of_ne s _ hg]
        refine h.accept hholder (by rw [← ht]) (by rw [← ht]; rfl) (fun g => ?_) hnone hwalk ?_
        · rw [popped, hwalk, hpending]
          by_cases hg : g = family
          · rw [hg, setPending_self]
            exact hnew
          · rw [setPending_of_ne s _ hg]
            exact h.lists g
        · rw [hwalk]
          refine h.fine.of_list (not_timeout_of_userRuns huser) (fun g y n after hw => ?_)
            fun g y n after z hw hz b hin => ?_
          · have hfine := h.fine
            rw [hw] at hfine
            have hne : (g, y) ≠ (family, x) := by
              intro heq
              have hheld := hfine.1
              rw [heq, hnone] at hheld
              cases hheld
            rw [hholder, update_of_ne hne]
          · rw [hpending]
            by_cases hg : g = family
            · subst hg
              rw [setPending_self]
              exact hgrow b z hin
            · rw [setPending_of_ne s _ hg]
              exact hin
      · rw [hfree] at hno
        cases hno

theorem cancelByReqID_ends (h : Inv s) (huser : s.userRuns = true)
    (huse : (s.query family x).inUse = true) (hfar : Far s family x) :
    Ends (requestCancelByReqID none family x) s
      (fun _ t => Inv t ∧ t.walk = s.walk ∧
        (∀ w y, y ∈ (t.pending family).list w ↔ y ≠ x ∧ y ∈ (s.pending family).list w) ∧
        ∀ y, y ≠ x → t.query family y = s.query family y) fun _ _ => False := by
  simp only [requestCancelByReqID, ends_bind, ends_get, ends_assertThat, ends_set]
  refine ⟨fun _ => ?_, fun hno => absurd huse (by rw [hno]; simp)⟩
  obtain ⟨t, ht⟩ : ∃ t, (s.setPending family ((s.pending family).cancel x)).note
      [.released none (s.query family x).serial] = t := ⟨_, rfl⟩
  have hpending : t.pending =
      (s.setPending family ((s.pending family).cancel x)).pending := by rw [← ht]; rfl
  have hwalk : t.walk = s.walk := by rw [← ht]; rfl
  have hholder : t.holder = update s.holder (family, x) none := by
    rw [← ht, holder_cancelled]
  have hmem : ∀ w y, y ∈ (t.pending family).list w ↔ y ≠ x ∧ y ∈ (s.pending family).list w := by
    intro w y
    rw [hpending, setPending_self]
    exact (h.lists family).mem_cancel x y w
  -- Far from the request: what is called for, and what is remembered, is another one.
  have hcalled : ∀ g y n after, s.walk = .calling g y n after →
      (g, y) ≠ (family, x) ∧ (g = family → after.node ≠ some x) := by
    intro g y n after hw
    rw [Far, hw] at hfar
    constructor
    · rintro heq
      cases heq
      exact (hfar rfl).1 rfl
    · intro hg
      exact (hfar hg.symm).2
  rw [ht]
  refine ⟨?_, hwalk, hmem, fun y hyx => ?_⟩
  · refine h.release none hholder (by rw [← ht]; rfl) (by rw [← ht]; rfl) (fun g => ?_)
      (holder_of_inUse huse) (by simp) (fun g y n after _ => .inr hwalk) ?_
    · rw [popped, hwalk, hpending]
      by_cases hg : g = family
      · rw [hg, setPending_self]
        refine (h.lists family).cancel huse fun y => (and_iff_left_of_imp fun hy => ?_).symm
        rintro rfl
        split at hy
        next g' y' n after hw =>
          obtain ⟨hne, -⟩ := hcalled g' y' n after hw
          cases after with
          | read | timeout => cases hy
          | write =>
              simp only [After.popped] at hy
              split at hy
              next hg' => exact hne (by rw [hg', Option.some.inj hy])
              next => cases hy
        next => cases hy
      · rw [setPending_of_ne s _ hg]
        exact h.lists g
    · rw [hwalk]
      refine h.fine.of_list (not_timeout_of_userRuns huser) (fun g y n after hw => ?_)
        fun g y n after z hw hz b hin => ?_
      · rw [hholder, update_of_ne (hcalled g y n after hw).1]
      · by_cases hg : g = family
        · subst hg
          refine (hmem b z).2 ⟨?_, hin⟩
          rintro rfl
          exact (hcalled g y n after hw).2 rfl hz
        · rw [hpending, setPending_of_ne s _ hg]
          exact hin
  · rw [query, query, hpending, setPending_self, Lists.cancel_arena,
      update_of_ne hyx]

theorem far_congr (hwalk : t.walk = s.walk) (hfar : Far s family x) : Far t family x := by
  unfold Far at hfar ⊢
  rw [hwalk]
  exact hfar

theorem userRuns_congr (hwalk : t.walk = s.walk) (huser : s.userRuns = true) :
    t.userRuns = true := by
  unfold userRuns at huser ⊢
  rw [hwalk]
  exact huser

theorem cancelOwned_ends {ownerId : Int} {w : Bool} (l : List Nat) (s : EvICMPBase) (h : Inv s)
    (huser : s.userRuns = true) (hl : ∀ y ∈ l, y ∈ (s.pending family).list w) (hnodup : l.Nodup)
    (hfar : ∀ y ∈ l, (s.query family y).ownerId = ownerId → Far s family y) :
    Ends (cancelOwned family ownerId l) s
      (fun _ t => Inv t ∧ t.walk = s.walk ∧ ∀ b y, y ∈ (t.pending family).list b →
        y ∈ (s.pending family).list b ∧ t.query family y = s.query family y)
      fun _ _ => False := by
  induction l generalizing s with
  | nil => exact ⟨h, rfl, fun _ _ hy => ⟨hy, rfl⟩⟩
  | cons x rest ih =>
      obtain ⟨hnot, hrest⟩ := nodup_cons.1 hnodup
      have hx := hl x mem_cons_self
      have huse := ((h.lists family).mem w x hx).1
      have hrestin : ∀ y ∈ rest, y ∈ (s.pending family).list w := fun y hy =>
        hl y (mem_cons_of_mem _ hy)
      have hrestfar : ∀ y ∈ rest, (s.query family y).ownerId = ownerId → Far s family y :=
        fun y hy => hfar y (mem_cons_of_mem _ hy)
      simp only [cancelOwned, ends_bind, ends_get, ends_ite]
      refine ⟨fun howner => ?_, fun _ => ih s h huser hrestin hrest hrestfar⟩
      rw [show (s.query family x).slotId = x from (h.lists family).slotId x huse]
      apply (cancelByReqID_ends h huser huse (hfar x mem_cons_self howner)).imp
      intro _ t hpost
      obtain ⟨ht, hwalk, hmem, hquery⟩ := hpost
      have hne : ∀ y ∈ rest, y ≠ x := by
        rintro y hy rfl
        exact hnot hy
      apply (ih t ht (userRuns_congr hwalk huser)
        (fun y hy => (hmem w y).2 ⟨hne y hy, hrestin y hy⟩) hrest ?_).imp
      · intro _ u hpost
        obtain ⟨hu, huwalk, humem⟩ := hpost
        refine ⟨hu, huwalk.trans hwalk, fun b y hy => ?_⟩
        obtain ⟨hyt, hyquery⟩ := humem b y hy
        obtain ⟨hyx, hys⟩ := (hmem b y).1 hyt
        exact ⟨hys, hyquery.trans (hquery y hyx)⟩
      · intro y hy hyowner
        rw [hquery y (hne y hy)] at hyowner
        exact far_congr hwalk (hrestfar y hy hyowner)

theorem cancelByOwnerID_ends (h : Inv s) (huser : s.userRuns = true) (family : Family)
    (ownerId : Int) (horderly : Orderly s (.cancelByOwnerID family ownerId)) :
    Ends (requestCancelByOwnerID family ownerId) s (fun _ => Inv) fun _ _ => False := by
  have hlists := h.lists family
  simp only [requestCancelByOwnerID, ends_bind, ends_get]
  apply (cancelOwned_ends (w := false) _ s h huser (fun y hy => hy) (hlists.nodup false)
    fun y hy => horderly y (mem_append_left _ hy)).imp
  intro _ t hpost
  obtain ⟨ht, hwalk, hmem⟩ := hpost
  have htlists := ht.lists family
  apply (cancelOwned_ends (w := true) _ t ht (userRuns_congr hwalk huser) (fun y hy => hy)
    (htlists.nodup true) ?_).imp
  · intro _ u hu
    exact hu.1
  · intro y hy howner
    obtain ⟨hin, hquery⟩ := hmem true y hy
    rw [hquery] at howner
    exact far_congr hwalk (horderly y (mem_append_right _ hin) howner)

/-! ## Runs -/

/-- What may stop the base: the program cancels what is not in use. -/
def Stops (f : Fault) (s : EvICMPBase) : Prop := f = .notInUse none ∧ Inv s

/-- **One step.**  An orderly step keeps the invariant. -/
theorem handle_ends (e : Event) (s : EvICMPBase) (h : Inv s) (horderly : Orderly s e) :
    Ends (handle e) s (fun _ => Inv) Stops := by
  have hno : ∀ {x : M PUnit}, Ends x s (fun _ => Inv) (fun _ _ => False) →
      Ends x s (fun _ => Inv) Stops := by
    intro x hx
    exact hx.total fun _ _ ht => ht
  cases e with
  | requestSend family icmpCode timeoutMs payload cbHandler cbData ownerId =>
      simp only [handle, ends_bind, ends_get, ends_ite, ends_pure]
      refine ⟨fun huser => ?_, fun _ => h⟩
      exact (requestSend_ends h huser family icmpCode timeoutMs payload cbHandler cbData
        ownerId).total fun _ _ ht => ht
  | cancelByReqID family reqId =>
      simp only [handle, ends_bind, ends_get, ends_ite, ends_pure]
      refine ⟨fun huser => ?_, fun _ => h⟩
      by_cases huse : (s.query family reqId).inUse = true
      · apply (cancelByReqID_ends h huser huse horderly).total
        intro _ t ht
        exact ht.1
      · simp only [requestCancelByReqID, ends_bind, ends_get, ends_assertThat]
        exact ⟨fun hin => absurd hin huse, fun _ => ⟨rfl, h⟩⟩
  | cancelByOwnerID family ownerId =>
      simp only [handle, ends_bind, ends_get, ends_ite, ends_pure]
      exact ⟨fun huser => hno (cancelByOwnerID_ends h huser family ownerId horderly), fun _ => h⟩
  | eventRead family packet =>
      simp only [handle, ends_bind, ends_get, ends_ite, ends_pure]
      exact ⟨fun hidle => hno (baseEventRead_ends h hidle.1 family packet), fun _ => h⟩
  | eventWrite family canWriteSz =>
      simp only [handle, ends_bind, ends_get, ends_ite, ends_pure, ends_set]
      refine ⟨fun hturn => ?_, fun _ => h⟩
      have hidle := hturn.1
      have hcall : ∀ g y m b, s.walk ≠ .calling g y m b := by
        intro g y m b
        rw [hidle]
        simp
      refine h.keep rfl rfl rfl (fun g => ?_) (fun g y m b hw => absurd hw (hcall g y m b)) trivial
      have hlists := h.lists g
      rw [popped_eq_none hcall] at hlists
      exact hlists
  | timeoutTimer =>
      simp only [handle, ends_bind, ends_get, ends_ite, ends_pure, ends_set]
      refine ⟨fun hturn => timeoutCheckPending_inv h ?_ .v4 false, fun _ => h⟩
      intro g y m b
      rw [hturn.1]
      simp
  | turn sent timedOut =>
      simp only [handle, ends_bind, ends_get]
      split
      next family canWriteSz wroteBytes hwalk => exact hno (baseEventWrite_ends h hwalk sent)
      next family w node status hwalk => exact hno (timeoutTurn_ends h hwalk timedOut)
      next => exact h
  | ret =>
      simp only [handle, ends_bind, ends_get]
      split
      next family x n after hwalk =>
        have hfine := h.fine
        rw [hwalk] at hfine
        refine hno (finishQuery_ends h ⟨rfl, rfl, rfl, fun g => ?_, hfine.1, hfine.2⟩ ?_)
        · have hlists := h.lists g
          rw [popped, hwalk] at hlists
          exact hlists
        · intro g y m b hw
          rw [hwalk] at hw
          cases hw
          rfl
      next => exact h

theorem inv_new (identyId : Nat) : Inv { identyId } where
  lists _ := by
    refine ⟨fun w => ?_, fun w x hx => ?_, nofun, nofun, nofun, nodup_range', fun _ _ => rfl⟩
    · cases w with
      | false | true => exact nodup_nil
    · cases w with
      | false | true => cases hx
  books := books_new
  once _ := Nat.zero_le 1
  called _ _ _ := nofun
  uncalled _ _ := rfl
  own _ _ := nofun
  fine := trivial

/-- **The requests of the base.**  In every run in which no callback cancels its own request
or that of the remembered node, the base fails no assertion of its own, each accepted
request is released once and called once at most, and the handling of a request releases
no other. -/
theorem requests_proper (identyId : Nat) (evs : List Event)
    (horderly : Runs.Meets handle Orderly (.live { identyId }) evs) :
    Sound (runFrom identyId evs) ∧ Proper (runFrom identyId evs).state := by
  have hnew : Runs.Holds Inv Stops (.live { identyId }) := inv_new identyId
  have h := Runs.invariant_run_of handle_ends hnew evs horderly
  obtain ⟨hsound, hinv⟩ := h.faults fun _ _ hs => hs
  exact ⟨hsound, hinv.proper⟩

instance (s : EvICMPBase) (family : Family) (x : Nat) : Decidable (Far s family x) := by
  unfold Far
  split <;> infer_instance

instance : DecidablePred (Orderly s) := by
  intro e
  unfold Orderly
  split <;> infer_instance

/-- Two requests have been written, and the reply to the second one is being handled. -/
def secondReplied : List Event :=
  [.requestSend .v4 0 500 (some 8) (some 1) 0 1, .requestSend .v4 0 500 (some 8) (some 1) 0 2,
    .eventWrite .v4 8092, .turn 16 false, .turn 16 false, .turn 0 false,
    .eventRead .v4 { dataRead := 36, icmpType := 0, icmpCode := 0, icmpId := 7, icmpSeq := 1 }]

/-- Its callback sends a third and cancels the first; then the third times out. -/
def orderlyRun : List Event :=
  secondReplied ++ [.requestSend .v4 0 500 none (some 1) 0 3, .cancelByOwnerID .v4 1, .ret,
    .timeoutTimer, .turn 0 true, .ret, .turn 0 false, .turn 0 false, .turn 0 false]

theorem requests_proper_orderly :
    Sound (runFrom 7 orderlyRun) ∧ Proper (runFrom 7 orderlyRun).state :=
  requests_proper 7 _ (by decide)

/-- If its callback cancels the requests of its owner, the handler releases the first
request. -/
theorem own_request_cancelled :
    ¬ Proper (runFrom 7 (secondReplied ++ [.cancelByOwnerID .v4 2, .ret])).state := by
  intro h
  exact absurd (h.own 1 0 (by decide)) (by decide)

end EvICMP
