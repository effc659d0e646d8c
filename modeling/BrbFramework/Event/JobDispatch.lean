import BrbFramework.Event.Jobs
import BrbFramework.Lib.Logs

/-!
# The walk over the queued jobs

The walk goes wrong when a callback deletes its own job or the job of the node that the
walk remembers. Otherwise the remembered node is on the list, and none of the jobs from
it on has run in this dispatch: new jobs join the list behind them.
-/

namespace EvKQJobs

open Handler BrbData Logs List Function MemSlotBase EvKQBase

variable {s t : EvKQBase} {x : Nat}

/-- No failed assertion but those of `EvKQJobsCtl` on what it is given. -/
def Sound (c : Runs.Config Fault EvKQBase) : Prop :=
  ∀ f, c.fault = some f → f = .ctlNotActive ∨ f = .ctlAction

/-- A registration runs once in a dispatch, is released once, and the dispatcher does not
use its slot after that. -/
structure Proper (s : EvKQBase) : Prop where
  once : s.ranNow.Nodup
  freed : ∀ n, s.log.count (.freed n) ≤ 1
  touched : ∀ n, Before s.log (.touched n) (.freed n)

/-- A callback does not delete its own job or that of the node that the walk remembers. -/
def Orderly (s : EvKQBase) : Event → Prop
  | .ctl .delete kqJobId =>
      match s.walk with
      | .calling x _ node => kqJobId.toNat ≠ x ∧ some kqJobId.toNat ≠ node
      | _ => True
  | _ => True

/-- The walk will look at `node` next, and the jobs from there on have not run. -/
def Ahead (s : EvKQBase) (node : Option Nat) : Prop :=
  ∀ y, node = some y → ∃ before after, s.memslot.list ioloop = before ++ y :: after ∧
    ∀ z ∈ y :: after, (s.job z).serial ∉ s.ranNow

/-- The walk is not at the job `x`. -/
def Walk.Far (x : Nat) : Walk → Prop
  | idle => True
  | next node => some x ≠ node
  | calling y _ node => x ≠ y ∧ some x ≠ node

def Walk.Fine (s : EvKQBase) : Walk → Prop
  | idle => True
  | next node => Ahead s node
  | calling x serial node =>
      x ∈ s.memslot.list ioloop ∧ (s.job x).serial = serial ∧ some x ≠ node ∧ Ahead s node

structure Inv (s : EvKQBase) : Prop where
  wf : s.memslot.WF
  two : ∀ i, ∀ x ∈ s.memslot.list i, i < 2
  active : ∀ x, (s.job x).active = true ↔ ∃ i, x ∈ s.memslot.list i
  fresh : ∀ i, ∀ x ∈ s.memslot.list i, (s.job x).serial < s.added
  inj : ∀ i j x y, x ∈ s.memslot.list i → y ∈ s.memslot.list j →
    (s.job x).serial = (s.job y).serial → x = y
  walk : s.walk.Fine s
  ran : ∀ n ∈ s.ranNow, n < s.added
  gone : ∀ n, .freed n ∈ s.log → n < s.added ∧ ∀ i, ∀ x ∈ s.memslot.list i, (s.job x).serial ≠ n
  proper : Proper s

theorem linked_iff (h : Inv s) : s.linked x = true ↔ (s.job x).active = true := by
  rw [h.active]
  simp only [linked, decide_eq_true_eq]
  constructor
  · rintro (hx | hx)
    · exact ⟨_, hx⟩
    · exact ⟨_, hx⟩
  · rintro ⟨i, hx⟩
    obtain rfl | rfl : i = 0 ∨ i = 1 := by
      have := h.two i x hx
      omega
    · exact .inl hx
    · exact .inr hx

/-! ## The nodes -/

theorem nodeNext_eq (h : s.memslot.WF) {before after : List Nat}
    (hlist : s.memslot.list ioloop = before ++ x :: after) : s.nodeNext x = after.head? := by
  have hx : x ∈ s.memslot.list ioloop := by simp [hlist]
  have hnodup := h.list_nodup ioloop
  rw [hlist] at hnodup
  have hnot : x ∉ before := fun hin =>
    (nodup_append.1 hnodup).2.2 x hin x mem_cons_self rfl
  have hidx : (before ++ x :: after).idxOf x = before.length := by
    rw [idxOf_append_of_notMem hnot, idxOf_cons_self, Nat.add_zero]
  simp only [nodeNext, (h.linked ioloop x hx).1, if_pos hx]
  rw [hlist, hidx, getElem?_append_right (by omega)]
  simp [head?_eq_getElem?]

theorem Ahead.rest (h : Inv s) (ha : Ahead s (some x)) (y : Nat) (hy : s.nodeNext x = some y) :
    ∃ before after, s.memslot.list ioloop = before ++ y :: after ∧ x ∉ y :: after ∧
      ∀ z ∈ y :: after, (s.job z).serial ∉ s.ranNow := by
  obtain ⟨before, after, hlist, hran⟩ := ha x rfl
  rw [nodeNext_eq h.wf hlist] at hy
  have hnodup := h.wf.list_nodup ioloop
  rw [hlist] at hnodup
  have hnot : x ∉ after := (nodup_cons.1 (nodup_append.1 hnodup).2.1).1
  cases after with
  | nil => cases hy
  | cons z after =>
      obtain rfl := Option.some.inj hy
      refine ⟨before ++ [x], after, by rw [hlist, append_assoc]; rfl, hnot, fun z hz => ?_⟩
      exact hran z (mem_cons_of_mem _ hz)

theorem Ahead.behind (h : Inv s) (ha : Ahead s (some x)) : Ahead s (s.nodeNext x) := by
  intro y hy
  obtain ⟨before, after, hlist, -, hran⟩ := ha.rest h y hy
  exact ⟨before, after, hlist, hran⟩

theorem Ahead.mem (ha : Ahead s (some x)) : x ∈ s.memslot.list ioloop := by
  obtain ⟨before, after, hlist, -⟩ := ha x rfl
  simp [hlist]

theorem nodeNext_ne (h : Inv s) (ha : Ahead s (some x)) : some x ≠ s.nodeNext x := by
  intro heq
  obtain ⟨before, after, -, hnot, -⟩ := ha.rest h x heq.symm
  exact hnot mem_cons_self

theorem Ahead.erase {node : Option Nat} (ha : Ahead s node) (hx : some x ≠ node)
    (hlist : t.memslot.list ioloop = (s.memslot.list ioloop).erase x)
    (hjobs : ∀ y, y ≠ x → t.job y = s.job y) (hran : t.ranNow = s.ranNow)
    (hnodup : (s.memslot.list ioloop).Nodup) : Ahead t node := by
  rintro y rfl
  obtain ⟨before, after, hold, hserial⟩ := ha y rfl
  have hne : y ≠ x := fun heq => hx (congrArg some heq.symm)
  rw [hold] at hlist hnodup
  by_cases hbefore : x ∈ before
  · refine ⟨before.erase x, after, by rw [hlist, erase_append_left _ hbefore], fun z hz => ?_⟩
    have hzx : z ≠ x := by
      rintro rfl
      exact (nodup_append.1 hnodup).2.2 z hbefore z hz rfl
    rw [hjobs z hzx, hran]
    exact hserial z hz
  · refine ⟨before, after.erase x, ?_, fun z hz => ?_⟩
    · rw [hlist, erase_append_right _ hbefore, erase_cons_tail (by simpa using hne)]
    · have htail := (nodup_append.1 hnodup).2.1
      have hz' : z ∈ y :: after := by
        rcases mem_cons.1 hz with rfl | hz
        · exact mem_cons_self
        · exact mem_cons_of_mem _ (mem_of_mem_erase hz)
      have hzx : z ≠ x := by
        rintro rfl
        rcases mem_cons.1 hz with heq | hz
        · exact hne heq.symm
        · exact ((nodup_cons.1 htail).2.mem_erase_iff.1 hz).1 rfl
      rw [hjobs z hzx, hran]
      exact hserial z hz'

theorem Ahead.append {node : Option Nat} (ha : Ahead s node) (hs : Inv s)
    (hlist : t.memslot.list ioloop = s.memslot.list ioloop ++ [x])
    (hold : ∀ y ∈ s.memslot.list ioloop, t.job y = s.job y) (hran : t.ranNow = s.ranNow)
    (hx : (t.job x).serial = s.added) : Ahead t node := by
  rintro y rfl
  obtain ⟨before, after, hbefore, hserial⟩ := ha y rfl
  refine ⟨before, after ++ [x], by rw [hlist, hbefore, append_assoc]; rfl, fun z hz => ?_⟩
  rw [← cons_append, mem_append, mem_singleton] at hz
  rw [hran]
  rcases hz with hz | rfl
  · rw [hold z (by rw [hbefore]; exact mem_append_right _ hz)]
    exact hserial z hz
  · rw [hx]
    exact fun hin => absurd (hs.ran _ hin) (Nat.lt_irrefl _)

theorem Ahead.of_eq {node : Option Nat} (ha : Ahead s node)
    (hlist : t.memslot.list ioloop = s.memslot.list ioloop)
    (hserial : ∀ y ∈ s.memslot.list ioloop, (t.job y).serial = (s.job y).serial)
    (hran : t.ranNow = s.ranNow) : Ahead t node := by
  rintro y rfl
  obtain ⟨before, after, hbefore, hold⟩ := ha y rfl
  refine ⟨before, after, hlist.trans hbefore, fun z hz => ?_⟩
  rw [hserial z (by rw [hbefore]; exact mem_append_right _ hz), hran]
  exact hold z hz

theorem Walk.Fine.of_eq {walk : Walk} (h : walk.Fine s)
    (hlist : t.memslot.list ioloop = s.memslot.list ioloop)
    (hserial : ∀ y ∈ s.memslot.list ioloop, (t.job y).serial = (s.job y).serial)
    (hran : t.ranNow = s.ranNow) : walk.Fine t := by
  cases walk with
  | idle => trivial
  | next node => exact Ahead.of_eq h hlist hserial hran
  | calling y serial node =>
      obtain ⟨hy, hjob, hne, ha⟩ := h
      exact ⟨hlist ▸ hy, (hserial y hy).trans hjob, hne, ha.of_eq hlist hserial hran⟩

/-! ## Steps -/

theorem Inv.move {l : List Obs} (h : Inv s) (hmemslot : t.memslot = s.memslot)
    (hadded : t.added = s.added) (hlog : t.log = s.log ++ l) (hl : ∀ n, .freed n ∉ l)
    (htouched : ∀ n, .touched n ∈ l → .freed n ∉ s.log) (hran : ∀ n ∈ t.ranNow, n < s.added)
    (honce : t.ranNow.Nodup) (hwalk : t.walk.Fine t) : Inv t := by
  have hjob : t.job = s.job := by
    funext y
    rw [job, hmemslot, job]
  refine ⟨hmemslot ▸ h.wf, hmemslot ▸ h.two, fun y => ?_, fun i y hy => ?_,
    fun i j y z hy hz heq => ?_, hwalk, fun n hn => ?_, fun n hn => ?_, honce, fun n => ?_,
    fun n => ?_⟩
  · rw [hjob, hmemslot]
    exact h.active y
  · rw [hjob, hadded]
    exact h.fresh i y (hmemslot ▸ hy)
  · rw [hjob] at heq
    exact h.inj i j y z (hmemslot ▸ hy) (hmemslot ▸ hz) heq
  · rw [hadded]
    exact hran n hn
  · rw [hlog, mem_append] at hn
    rw [hadded, hmemslot, hjob]
    exact h.gone n (hn.resolve_right (hl n))
  · rw [hlog, count_append, count_eq_zero_of_not_mem (hl n)]
    exact h.proper.freed n
  · rw [hlog]
    exact (h.proper.touched n).append fun hin => ⟨htouched n hin, hl n⟩

theorem Inv.modify {f : EvKQQueuedJob → EvKQQueuedJob} (h : Inv s)
    (hmemslot : t.memslot = s.memslot.modifyData x f)
    (hf : ∀ kqJob, (f kqJob).serial = kqJob.serial ∧ (f kqJob).active = kqJob.active)
    (hadded : t.added = s.added) (hlog : t.log = s.log) (hran : t.ranNow = s.ranNow)
    (hwalk : t.walk.Fine s) : Inv t := by
  have hlist : t.memslot.list = s.memslot.list := by rw [hmemslot, modifyData_list]
  have hjob : ∀ y, (t.job y).serial = (s.job y).serial ∧ (t.job y).active = (s.job y).active := by
    intro y
    by_cases hy : y = x
    · rw [hy, job, hmemslot, slotData_modifyData_self]
      exact hf _
    · rw [job, hmemslot, slotData_modifyData_of_ne _ _ _ hy]
      exact ⟨rfl, rfl⟩
  refine ⟨hmemslot ▸ h.wf.modifyData x f, fun i y hy => ?_, fun y => ?_, fun i y hy => ?_,
    fun i j y z hy hz heq => ?_, ?_, fun n hn => ?_, fun n hn => ?_, ?_, ?_, ?_⟩
  · exact h.two i y (hlist ▸ hy)
  · rw [(hjob y).2, hlist]
    exact h.active y
  · rw [(hjob y).1, hadded]
    exact h.fresh i y (hlist ▸ hy)
  · rw [(hjob y).1, (hjob z).1] at heq
    exact h.inj i j y z (hlist ▸ hy) (hlist ▸ hz) heq
  · exact hwalk.of_eq (by rw [hlist]) (fun y _ => (hjob y).1) hran
  · rw [hadded]
    exact h.ran n (hran ▸ hn)
  · obtain ⟨hlt, hno⟩ := h.gone n (hlog ▸ hn)
    refine ⟨hadded ▸ hlt, fun i y hy => ?_⟩
    rw [(hjob y).1]
    exact hno i y (hlist ▸ hy)
  · exact hran ▸ h.proper.once
  · exact hlog ▸ h.proper.freed
  · exact hlog ▸ h.proper.touched

theorem Inv.release {i : Nat} (h : Inv s) (hx : x ∈ s.memslot.list i)
    (ht : t = { s.note [.freed (s.job x).serial] with
      memslot := (s.memslot.modifyData x fun _ => {}).slotFree x })
    (hwalk : s.walk.Fine t) : Inv t := by
  have hwf := h.wf.modifyData x fun _ => ({} : EvKQQueuedJob)
  have hin : x ∈ (s.memslot.modifyData x fun _ => {}).list i := hx
  have hmemslot : t.memslot = (s.memslot.modifyData x fun _ => {}).slotFree x := by rw [ht]
  have hlog : t.log = s.log ++ [.freed (s.job x).serial] := by rw [ht]; rfl
  have hself : t.job x = {} := by
    rw [job, hmemslot, slotFree_data]
    exact slotData_modifyData_self ..
  have hjob : ∀ y, y ≠ x → t.job y = s.job y := by
    intro y hy
    rw [job, hmemslot, slotFree_data]
    exact slotData_modifyData_of_ne _ _ _ hy
  have hmem : ∀ j y, y ∈ t.memslot.list j ↔ y ≠ x ∧ y ∈ s.memslot.list j := by
    intro j y
    rw [hmemslot]
    exact hwf.mem_slotFree hin
  have hadded : t.added = s.added := by rw [ht]; rfl
  have hran : t.ranNow = s.ranNow := by rw [ht]; rfl
  refine ⟨hmemslot ▸ hwf.slotFree hin, fun j y hy => ?_, fun y => ?_, fun j y hy => ?_,
    fun j k y z hy hz heq => ?_, ?_, fun n hn => ?_, fun n hn => ?_, ?_, fun n => ?_, fun n => ?_⟩
  · exact h.two j y ((hmem j y).1 hy).2
  · by_cases hy : y = x
    · rw [hy, hself]
      exact iff_of_false nofun fun ⟨j, hj⟩ => ((hmem j x).1 hj).1 rfl
    · rw [hjob y hy, h.active]
      exact exists_congr fun j => by rw [hmem, and_iff_right hy]
  · obtain ⟨hne, hy⟩ := (hmem j y).1 hy
    rw [hjob y hne, hadded]
    exact h.fresh j y hy
  · obtain ⟨hney, hy⟩ := (hmem j y).1 hy
    obtain ⟨hnez, hz⟩ := (hmem k z).1 hz
    rw [hjob y hney, hjob z hnez] at heq
    exact h.inj j k y z hy hz heq
  · rw [ht] at hwalk ⊢
    exact hwalk
  · rw [hadded]
    exact h.ran n (hran ▸ hn)
  · rw [hadded]
    rw [hlog, mem_append, mem_singleton] at hn
    rcases hn with hn | hn
    · obtain ⟨hlt, hno⟩ := h.gone n hn
      refine ⟨hlt, fun j y hy => ?_⟩
      obtain ⟨hne, hy⟩ := (hmem j y).1 hy
      rw [hjob y hne]
      exact hno j y hy
    · obtain rfl := Obs.freed.inj hn
      refine ⟨h.fresh i x hx, fun j y hy heq => ?_⟩
      obtain ⟨hne, hy⟩ := (hmem j y).1 hy
      rw [hjob y hne] at heq
      exact hne (h.inj j i y x hy hx heq)
  · exact hran ▸ h.proper.once
  · rw [hlog, count_append, count_singleton]
    by_cases hn : n = (s.job x).serial
    · subst hn
      rw [count_eq_zero_of_not_mem fun hin => (h.gone _ hin).2 i x hx rfl]
      split <;> omega
    · rw [if_neg (by simpa using fun heq => hn heq.symm)]
      exact h.proper.freed n
  · rw [hlog]
    exact (h.proper.touched n).append_of_notMem (by simp)

theorem Walk.Fine.release {i : Nat} {walk : Walk} (hw : walk.Fine s) (h : Inv s)
    (hx : x ∈ s.memslot.list i)
    (ht : t = { s.note [.freed (s.job x).serial] with
      memslot := (s.memslot.modifyData x fun _ => {}).slotFree x })
    (hfar : walk.Far x) : walk.Fine t := by
  have hwf := h.wf.modifyData x fun _ => ({} : EvKQQueuedJob)
  have hin : x ∈ (s.memslot.modifyData x fun _ => {}).list i := hx
  have hmemslot : t.memslot = (s.memslot.modifyData x fun _ => {}).slotFree x := by rw [ht]
  have hjob : ∀ y, y ≠ x → t.job y = s.job y := by
    intro y hy
    rw [job, hmemslot, slotFree_data]
    exact slotData_modifyData_of_ne _ _ _ hy
  have hran : t.ranNow = s.ranNow := by rw [ht]; rfl
  have hlist : t.memslot.list ioloop = (s.memslot.list ioloop).erase x := by
    rw [hmemslot, hwf.slotFree_list hin, modifyData_list]
    by_cases hi : i = ioloop
    · rw [hi, update_self]
    · rw [update_of_ne (Ne.symm hi), erase_of_not_mem]
      exact fun hold => hi (h.wf.list_unique hx hold)
  have hnodup := h.wf.list_nodup ioloop
  cases walk with
  | idle => trivial
  | next node => exact Ahead.erase hw hfar hlist hjob hran hnodup
  | calling y serial node =>
      obtain ⟨hy, hserial, hne, ha⟩ := hw
      have hyx : y ≠ x := fun heq => hfar.1 heq.symm
      refine ⟨?_, by rw [hjob y hyx]; exact hserial, hne, ha.erase hfar.2 hlist hjob hran hnodup⟩
      rw [hlist]
      exact (mem_erase_of_ne hyx).2 hy

theorem Inv.add {k : Nat} (h : Inv s) (hwf : t.memslot.WF) (hk : k < 2)
    (hfresh : ∀ i, x ∉ s.memslot.list i)
    (hmem : ∀ i y, y ∈ t.memslot.list i ↔ (y = x ∧ i = k) ∨ y ∈ s.memslot.list i)
    (hlist : t.memslot.list ioloop = s.memslot.list ioloop ++ [x] ∨
      t.memslot.list ioloop = s.memslot.list ioloop)
    (hself : (t.job x).active = true ∧ (t.job x).serial = s.added)
    (hjob : ∀ y, y ≠ x → t.job y = s.job y) (hadded : t.added = s.added + 1)
    (hlog : t.log = s.log) (hran : t.ranNow = s.ranNow) (hwalk : t.walk = s.walk) : Inv t := by
  have hne : ∀ i, ∀ y ∈ s.memslot.list i, y ≠ x := fun i y hy heq => hfresh i (heq ▸ hy)
  have hold : ∀ y ∈ s.memslot.list ioloop, t.job y = s.job y := fun y hy => hjob y (hne _ y hy)
  have hahead : ∀ node, Ahead s node → Ahead t node := by
    intro node ha
    rcases hlist with hlist | hlist
    · exact ha.append h hlist hold hran hself.2
    · exact ha.of_eq hlist (fun y hy => by rw [hold y hy]) hran
  refine ⟨hwf, fun i y hy => ?_, fun y => ?_, fun i y hy => ?_, fun i j y z hy hz heq => ?_, ?_,
    fun n hn => ?_, fun n hn => ?_, ?_, ?_, ?_⟩
  · rcases (hmem i y).1 hy with ⟨-, rfl⟩ | hy
    · exact hk
    · exact h.two i y hy
  · by_cases hy : y = x
    · rw [hy]
      exact iff_of_true hself.1 ⟨k, (hmem k x).2 (.inl ⟨rfl, rfl⟩)⟩
    · rw [hjob y hy, h.active]
      refine exists_congr fun i => ?_
      rw [hmem]
      simp [hy]
  · rw [hadded]
    rcases (hmem i y).1 hy with ⟨rfl, -⟩ | hy
    · rw [hself.2]
      exact Nat.lt_succ_self _
    · rw [hjob y (hne i y hy)]
      exact Nat.lt_succ_of_lt (h.fresh i y hy)
  · rcases (hmem i y).1 hy with ⟨rfl, -⟩ | hy
    · rcases (hmem j z).1 hz with ⟨rfl, -⟩ | hz
      · rfl
      · rw [hself.2, hjob z (hne j z hz)] at heq
        exact absurd heq (Nat.ne_of_gt (h.fresh j z hz))
    · rcases (hmem j z).1 hz with ⟨rfl, -⟩ | hz
      · rw [hself.2, hjob y (hne i y hy)] at heq
        exact absurd heq (Nat.ne_of_lt (h.fresh i y hy))
      · rw [hjob y (hne i y hy), hjob z (hne j z hz)] at heq
        exact h.inj i j y z hy hz heq
  · rw [hwalk]
    have hfine := h.walk
    cases hw : s.walk with
    | idle => trivial
    | next node =>
        rw [hw] at hfine
        exact hahead node hfine
    | calling y serial node =>
        rw [hw] at hfine
        obtain ⟨hy, hserial, hnext, ha⟩ := hfine
        exact ⟨(hmem _ y).2 (.inr hy), by rw [hold y hy]; exact hserial, hnext, hahead node ha⟩
  · rw [hadded]
    exact Nat.lt_succ_of_lt (h.ran n (hran ▸ hn))
  · obtain ⟨hlt, hno⟩ := h.gone n (hlog ▸ hn)
    refine ⟨hadded ▸ Nat.lt_succ_of_lt hlt, fun i y hy => ?_⟩
    rcases (hmem i y).1 hy with ⟨rfl, -⟩ | hy
    · rw [hself.2]
      exact Nat.ne_of_gt hlt
    · rw [hjob y (hne i y hy)]
      exact hno i y hy
  · exact hran ▸ h.proper.once
  · exact hlog ▸ h.proper.freed
  · exact hlog ▸ h.proper.touched

theorem list_of_timed {memslot : MemSlotBase EvKQQueuedJob} (h : s.memslot.WF)
    (hgrab : s.memslot.slotGrab = some (x, memslot)) :
    (memslot.slotListIDSwitch x timed).list =
      update s.memslot.list timed (x :: s.memslot.list timed) := by
  have hx : x ∈ memslot.list ioloop := (mem_slotGrab hgrab).2 (.inl ⟨rfl, rfl⟩)
  have hfresh := h.slotGrab_fresh hgrab ioloop
  have hzero : (memslot.list ioloop).erase x = s.memslot.list ioloop := by
    rw [slotGrab_list_zero hgrab, erase_append_right _ hfresh]
    simp
  rw [(h.slotGrab hgrab).slotListIDSwitch_list hx (by decide) (by decide), hzero,
    slotGrab_list_of_ne hgrab (by decide)]
  funext i
  by_cases htimed : i = timed
  · rw [htimed, update_self, update_self]
  · rw [update_of_ne htimed, update_of_ne htimed]
    by_cases hi : i = ioloop
    · rw [hi, update_self]
    · rw [update_of_ne hi]
      exact slotGrab_list_of_ne hgrab hi

theorem Inv.bounce {memslot : MemSlotBase EvKQQueuedJob} (h : Inv s)
    (hgrab : s.memslot.slotGrab = some (x, memslot))
    (ht : t = { s with memslot := (memslot.modifyData x fun _ => {}).slotFree x }) : Inv t := by
  have hwf := (h.wf.slotGrab hgrab).modifyData x fun _ => ({} : EvKQQueuedJob)
  have hfresh := h.wf.slotGrab_fresh hgrab
  have hx : x ∈ (memslot.modifyData x fun _ => {}).list ioloop :=
    (mem_slotGrab hgrab).2 (.inl ⟨rfl, rfl⟩)
  have hmemslot : t.memslot = (memslot.modifyData x fun _ => {}).slotFree x := by rw [ht]
  have hlist : t.memslot.list = s.memslot.list := by
    rw [hmemslot, hwf.slotFree_list hx, modifyData_list,
      slotGrab_list_zero hgrab, erase_append_right _ (hfresh ioloop)]
    funext i
    by_cases hi : i = ioloop
    · rw [hi, update_self]
      simp
    · rw [update_of_ne hi]
      exact slotGrab_list_of_ne hgrab hi
  have hjob : ∀ y, y ≠ x → t.job y = s.job y := by
    intro y hy
    rw [job, hmemslot, slotFree_data,
      slotData_modifyData_of_ne _ _ _ hy]
    exact slotGrab_data hgrab y
  have hself : t.job x = {} := by
    rw [job, hmemslot, slotFree_data]
    exact slotData_modifyData_self ..
  have hne : ∀ i, ∀ y ∈ s.memslot.list i, y ≠ x := fun i y hy heq => hfresh i (heq ▸ hy)
  have hwalk : t.walk.Fine t := by
    rw [show t.walk = s.walk by rw [ht]]
    exact h.walk.of_eq (by rw [hlist]) (fun y hy => by rw [hjob y (hne _ y hy)]) (by rw [ht])
  refine ⟨hmemslot ▸ hwf.slotFree hx, fun i y hy => ?_, fun y => ?_, fun i y hy => ?_,
    fun i j y z hy hz heq => ?_, hwalk, fun n hn => ?_, fun n hn => ?_, ?_, ?_, ?_⟩
  · exact h.two i y (hlist ▸ hy)
  · rw [hlist]
    by_cases hy : y = x
    · rw [hy, hself]
      exact iff_of_false nofun fun ⟨i, hi⟩ => hfresh i hi
    · rw [hjob y hy]
      exact h.active y
  · rw [hlist] at hy
    rw [hjob y (hne i y hy), ht]
    exact h.fresh i y hy
  · rw [hlist] at hy hz
    rw [hjob y (hne i y hy), hjob z (hne j z hz)] at heq
    exact h.inj i j y z hy hz heq
  · rw [ht] at hn ⊢
    exact h.ran n hn
  · have hgone := h.gone n (by rw [ht] at hn; exact hn)
    refine ⟨by rw [ht]; exact hgone.1, fun i y hy => ?_⟩
    rw [hlist] at hy
    rw [hjob y (hne i y hy)]
    exact hgone.2 i y hy
  · rw [ht]
    exact h.proper.once
  · rw [ht]
    exact h.proper.freed
  · rw [ht]
    exact h.proper.touched

/-! ## The functions -/

/-- Where a call of `EvKQJobsCtl` stops the program. -/
def Stops (f : Fault) (t : EvKQBase) : Prop := (f = .ctlNotActive ∨ f = .ctlAction) ∧ Inv t

theorem jobsAddInternal_ends (h : Inv s) (action : JobAction) (time : Option (Int × Int × Int))
    (ioloopCount : Int) (cbFunc cbData : Nat) :
    Ends (jobsAddInternal action time ioloopCount cbFunc cbData) s (fun _ => Inv) Stops := by
  simp only [jobsAddInternal, ends_bind, ends_get]
  cases hgrab : s.memslot.slotGrab with
  | none => exact h
  | some g =>
      obtain ⟨x, memslot⟩ := g
      have hfresh := h.wf.slotGrab_fresh hgrab
      have hwf := h.wf.slotGrab hgrab
      have hidle : (memslot.slotData x).active = false := by
        rw [slotGrab_data hgrab]
        cases hactive : (s.memslot.slotData x).active with
        | false => rfl
        | true =>
            obtain ⟨i, hi⟩ := (h.active x).1 hactive
            exact absurd hi (hfresh i)
      simp only [ends_bind, ends_assertThat]
      refine ⟨fun _ => ?_, fun hno => absurd hno (by rw [hidle]; simp)⟩
      cases time with
      | none =>
          simp only [ends_bind, ends_set, ends_pure]
          refine h.add (x := x) (k := ioloop) ?_ (by decide) hfresh
            (fun i y => ?_) (.inl ?_) ⟨?_, ?_⟩ (fun y hy => ?_) rfl rfl rfl rfl
          · dsimp only
            exact hwf.modifyData x _
          · exact mem_slotGrab hgrab
          · rw [modifyData_list]
            exact slotGrab_list_zero hgrab
          · rw [job, slotData_modifyData_self]
          · rw [job, slotData_modifyData_self]
          · rw [job, slotData_modifyData_of_ne _ _ _ hy]
            exact slotGrab_data hgrab y
      | some time =>
          obtain ⟨hour, min, sec⟩ := time
          cases hparse : Timed.timedParse hour min sec with
          | none =>
              simp only [hparse, ends_bind, ends_set, ends_pure]
              exact h.bounce hgrab rfl
          | some mask =>
              have hx : x ∈ memslot.list ioloop :=
                (mem_slotGrab hgrab).2 (.inl ⟨rfl, rfl⟩)
              have hlist := list_of_timed h.wf hgrab
              simp only [hparse, ends_bind, ends_set, ends_pure]
              have hswitch : (memslot.slotListIDSwitch x timed).WF :=
                hwf.slotListIDSwitch hx (by decide) (by decide)
              refine h.add (x := x) (k := timed) ?_ (by decide) hfresh (fun i y => ?_) (.inr ?_)
                ⟨?_, ?_⟩ (fun y hy => ?_) rfl rfl rfl rfl
              · dsimp only
                exact hswitch.modifyData x _
              · rw [modifyData_list, hlist]
                by_cases hi : i = timed
                · subst hi
                  simp
                · rw [update_of_ne hi]
                  simp [hi]
              · rw [modifyData_list, hlist, update_of_ne (by decide)]
              · rw [job, slotData_modifyData_self]
              · rw [job, slotData_modifyData_self]
              · rw [job, slotData_modifyData_of_ne _ _ _ hy,
                  slotListIDSwitch_data]
                exact slotGrab_data hgrab y

theorem jobsAdd_ends (h : Inv s) (action : JobAction) (ioloopCount : Int) (cbFunc : Option Nat)
    (cbData : Nat) : Ends (jobsAdd action ioloopCount cbFunc cbData) s (fun _ => Inv) Stops := by
  cases cbFunc with
  | none => exact h
  | some cbFunc =>
      simp only [jobsAdd, ends_bind, ends_ite, ends_pure]
      refine ⟨fun _ => h, fun _ => ⟨fun _ => h, fun _ => ?_⟩⟩
      refine (jobsAddInternal_ends h action none ioloopCount cbFunc cbData).mono ?_ fun _ _ hs => hs
      intro job t ht
      cases job <;> exact ht

theorem jobsAddTimed_ends (h : Inv s) (action : JobAction) (day : Int)
    (time : Option (Int × Int × Int)) (cbFunc : Option Nat) (cbData : Nat) :
    Ends (jobsAddTimed action day time cbFunc cbData) s (fun _ => Inv) Stops := by
  cases cbFunc with
  | none => exact h
  | some cbFunc =>
      cases time with
      | none => exact h
      | some time =>
          simp only [jobsAddTimed, ends_bind, ends_ite, ends_pure]
          refine ⟨fun _ => h, fun _ => ⟨fun _ => h, fun _ => ?_⟩⟩
          refine (jobsAddInternal_ends h action (some time) (-1) cbFunc cbData).mono ?_
            fun _ _ hs => hs
          intro job t ht
          cases job with
          | none => exact ht
          | some x =>
              simp only [ends_bind, ends_modify, ends_pure]
              exact ht.modify (x := x) (f := fun kqJob => { kqJob with targetDay := day }) rfl
                (fun _ => ⟨rfl, rfl⟩) rfl rfl rfl ht.walk

theorem releaseJob_ends (h : Inv s) (hx : (s.job x).active = true) (hfar : s.walk.Far x) :
    Ends (releaseJob x) s (fun _ => Inv) Stops := by
  obtain ⟨i, hin⟩ := (h.active x).1 hx
  simp only [releaseJob, ends_bind, ends_get, ends_assertThat, ends_set]
  refine ⟨fun _ => ?_, fun hno => ?_⟩
  · exact h.release hin rfl (h.walk.release h hin rfl hfar)
  · rw [(linked_iff h).2 hx] at hno
    cases hno

theorem jobsCtl_ends (h : Inv s) (action : JobAction) (kqJobId : Int)
    (horderly : Orderly s (.ctl action kqJobId)) (huser : s.userRuns = true) :
    Ends (jobsCtl action kqJobId) s (fun _ => Inv) Stops := by
  simp only [jobsCtl, ends_bind, ends_ite, ends_pure, ends_get, ends_assertThat]
  refine ⟨fun _ => h, fun _ => ⟨fun hactive => ?_, fun _ => ⟨.inl rfl, h⟩⟩⟩
  cases action with
  | delete =>
      refine releaseJob_ends h hactive ?_
      simp only [Orderly, userRuns] at horderly huser
      cases hwalk : s.walk with
      | idle => trivial
      | next node =>
          rw [hwalk] at huser
          cases huser
      | calling y serial node =>
          rw [hwalk] at horderly
          exact horderly
  | enable =>
      exact h.modify (f := fun kqJob => { kqJob with enabled := true }) rfl (fun _ => ⟨rfl, rfl⟩) rfl
        rfl rfl h.walk
  | disable =>
      exact h.modify (f := fun kqJob => { kqJob with enabled := false }) rfl (fun _ => ⟨rfl, rfl⟩) rfl
        rfl rfl h.walk
  | addVolatile => exact ⟨.inr rfl, h⟩
  | addPersist => exact ⟨.inr rfl, h⟩
  | lastItem => exact ⟨.inr rfl, h⟩

theorem jobsDispatch_ends (h : Inv s) : Ends jobsDispatch s (fun _ => Inv) Stops := by
  simp only [jobsDispatch, ends_bind, ends_get, ends_ite, ends_set, ends_pure]
  refine ⟨fun _ => ?_, fun _ => h⟩
  refine h.move (l := []) rfl rfl (append_nil _).symm (by simp) (by simp) (by simp) nodup_nil ?_
  intro y hy
  cases hlist : s.memslot.list ioloop with
  | nil =>
      rw [hlist] at hy
      cases hy
  | cons z rest =>
      rw [hlist] at hy
      obtain rfl := Option.some.inj hy
      exact ⟨[], rest, rfl, fun _ _ => (by simp)⟩

theorem finishJob_ends {serial : Nat} {node : Option Nat} (h : Inv s)
    (hx : x ∈ s.memslot.list ioloop) (hserial : (s.job x).serial = serial) (hne : some x ≠ node)
    (ha : Ahead s node) : Ends (finishJob x serial node) s (fun _ => Inv) Stops := by
  simp only [finishJob, ends_bind, ends_modify, ends_get, ends_ite, ends_set]
  obtain ⟨p, hp⟩ : ∃ p : EvKQBase, { s.note [.touched serial] with walk := .next node } = p :=
    ⟨_, rfl⟩
  rw [hp]
  have hjob : p.job x = s.job x := by
    rw [← hp]
    rfl
  have hinv : Inv p := by
    rw [← hp]
    refine h.move rfl rfl rfl (by simp) (fun n hn => ?_) h.ran h.proper.once ?_
    · obtain rfl : n = serial := by simpa using hn
      exact fun hin => (h.gone _ hin).2 ioloop x hx hserial
    · exact ha.of_eq rfl (fun _ _ => rfl) rfl
  refine ⟨fun _ => releaseJob_ends hinv ?_ ?_, fun _ => ?_⟩
  · rw [hjob]
    exact (h.active x).2 ⟨ioloop, hx⟩
  · rw [← hp]
    exact hne
  · exact hinv.modify (f := fun kqJob => { kqJob with ioloopCur := 0 }) rfl (fun _ => ⟨rfl, rfl⟩)
      rfl rfl rfl hinv.walk

theorem dispatchNode_ends (h : Inv s) (node : Option Nat) (ha : Ahead s node) :
    Ends (dispatchNode node) s (fun _ => Inv) Stops := by
  cases node with
  | none =>
      simp only [dispatchNode, ends_modify]
      exact h.move (l := []) rfl rfl (append_nil _).symm (by simp) (by simp) h.ran h.proper.once trivial
  | some x =>
      have hx := ha.mem
      have hnext := ha.behind h
      have hne := nodeNext_ne h ha
      obtain ⟨before, after, hlist, hran⟩ := ha x rfl
      simp only [dispatchNode, ends_bind, ends_get, ends_assertThat, ends_ite, ends_set]
      refine ⟨fun _ => ⟨fun _ => ?_, fun _ => ⟨fun _ => ⟨fun _ => ?_, fun _ => ?_⟩, fun _ => ?_⟩⟩,
        fun hno => ?_⟩
      · refine h.move (l := []) rfl rfl (append_nil _).symm (by simp) (by simp) h.ran h.proper.once ?_
        exact hnext.of_eq rfl (fun _ _ => rfl) rfl
      · refine h.move rfl rfl rfl (by simp) (fun n hn => ?_) (fun n hn => ?_) ?_ ?_
        · obtain rfl : n = (s.job x).serial := by simpa using hn
          exact fun hin => (h.gone _ hin).2 ioloop x hx rfl
        · rcases mem_append.1 hn with hn | hn
          · exact h.ran n hn
          · rw [mem_singleton.1 hn]
            exact h.fresh ioloop x hx
        · exact nodup_append.2 ⟨h.proper.once, nodup_singleton _, fun n hn m hm heq =>
            hran x mem_cons_self (by rw [← mem_singleton.1 hm, ← heq]; exact hn)⟩
        · refine ⟨hx, rfl, hne, fun y hy => ?_⟩
          obtain ⟨before', after', hlist', hnot, hran'⟩ := Ahead.rest h ha y hy
          refine ⟨before', after', hlist', fun z hz hin => ?_⟩
          rcases mem_append.1 hin with hin | hin
          · exact hran' z hz hin
          · -- the jobs ahead are others
            have hz' : z ∈ s.memslot.list ioloop := by
              rw [hlist']
              exact mem_append_right _ hz
            obtain rfl := h.inj ioloop ioloop z x hz' hx (mem_singleton.1 hin)
            exact hnot hz
      · exact finishJob_ends h hx rfl hne hnext
      · exact h.modify (x := x) (f := fun kqJob => { kqJob with ioloopCur := kqJob.ioloopCur + 1 })
          rfl (fun _ => ⟨rfl, rfl⟩) rfl rfl rfl hnext
      · rw [show (s.job x).active = true from (h.active x).2 ⟨ioloop, hx⟩] at hno
        cases hno

/-- **One step.**  An orderly step keeps the invariant. -/
theorem handle_ends (h : Inv s) (e : Event) (horderly : Orderly s e) :
    Ends (handle e) s (fun _ => Inv) Stops := by
  have hfine := h.walk
  cases e with
  | dispatch =>
      simp only [handle, ends_bind, ends_get, ends_ite, ends_pure]
      exact ⟨fun _ => jobsDispatch_ends h, fun _ => h⟩
  | turn =>
      simp only [handle, ends_bind, ends_get]
      cases hwalk : s.walk with
      | next node =>
          rw [hwalk] at hfine
          exact dispatchNode_ends h node hfine
      | idle => exact h
      | calling => exact h
  | ret =>
      simp only [handle, ends_bind, ends_get]
      cases hwalk : s.walk with
      | calling x serial node =>
          rw [hwalk] at hfine
          obtain ⟨hx, hserial, hne, ha⟩ := hfine
          exact finishJob_ends h hx hserial hne ha
      | idle => exact h
      | next => exact h
  | add action ioloopCount cbFunc cbData =>
      simp only [handle, ends_bind, ends_get, ends_ite, ends_pure]
      exact ⟨fun _ => jobsAdd_ends h action ioloopCount cbFunc cbData, fun _ => h⟩
  | addTimed action day time cbFunc cbData =>
      simp only [handle, ends_bind, ends_get, ends_ite, ends_pure]
      exact ⟨fun _ => jobsAddTimed_ends h action day time cbFunc cbData, fun _ => h⟩
  | ctl action kqJobId =>
      simp only [handle, ends_bind, ends_get, ends_ite, ends_pure]
      exact ⟨fun huser => jobsCtl_ends h action kqJobId horderly huser, fun _ => h⟩

theorem inv_new (maxJobCount : Nat) : Inv (new maxJobCount) where
  wf := wf_init _ _
  two _ _ hx := nomatch hx
  active _ := iff_of_false nofun fun ⟨_, hi⟩ => nomatch hi
  fresh _ _ hx := nomatch hx
  inj _ _ _ _ hx := nomatch hx
  walk := trivial
  ran _ hn := nomatch hn
  gone _ hn := nomatch hn
  proper := ⟨nodup_nil, fun _ => Nat.zero_le _, fun _ => before_nil⟩

/-- **The dispatch of queued jobs.**  In every run in which no callback deletes its own job
or that of the node that the walk remembers, the dispatcher fails no assertion, runs each
registration once in a dispatch, and uses no slot after it is released. -/
theorem dispatch_proper (maxJobCount : Nat) (evs : List Event)
    (horderly : Runs.Meets handle Orderly (.live (new maxJobCount)) evs) :
    Sound (runFrom maxJobCount evs) ∧ Proper (runFrom maxJobCount evs).state := by
  have h := Runs.invariant_run_of (A := Stops) (fun e s hs he => handle_ends hs e he)
    (c := .live (new maxJobCount)) (inv_new maxJobCount) evs horderly
  obtain ⟨hsound, hinv⟩ := h.faults fun _ _ hs => hs
  exact ⟨hsound, hinv.proper⟩

instance (s : EvKQBase) (e : Event) : Decidable (Orderly s e) :=
  match e with
  | .ctl .delete kqJobId =>
      match h : s.walk with
      | .calling x _ node =>
          decidable_of_iff (kqJobId.toNat ≠ x ∧ some kqJobId.toNat ≠ node) (by simp [Orderly, h])
      | .idle => isTrue (by simp [Orderly, h])
      | .next _ => isTrue (by simp [Orderly, h])
  | .ctl .addVolatile _ | .ctl .addPersist _ | .ctl .enable _ | .ctl .disable _
  | .ctl .lastItem _ | .dispatch | .turn | .ret | .add .. | .addTimed .. => isTrue trivial

/-- Three jobs, of which the second is volatile, are walked up to the callback of the
second. -/
def secondRuns : List Event :=
  [.add .addPersist 0 (some 7) 0, .add .addVolatile 0 (some 8) 0, .add .addPersist 0 (some 9) 0,
    .dispatch, .turn, .ret, .turn]

/-- Its callback deletes the first job and adds another one. -/
def orderlyRun : List Event :=
  secondRuns ++ [.ctl .delete 0, .add .addVolatile 0 (some 5) 0, .ret, .turn, .ret, .turn, .ret]

theorem dispatch_proper_orderly :
    Sound (runFrom 7 orderlyRun) ∧ Proper (runFrom 7 orderlyRun).state :=
  dispatch_proper _ _ (by decide)

example : (runFrom 7 orderlyRun).state.ranNow = [0, 1, 2, 3] := by decide

/-- If it deletes its own job, the dispatcher releases the slot again. -/
theorem own_job_deleted : ¬ Sound (runFrom 7 (secondRuns ++ [.ctl .delete 1, .ret])) := by
  intro h
  have hfault : (runFrom 7 (secondRuns ++ [.ctl .delete 1, .ret])).fault = some .notBusy := by
    decide
  rcases h _ hfault with heq | heq <;> cases heq

end EvKQJobs
