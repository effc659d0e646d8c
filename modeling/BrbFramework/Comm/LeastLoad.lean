import BrbFramework.Comm.ClientPool
import BrbFramework.Lib.Incumbent

/-!
# The client with the least load

Both pools walk over their clients and keep the best one seen. The UNIX pool
keeps the least sum of list sizes. The TCP pool compares the queued bytes, and
where these are not smaller it compares the totals, also where they are larger.
Its scan ends with the first client that no later one beats by either number.
-/

namespace Comm

open Incumbent List

variable {Load : Type} {code sel : Int} {pool : ClientPool Load}

def Eligible (code sel : Int) (cli : PoolClient Load) : Prop :=
  AsksConnected code sel → cli.socketState = .connected

/-- The selected client is an eligible one, no eligible one has less to do, and none is selected
only where none is eligible. -/
structure LeastSelected (code sel : Int) (load : Load → Nat) (pool : ClientPool Load)
    (selected : Option Nat) : Prop where
  eligible : ∀ id, selected = some id →
    id < pool.countInit ∧ Eligible code sel (pool.memslot id)
  least : ∀ id, selected = some id → ∀ j < pool.countInit, Eligible code sel (pool.memslot j) →
    load (pool.memslot id).load ≤ load (pool.memslot j).load
  none : selected = none → ∀ j < pool.countInit, ¬Eligible code sel (pool.memslot j)

namespace CommEvTCPClientPool

/-- `CommEvTCPClientPoolClientSelectLeastLoad`. -/
def clientSelectLeastLoad (pool : CommEvTCPClientPool) (selectConnected : Int) : Option Nat :=
  (List.range pool.countInit).foldl
    (fun selected cur =>
      if ClientPool.skips tcpConnected selectConnected (pool.memslot cur) then selected
      else
        match selected with
        | none => some cur
        | some sel =>
          if (pool.memslot cur).load.queueSz < (pool.memslot sel).load.queueSz then some cur
          else if (pool.memslot cur).load.totalSz < (pool.memslot sel).load.totalSz then some cur
          else some sel)
    none

end CommEvTCPClientPool

/-- The load of a UNIX client. Its lists are of requests in 4096 slots and of ACKs in as many, so
the sum stays in an `int`. -/
def UNIXLoad.total (l : UNIXLoad) : Nat := l.writeQueuePend + l.writeQueueAck + l.ackQueue

namespace CommEvUNIXClientPool

/-- The body of the loop, with the least load seen and the identifier of the client that has it.
There is no result where the assertion fails that a client has one. -/
def leastSeen (pool : CommEvUNIXClientPool) (selectConnected : Int) (least : Int × Int)
    (cur : Nat) : Option (Int × Int) :=
  let cli := pool.memslot cur
  if ClientPool.skips unixConnected selectConnected cli then some least
  else if least.1 = -1 ∨ (cli.load.total : Int) < least.1 then
    if cli.cliIdOnpool > -1 then some (cli.load.total, cli.cliIdOnpool) else none
  else some least

/-- `CommEvUNIXClientPoolClientSelectLeastLoad`. -/
def clientSelectLeastLoad (pool : CommEvUNIXClientPool) (selectConnected : Int) :
    Option (Option Int) := do
  let (_, loadCliIdLeast) ←
    (List.range pool.countInit).foldlM (pool.leastSeen selectConnected) (-1, -1)
  return if loadCliIdLeast > -1 then some loadCliIdLeast else none

end CommEvUNIXClientPool

/-! ## The walk -/

def walked (code sel : Int) (pool : ClientPool Load) : List Nat :=
  (List.range pool.countInit).filter fun i => !ClientPool.skips code sel (pool.memslot i)

theorem mem_walked {i : Nat} :
    i ∈ walked code sel pool ↔
      i < pool.countInit ∧ (sel = code → (pool.memslot i).socketState = .connected) := by
  rw [walked, mem_filter, mem_range, Bool.not_eq_true', ClientPool.skips_eq_false]

theorem walked_pairwise : (walked code sel pool).Pairwise (· < ·) :=
  pairwise_lt_range.filter _

theorem Eligible.mem_walked {i : Nat} (hi : i < pool.countInit)
    (h : Eligible code sel (pool.memslot i)) : i ∈ walked code sel pool :=
  Comm.mem_walked.mpr ⟨hi, fun hcode => h (Or.inr hcode)⟩

theorem eligible_of_mem_walked (hsel : ClientPool.Understood code sel) {i : Nat}
    (hi : i ∈ walked code sel pool) : Eligible code sel (pool.memslot i) := fun hasks =>
  (Comm.mem_walked.mp hi).2 (hasks.elim hsel id)

theorem foldl_walked {β : Type} (f : β → Nat → β) (b : β) :
    (List.range pool.countInit).foldl
        (fun b i => if ClientPool.skips code sel (pool.memslot i) then b else f b i) b =
      (walked code sel pool).foldl f b := by
  rw [walked, foldl_filter]
  congr 1
  funext b i
  cases ClientPool.skips code sel (pool.memslot i) <;> rfl

/-! ## The TCP pool -/

/-- The client beats the selected one by its queue or by its total. -/
def tcpDisplaces (pool : CommEvTCPClientPool) (cur selected : Nat) : Bool :=
  (pool.memslot cur).load.queueSz < (pool.memslot selected).load.queueSz ||
    (pool.memslot cur).load.totalSz < (pool.memslot selected).load.totalSz

theorem tcpDisplaces_eq_false {pool : CommEvTCPClientPool} {cur selected : Nat} :
    tcpDisplaces pool cur selected = false ↔
      (pool.memslot selected).load.queueSz ≤ (pool.memslot cur).load.queueSz ∧
        (pool.memslot selected).load.totalSz ≤ (pool.memslot cur).load.totalSz := by
  simp only [tcpDisplaces, Bool.or_eq_false_iff, decide_eq_false_iff_not, not_lt]

theorem tcp_staysTrans (pool : CommEvTCPClientPool) : StaysTrans (tcpDisplaces pool) := by
  intro b x y hx hy
  rw [tcpDisplaces_eq_false] at hx hy ⊢
  exact ⟨hx.1.trans hy.1, hx.2.trans hy.2⟩

theorem tcp_select_eq_scan (pool : CommEvTCPClientPool) (sel : Int) :
    pool.clientSelectLeastLoad sel = scan (tcpDisplaces pool) (walked tcpConnected sel pool) := by
  rw [CommEvTCPClientPool.clientSelectLeastLoad, scan, ← foldl_walked]
  congr 1
  funext selected cur
  split
  · rfl
  · cases selected with
    | none => rfl
    | some selected =>
        simp only [challenge, tcpDisplaces, Bool.or_eq_true, decide_eq_true_eq]
        split
        · rename_i hqueue
          rw [if_pos (Or.inl hqueue)]
        · rename_i hqueue
          simp only [hqueue, false_or]

/-- The selection is right: nobody is looked at, or an eligible client of least queue stands
against all behind it, and before it nobody else stands. -/
def TCPSound (sel : Int) (pool : CommEvTCPClientPool) : Prop :=
  walked tcpConnected sel pool = [] ∨
    ∃ e, Stands (tcpDisplaces pool) (walked tcpConnected sel pool) e ∧
      Eligible tcpConnected sel (pool.memslot e) ∧
      (∀ j < pool.countInit, Eligible tcpConnected sel (pool.memslot j) →
        (pool.memslot e).load.queueSz ≤ (pool.memslot j).load.queueSz) ∧
      ∀ j < e, Stands (tcpDisplaces pool) (walked tcpConnected sel pool) j →
        Eligible tcpConnected sel (pool.memslot j)

/-- **Least load, TCP.** -/
theorem tcp_leastSelected_iff (pool : CommEvTCPClientPool) (sel : Int) :
    LeastSelected tcpConnected sel TCPLoad.queueSz pool (pool.clientSelectLeastLoad sel) ↔
      TCPSound sel pool := by
  have htrans := tcp_staysTrans pool
  rw [tcp_select_eq_scan]
  cases hscan : scan (tcpDisplaces pool) (walked tcpConnected sel pool) with
  | none =>
      have hnobody := (scan_eq_none htrans).mp hscan
      refine iff_of_true ⟨by nofun, by nofun, fun _ j hj hel => ?_⟩ (Or.inl hnobody)
      have hmem := hel.mem_walked hj
      rw [hnobody] at hmem
      cases hmem
  | some r =>
      have hleast := scan_isLeast htrans walked_pairwise hscan
      have hr : r < pool.countInit := (mem_walked.mp hleast.1.1).1
      constructor
      · intro h
        obtain ⟨hel, hmin⟩ := And.intro (h.eligible r rfl).2 (h.least r rfl)
        refine Or.inr ⟨r, hleast.1, hel, hmin, fun j hj hstands => ?_⟩
        exact absurd (hleast.2 hstands) hj.not_ge
      · intro h
        obtain ⟨e, hstands, hel, hmin, hfront⟩ := h.resolve_left fun hnil => by
          have hmem := hleast.1.1
          rw [hnil] at hmem
          cases hmem
        have hqueue : (pool.memslot r).load.queueSz ≤ (pool.memslot e).load.queueSz := by
          rcases stays_of_isLeast hleast hstands with rfl | hstays
          · exact le_rfl
          · exact (tcpDisplaces_eq_false.mp hstays).1
        have hrel : Eligible tcpConnected sel (pool.memslot r) := by
          rcases (hleast.2 hstands).eq_or_lt with rfl | hlt
          · exact hel
          · exact hfront r hlt hleast.1
        refine ⟨?_, ?_, by nofun⟩
        · rintro _ ⟨⟩
          exact ⟨hr, hrel⟩
        · rintro _ ⟨⟩ j hj hj'
          exact hqueue.trans (hmin j hj hj')

/-! ## The UNIX pool -/

/-- The client has less to do than the selected one. -/
def unixDisplaces (pool : CommEvUNIXClientPool) (cur selected : Nat) : Bool :=
  (pool.memslot cur).load.total < (pool.memslot selected).load.total

/-- The two numbers that the loop keeps for an incumbent. -/
def kept (pool : CommEvUNIXClientPool) : Option Nat → Int × Int
  | none => (-1, -1)
  | some id => ((pool.memslot id).load.total, id)

theorem leastSeen_kept {pool : CommEvUNIXClientPool} {i : Nat}
    (hi : (pool.memslot i).cliIdOnpool = i) (best : Option Nat) :
    pool.leastSeen sel (kept pool best) i =
      some (kept pool (if ClientPool.skips unixConnected sel (pool.memslot i) then best
        else challenge (unixDisplaces pool) best i)) := by
  simp only [CommEvUNIXClientPool.leastSeen]
  split
  · rfl
  · have hid : (pool.memslot i).cliIdOnpool > -1 := by omega
    cases best with
    | none =>
        have hnone : (kept pool none).1 = -1 := rfl
        rw [if_pos (Or.inl hnone), if_pos hid, hi]
        rfl
    | some best =>
        have hseen : ¬((pool.memslot best).load.total : Int) = -1 := by omega
        rw [if_pos hid, hi]
        simp only [kept, challenge, unixDisplaces, hseen, false_or, Int.ofNat_lt,
          decide_eq_true_eq]
        split
        · rfl
        · rfl

theorem foldlM_leastSeen {pool : CommEvUNIXClientPool} (l : List Nat)
    (hl : ∀ i ∈ l, (pool.memslot i).cliIdOnpool = i) (best : Option Nat) :
    l.foldlM (pool.leastSeen sel) (kept pool best) =
      some (kept pool (l.foldl
        (fun best i => if ClientPool.skips unixConnected sel (pool.memslot i) then best
          else challenge (unixDisplaces pool) best i) best)) := by
  induction l generalizing best with
  | nil => rfl
  | cons i l ih =>
      obtain ⟨hi, hrest⟩ := forall_mem_cons.mp hl
      rw [foldlM_cons, foldl_cons, leastSeen_kept hi, ← ih hrest]
      rfl

theorem unix_select_eq_scan {pool : CommEvUNIXClientPool} (h : pool.Numbered) (sel : Int) :
    pool.clientSelectLeastLoad sel =
      some ((scan (unixDisplaces pool) (walked unixConnected sel pool)).map Int.ofNat) := by
  have hloop := @foldlM_leastSeen sel pool (List.range pool.countInit)
    (fun i hi => h i (mem_range.mp hi)) none
  rw [foldl_walked] at hloop
  have hstart : kept pool none = (-1, -1) := rfl
  rw [CommEvUNIXClientPool.clientSelectLeastLoad, ← hstart, hloop, scan]
  cases (walked unixConnected sel pool).foldl (challenge (unixDisplaces pool)) none with
  | none => rfl
  | some r =>
      have hr : (r : Int) > -1 := by omega
      simp only [Option.bind_eq_bind, Option.bind_some, kept, if_pos hr]
      rfl

/-- **Least load, UNIX.** -/
theorem unix_leastSelected {pool : CommEvUNIXClientPool} (h : pool.Numbered) (sel : Int) :
    ∃ selected, pool.clientSelectLeastLoad sel = some selected ∧
      LeastSelected unixConnected sel UNIXLoad.total pool (selected.map Int.toNat) := by
  refine ⟨_, unix_select_eq_scan h sel, ?_⟩
  have hsel : ClientPool.Understood unixConnected sel := fun hs => hs
  have htrans : StaysTrans (unixDisplaces pool) := by
    intro b x y hx hy
    rw [unixDisplaces, decide_eq_false_iff_not, not_lt] at hx hy ⊢
    exact hx.trans hy
  cases hscan : scan (unixDisplaces pool) (walked unixConnected sel pool) with
  | none =>
      refine ⟨by nofun, by nofun, fun _ j hj hel => ?_⟩
      have hmem := hel.mem_walked hj
      rw [(scan_eq_none htrans).mp hscan] at hmem
      cases hmem
  | some r =>
      have hmem := (scan_isLeast htrans walked_pairwise hscan).1.1
      refine ⟨?_, ?_, by nofun⟩
      · rintro _ ⟨⟩
        exact ⟨(mem_walked.mp hmem).1, eligible_of_mem_walked hsel hmem⟩
      · rintro _ ⟨⟩ j hj hel
        exact scan_key_le walked_pairwise hscan (hel.mem_walked hj)

/-! ## Pools as they are made -/

/-- The clients of a pool with their states and loads as they come to be. -/
def ClientPool.assigned (pool : ClientPool Load) (states : Nat → ClientState)
    (loads : Nat → Load) : ClientPool Load :=
  { pool with
    memslot := fun i => { pool.memslot i with socketState := states i, load := loads i } }

/-- Two connected clients of a TCP pool: the first has less queued, the second has a smaller
total. -/
def busyPair : CommEvTCPClientPool where
  cliCountMax := 2
  countInit := 2
  memslot i := { socketState := .connected, cliIdOnpool := i, load := ⟨i, 9 - i⟩ }

end Comm
