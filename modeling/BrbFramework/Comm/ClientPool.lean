import Mathlib.Logic.Function.Basic
import Mathlib.Data.Nat.ModEq

/-!
# Pools of clients

A pool of TCP clients and a pool of UNIX clients are made alike, and select a
client by turns alike. What a client has to do is a type of its own: bytes and
totals on one side, the sizes of three lists on the other. The pool is a table
of slots, the first `countInit` of which hold the clients that were initialised.

The two sides differ in the code with which connected clients are asked for.
The header has one for each of them, with the same value, but the TCP pool
compares with the socket state of a connected client instead.
-/

namespace Comm

open List Function

/-- `COMM_CLIENT_STATE_*`. -/
inductive ClientState
  | disconnected | resolvingDns | connecting | connectedNegotiatingSsl
  | connectedNegotiatingSecureTunnel | connected | connectFailedTimeout | connectFailedDns
  | connectFailedRefused | connectFailedNegotiatingSsl | connectFailedNegotiatingSecureTunnel
  | connectFailedAuthenticatingSecureTunnel | connectFailedConnectSyscall
  | connectFailedUnknown
  deriving DecidableEq

/-- `COMM_POOL_SELECT_*`, and `COMM_UNIX_SELECT_*`. -/
inductive PoolSelect
  | roundRobin | leastLoad | connected | any
  deriving DecidableEq

structure PoolClient (Load : Type) where
  socketState : ClientState := .disconnected
  cliIdOnpool : Int := 0
  load : Load

/-- `CommEvTCPClientPool` and `CommEvUNIXClientPool`. -/
structure ClientPool (Load : Type) where
  cliCountMax : Int
  countInit : Nat := 0
  rrCurrent : Nat := 0
  hasError : Bool := false
  memslot : Nat → PoolClient Load

/-- `COMM_TCP_CLIENT_POOL_MAX` and `COMM_UNIX_CLIENT_POOL_MAX`. -/
def clientPoolMax : Int := 64

/-- `CommEvTCPClientPoolConf` and `CommEvUNIXClientPoolConf`. -/
structure ClientPoolConf where
  cliCountInit : Int
  cliCountMax : Int

namespace ClientPool

variable {Load : Type}

/-- The loop over the clients to initialise, with the number of those that are left. There is
no slot behind the last one, and its null pointer is followed. -/
def initLoop (idle : Load) (initOk : Nat → Bool) : Nat → ClientPool Load → Option (ClientPool Load)
  | 0, pool => some pool
  | n + 1, pool =>
    let i := pool.countInit
    if clientPoolMax ≤ i then none
    else if initOk i then
      initLoop idle initOk n
        { pool with
          memslot := Function.update pool.memslot i { cliIdOnpool := i, load := idle }
          countInit := i + 1 }
    else some { pool with hasError := true }

def new (idle : Load) (initOk : Nat → Bool) (conf : ClientPoolConf) : Option (ClientPool Load) :=
  let cliCountMax := if conf.cliCountMax > clientPoolMax then clientPoolMax else conf.cliCountMax
  initLoop idle initOk conf.cliCountInit.toNat
    { cliCountMax, memslot := fun _ => { load := idle } }

/-- The client is passed over by a selection that wants connected clients. -/
def skips (code selectConnected : Int) (cli : PoolClient Load) : Bool :=
  selectConnected = code && cli.socketState ≠ .connected

/-- The loop of the selection by turns, with the clients that are left to look at. The
selected client is given by the number of its slot. -/
def roundRobinLoop (code selectConnected : Int) :
    Nat → ClientPool Load → Option Nat × ClientPool Load
  | 0, pool => (none, pool)
  | n + 1, pool =>
    let id := pool.rrCurrent
    let pool := { pool with rrCurrent := (id + 1) % pool.cliCountMax.toNat }
    if skips code selectConnected (pool.memslot id) then
      roundRobinLoop code selectConnected n pool
    else (some id, pool)

def selectRoundRobin (code : Int) (pool : ClientPool Load) (selectConnected : Int) :
    Option Nat × ClientPool Load :=
  roundRobinLoop code selectConnected pool.countInit pool

end ClientPool

/-! ## The two sides -/

/-- The statistics of the write queue of a TCP client. -/
structure TCPLoad where
  queueSz : Nat := 0
  totalSz : Nat := 0
  deriving DecidableEq

/-- The list sizes of a UNIX client: `COMM_UNIX_LIST_PENDING_WRITE` and
`COMM_UNIX_LIST_PENDING_ACK` of its requests, and the first of these of its ACKs. -/
structure UNIXLoad where
  writeQueuePend : Nat := 0
  writeQueueAck : Nat := 0
  ackQueue : Nat := 0
  deriving DecidableEq

abbrev CommEvTCPClientPool := ClientPool TCPLoad

abbrev CommEvUNIXClientPool := ClientPool UNIXLoad

/-- What the TCP pool compares `select_connected` with: `COMM_CLIENT_STATE_CONNECTED`. -/
def tcpConnected : Int := ClientState.connected.ctorIdx

/-- What the UNIX pool compares it with: `COMM_UNIX_SELECT_CONNECTED`. -/
def unixConnected : Int := PoolSelect.connected.ctorIdx

namespace CommEvTCPClientPool

/-- `CommEvTCPClientPoolNew`. -/
def new (conf : ClientPoolConf) : Option CommEvTCPClientPool :=
  ClientPool.new {} (fun _ => true) conf

/-- `CommEvTCPClientPoolClientSelectRoundRobin`. -/
def clientSelectRoundRobin (pool : CommEvTCPClientPool) (selectConnected : Int) :
    Option Nat × CommEvTCPClientPool :=
  pool.selectRoundRobin tcpConnected selectConnected

end CommEvTCPClientPool

namespace CommEvUNIXClientPool

/-- `CommEvUNIXClientPoolNew`. A socket may not be had. -/
def new (socketOk : Nat → Bool) (conf : ClientPoolConf) : Option CommEvUNIXClientPool :=
  ClientPool.new {} socketOk conf

/-- `CommEvUNIXClientPoolClientSelectRoundRobin`. -/
def clientSelectRoundRobin (pool : CommEvUNIXClientPool) (selectConnected : Int) :
    Option Nat × CommEvUNIXClientPool :=
  pool.selectRoundRobin unixConnected selectConnected

end CommEvUNIXClientPool

/-! ## Selections -/

/-- A selection, with the clients as they are when it is made. -/
structure Selection (Load : Type) where
  clients : Nat → PoolClient Load
  selectConnected : Int

/-- A selection while only the first `k` clients are connected. -/
def Selection.firstConnected {Load : Type} (load : Load) (k : Nat) (sel : Int) :
    Selection Load where
  clients i := { socketState := if i < k then .connected else .disconnected, load }
  selectConnected := sel

/-- Connected clients are asked for: with the code of the header, or with the one that the pool
compares with. -/
def AsksConnected (code selectConnected : Int) : Prop :=
  selectConnected = PoolSelect.connected.ctorIdx ∨ selectConnected = code

namespace ClientPool

open Selection

variable {Load : Type} {code : Int} {pool : ClientPool Load} {sel : Int}

/-- The initialised clients are as the selection finds them. -/
def withClients (pool : ClientPool Load) (clients : Nat → PoolClient Load) : ClientPool Load :=
  { pool with memslot := fun i => if i < pool.countInit then clients i else pool.memslot i }

/-- The selected client is initialised, and connected where that is asked for; there is none
only where no initialised client is connected, or none is there at all. -/
structure Right (code : Int) (pool : ClientPool Load) (sel : Int) (selected : Option Nat) :
    Prop where
  initialised : ∀ id, selected = some id → id < pool.countInit
  connected : AsksConnected code sel → ∀ id, selected = some id →
    (pool.memslot id).socketState = .connected
  noneConnected : AsksConnected code sel → selected = none →
    ∀ id < pool.countInit, (pool.memslot id).socketState ≠ .connected
  noneThere : ¬AsksConnected code sel → selected = none → pool.countInit = 0

def RunRight (code : Int) (select : ClientPool Load → Int → Option Nat × ClientPool Load) :
    ClientPool Load → List (Selection Load) → Prop
  | _, [] => True
  | pool, s :: run =>
    let pool := pool.withClients s.clients
    let (selected, pool') := select pool s.selectConnected
    Right code pool s.selectConnected selected ∧ RunRight code select pool' run

abbrev TurnsRight (code : Int) : ClientPool Load → List (Selection Load) → Prop :=
  RunRight code (selectRoundRobin code)

theorem turnsRight_cons {s : Selection Load} {run : List (Selection Load)} :
    TurnsRight code pool (s :: run) ↔
      Right code (pool.withClients s.clients) s.selectConnected
          ((pool.withClients s.clients).selectRoundRobin code s.selectConnected).1 ∧
        TurnsRight code ((pool.withClients s.clients).selectRoundRobin code s.selectConnected).2
          run := Iff.rfl

/-! ### The loop -/

/-- The number of the `j`-th client that the loop looks at. -/
def turn (pool : ClientPool Load) (j : Nat) : Nat := (pool.rrCurrent + j) % pool.cliCountMax.toNat

theorem turn_zero (hcur : pool.rrCurrent < pool.cliCountMax.toNat) :
    pool.turn 0 = pool.rrCurrent := Nat.mod_eq_of_lt hcur

theorem turn_succ (j : Nat) :
    turn { pool with rrCurrent := pool.turn 1 } j = pool.turn (j + 1) := by
  simp only [turn, Nat.mod_add_mod, Nat.add_assoc, Nat.add_comm 1 j]

theorem turn_lt (hmax : 0 < pool.cliCountMax.toNat) (j : Nat) :
    pool.turn j < pool.cliCountMax.toNat := Nat.mod_lt _ hmax

theorem roundRobinLoop_spec (n : Nat) (hcur : pool.rrCurrent < pool.cliCountMax.toNat) :
    (∃ j < n, roundRobinLoop code sel n pool =
        (some (pool.turn j), { pool with rrCurrent := pool.turn (j + 1) }) ∧
      skips code sel (pool.memslot (pool.turn j)) = false) ∨
    ∃ id < pool.cliCountMax.toNat, roundRobinLoop code sel n pool =
        (none, { pool with rrCurrent := id }) ∧
      ∀ j < n, skips code sel (pool.memslot (pool.turn j)) = true := by
  induction n generalizing pool with
  | zero => exact Or.inr ⟨pool.rrCurrent, hcur, rfl, by simp⟩
  | succ n ih =>
      have hmax : 0 < pool.cliCountMax.toNat := by omega
      have hnext : (pool.rrCurrent + 1) % pool.cliCountMax.toNat = pool.turn 1 := rfl
      simp only [roundRobinLoop, hnext]
      cases hskip : skips code sel (pool.memslot pool.rrCurrent) with
      | false =>
          rw [← turn_zero hcur] at hskip
          refine Or.inl ⟨0, Nat.succ_pos n, ?_, hskip⟩
          rw [if_neg Bool.false_ne_true, turn_zero hcur]
      | true =>
          rw [if_pos rfl]
          have hrest := @ih { pool with rrCurrent := pool.turn 1 } (turn_lt hmax 1)
          simp only [turn_succ] at hrest
          rcases hrest with ⟨j, hj, heq, hj'⟩ | ⟨id, hid, heq, hall⟩
          · exact Or.inl ⟨j + 1, by omega, heq, hj'⟩
          · refine Or.inr ⟨id, hid, heq, fun j hj => ?_⟩
            cases j with
            | zero => rwa [turn_zero hcur]
            | succ j => exact hall j (by omega)

theorem exists_turn (hfull : pool.cliCountMax.toNat = pool.countInit)
    (hcur : pool.rrCurrent < pool.countInit) {id : Nat} (hid : id < pool.countInit) :
    ∃ j < pool.countInit, pool.turn j = id := by
  refine ⟨(pool.countInit - pool.rrCurrent + id) % pool.countInit, Nat.mod_lt _ (by omega), ?_⟩
  rw [turn, hfull, Nat.add_mod_mod]
  have hsum : pool.rrCurrent + (pool.countInit - pool.rrCurrent + id) = id + pool.countInit := by
    omega
  rw [hsum, Nat.add_mod_right, Nat.mod_eq_of_lt hid]

theorem skips_eq_false {cli : PoolClient Load} :
    skips code sel cli = false ↔ (sel = code → cli.socketState = .connected) := by
  simp only [skips, Bool.and_eq_false_iff, decide_eq_false_iff_not, ne_eq, not_not]
  exact imp_iff_not_or.symm

/-! ### Full pools -/

/-- The pool holds as many clients as the cursor passes. -/
structure Full (pool : ClientPool Load) : Prop where
  count : pool.cliCountMax.toNat = pool.countInit
  cursor : pool.rrCurrent < pool.countInit

def Understood (code sel : Int) : Prop := sel = PoolSelect.connected.ctorIdx → sel = code

/-- **One selection** from a full pool. -/
theorem Full.select (h : pool.Full) (hsel : Understood code sel) :
    Right code pool sel (pool.selectRoundRobin code sel).1 ∧
      (pool.selectRoundRobin code sel).2.Full := by
  have hasks : AsksConnected code sel ↔ sel = code := or_iff_right_of_imp hsel
  have hfull := h.count
  have hcur := h.cursor
  unfold selectRoundRobin
  rcases @roundRobinLoop_spec _ code pool sel pool.countInit (hfull ▸ hcur) with
    ⟨j, hj, heq, hpass⟩ | ⟨id, hid, heq, hall⟩
  · rw [heq]
    have hlt (j : Nat) : pool.turn j < pool.countInit := hfull ▸ turn_lt (by omega) j
    refine ⟨⟨?_, ?_, by nofun, by nofun⟩, hfull, hlt (j + 1)⟩
    · rintro id ⟨⟩
      exact hlt j
    · rintro hwant id ⟨⟩
      exact skips_eq_false.mp hpass (hasks.mp hwant)
  · rw [heq]
    refine ⟨⟨by nofun, by nofun, ?_, ?_⟩, hfull, hfull ▸ hid⟩
    · intro _ _ id hid hconnected
      obtain ⟨j, hj, rfl⟩ := exists_turn hfull hcur hid
      have hpass := skips_eq_false.mpr fun _ : sel = code => hconnected
      rw [hall j hj] at hpass
      cases hpass
    · intro hany _
      have hpass : skips code sel (pool.memslot (pool.turn 0)) = false :=
        skips_eq_false.mpr fun hcode => absurd (hasks.mpr hcode) hany
      rw [hall 0 (by omega)] at hpass
      cases hpass

/-- **A run of selections** from a full pool. -/
theorem Full.turnsRight (h : pool.Full) (run : List (Selection Load))
    (hrun : ∀ s ∈ run, Understood code s.selectConnected) : TurnsRight code pool run := by
  induction run generalizing pool with
  | nil => trivial
  | cons s run ih =>
      obtain ⟨hs, hrest⟩ := forall_mem_cons.mp hrun
      have hfull : (pool.withClients s.clients).Full := ⟨h.count, h.cursor⟩
      obtain ⟨hright, hnext⟩ := hfull.select hs
      exact ⟨hright, ih hnext hrest⟩

theorem turnsRight_of_empty (hnone : pool.countInit = 0) (run : List (Selection Load)) :
    TurnsRight code pool run := by
  induction run generalizing pool with
  | nil => trivial
  | cons s run ih =>
      obtain ⟨p, hp⟩ : ∃ p, p = pool.withClients s.clients := ⟨_, rfl⟩
      have hcount : p.countInit = 0 := by
        rw [hp]
        exact hnone
      rw [turnsRight_cons, ← hp, selectRoundRobin, hcount]
      exact ⟨⟨by nofun, by nofun, fun _ _ id hid => by omega, fun _ _ => hcount⟩, ih hcount⟩

/-! ### Other pools -/

theorem select_head (hpos : 0 < pool.countInit)
    (hpass : skips code sel (pool.memslot pool.rrCurrent) = false) :
    pool.selectRoundRobin code sel =
      (some pool.rrCurrent, { pool with rrCurrent := pool.turn 1 }) := by
  unfold selectRoundRobin
  cases hn : pool.countInit with
  | zero => omega
  | succ n =>
      rw [roundRobinLoop, hpass, if_neg Bool.false_ne_true, ← hn]
      rfl

/-- The pool has fewer clients than the cursor passes, and one at least. -/
structure Short (pool : ClientPool Load) : Prop where
  pos : 0 < pool.countInit
  lt : pool.countInit < pool.cliCountMax.toNat

theorem Short.not_right (h : pool.Short) (hcur : pool.rrCurrent = 1) (load : Load) :
    ¬Right code (pool.withClients (firstConnected load 1 code).clients) code
      ((pool.withClients (firstConnected load 1 code).clients).selectRoundRobin code code).1 := by
  have hpos := h.pos
  have hlt := h.lt
  intro hright
  obtain ⟨p, hp⟩ : ∃ p, p = pool.withClients (firstConnected load 1 code).clients := ⟨_, rfl⟩
  have hstate (id : Nat) (hid : id < pool.countInit) :
      (p.memslot id).socketState = if id < 1 then .connected else .disconnected := by
    rw [hp]
    simp only [withClients, if_pos hid, firstConnected]
  have hcount : p.countInit = pool.countInit := by rw [hp]; rfl
  have hmax : p.cliCountMax = pool.cliCountMax := by rw [hp]; rfl
  have hone : p.rrCurrent = 1 := by rw [hp]; exact hcur
  rw [← hp] at hright
  rcases @roundRobinLoop_spec _ code p code p.countInit
    (by rw [hone, hmax]; omega) with ⟨j, hj, heq, -⟩ | ⟨id, -, heq, -⟩
  · rw [selectRoundRobin, heq] at hright
    have hturn : p.turn j = 1 + j := by
      rw [turn, hone, Nat.mod_eq_of_lt (by rw [hmax]; omega)]
    have hin := hright.initialised _ rfl
    have hconnected := hright.connected (Or.inr rfl) _ rfl
    rw [hturn] at hin hconnected
    rw [hstate _ (by omega), if_neg (by omega)] at hconnected
    cases hconnected
  · rw [selectRoundRobin, heq] at hright
    have hnone := hright.noneConnected (Or.inr rfl) rfl 0 (by omega)
    rw [hstate 0 hpos] at hnone
    exact hnone rfl

theorem Short.not_turnsRight_connected (h : pool.Short) (hstart : pool.rrCurrent = 0)
    (load : Load) :
    ¬TurnsRight code pool [firstConnected load 1 code, firstConnected load 1 code] := by
  have hpos := h.pos
  have hlt := h.lt
  obtain ⟨p, hp⟩ : ∃ p, p = pool.withClients (firstConnected load 1 code).clients := ⟨_, rfl⟩
  have hzero : p.rrCurrent = 0 := by rw [hp]; exact hstart
  have hmax : p.cliCountMax = pool.cliCountMax := by rw [hp]; rfl
  have hcount : p.countInit = pool.countInit := by rw [hp]; rfl
  have hhead : skips code code (p.memslot p.rrCurrent) = false := by
    rw [skips_eq_false, hzero, hp]
    simp only [withClients, if_pos hpos, firstConnected]
    exact fun _ => rfl
  have hturn : p.turn 1 = 1 := by
    rw [turn, hzero, hmax, Nat.mod_eq_of_lt (by omega)]
  have hselect := select_head (by omega) hhead
  rw [hturn] at hselect
  have hsame : (firstConnected load 1 code).selectConnected = code := rfl
  rw [turnsRight_cons, turnsRight_cons, hsame, ← hp, hselect]
  intro hrun
  have hshort : Short { p with rrCurrent := 1 } := by
    constructor
    · change 0 < p.countInit
      omega
    · change p.countInit < p.cliCountMax.toNat
      rw [hmax]
      omega
  exact hshort.not_right rfl load hrun.2.1

theorem Short.turnsRight_any (h : pool.Short) (hsel : sel ≠ code) (load : Load) {k : Nat}
    (hcur : pool.rrCurrent ≤ pool.countInit)
    (hrun : TurnsRight code pool (List.replicate k (firstConnected load 0 sel))) :
    pool.rrCurrent + k ≤ pool.countInit := by
  induction k generalizing pool with
  | zero => exact hcur
  | succ k ih =>
      have hpos := h.pos
      have hlt := h.lt
      have hhead := @select_head _ code (pool.withClients (firstConnected load 0 sel).clients) sel
        hpos (skips_eq_false.mpr fun hcode => absurd hcode hsel)
      have hsame : (firstConnected load 0 sel).selectConnected = sel := rfl
      rw [replicate_succ, turnsRight_cons, hsame, hhead] at hrun
      obtain ⟨hright, hrest⟩ := hrun
      have hin : pool.rrCurrent < pool.countInit := hright.initialised _ rfl
      have hturn : (pool.withClients (firstConnected load 0 sel).clients).turn 1 =
          pool.rrCurrent + 1 := Nat.mod_eq_of_lt (by
        change pool.rrCurrent + 1 < pool.cliCountMax.toNat
        omega)
      rw [hturn] at hrest
      have hnext := @ih { pool.withClients (firstConnected load 0 sel).clients with
        rrCurrent := pool.rrCurrent + 1 } ⟨hpos, hlt⟩ hin hrest
      simp only [withClients] at hnext
      omega

theorem not_turnsRight_misread (hpos : 0 < pool.countInit)
    (hcur : pool.rrCurrent < pool.countInit) (hsel : ¬Understood code sel) (load : Load) :
    ¬TurnsRight code pool [firstConnected load 0 sel] := by
  obtain ⟨hasked, hmisread⟩ := Classical.not_imp.mp hsel
  have hhead := @select_head _ code (pool.withClients (firstConnected load 0 sel).clients) sel
    hpos (skips_eq_false.mpr fun hcode => absurd hcode hmisread)
  intro hrun
  have hsame : (firstConnected load 0 sel).selectConnected = sel := rfl
  rw [turnsRight_cons, hsame, hhead] at hrun
  have hconnected := hrun.1.connected (Or.inl hasked) pool.rrCurrent rfl
  simp only [withClients, if_pos hcur, firstConnected, Nat.not_lt_zero, if_false] at hconnected
  cases hconnected

/-! ### New pools -/

/-- The clients carry the numbers of their slots. -/
def Numbered (pool : ClientPool Load) : Prop :=
  ∀ i < pool.countInit, (pool.memslot i).cliIdOnpool = i

/-- A pool between its making and its first selection. -/
structure Fresh (pool : ClientPool Load) : Prop where
  start : pool.rrCurrent = 0
  le : pool.countInit ≤ pool.cliCountMax.toNat

theorem Numbered.init (h : pool.Numbered) (load : Load) :
    Numbered { pool with
      memslot := update pool.memslot pool.countInit { cliIdOnpool := pool.countInit, load }
      countInit := pool.countInit + 1 } := by
  intro i hi
  rcases Nat.lt_succ_iff_lt_or_eq.mp hi with hlt | rfl
  · simp only [update_of_ne hlt.ne]
    exact h i hlt
  · simp only [update_self]

theorem Numbered.initLoop {idle : Load} {initOk : Nat → Bool} {n : Nat}
    {pool' : ClientPool Load} (h : pool.Numbered)
    (hinit : pool.initLoop idle initOk n = some pool') : pool'.Numbered := by
  induction n generalizing pool with
  | zero =>
      obtain rfl := Option.some.inj hinit
      exact h
  | succ n ih =>
      simp only [ClientPool.initLoop] at hinit
      split at hinit
      · cases hinit
      · split at hinit
        · exact ih (h.init idle) hinit
        · obtain rfl := Option.some.inj hinit
          exact h

theorem numbered_new {idle : Load} {initOk : Nat → Bool} {conf : ClientPoolConf}
    (hnew : new idle initOk conf = some pool) : pool.Numbered :=
  Numbered.initLoop (by nofun) hnew

theorem initLoop_fresh {idle : Load} {initOk : Nat → Bool} {n : Nat} {pool' : ClientPool Load}
    (h : Fresh pool) (hroom : pool.countInit + n ≤ pool.cliCountMax.toNat ∨
      pool.cliCountMax = clientPoolMax)
    (hinit : initLoop idle initOk n pool = some pool') : Fresh pool' := by
  induction n generalizing pool with
  | zero =>
      obtain rfl := Option.some.inj hinit
      exact h
  | succ n ih =>
      simp only [initLoop] at hinit
      split at hinit
      · cases hinit
      · rename_i hslot
        split at hinit
        · refine @ih _ ⟨by exact h.start, ?_⟩ ?_ hinit
          · rcases hroom with hroom | hroom
            · simp only
              omega
            · simp only [hroom]
              omega
          · rcases hroom with hroom | hroom
            · exact Or.inl (by simp only; omega)
            · exact Or.inr hroom
        · obtain rfl := Option.some.inj hinit
          exact ⟨h.start, h.le⟩

theorem fresh_new {idle : Load} {initOk : Nat → Bool} {conf : ClientPoolConf}
    (hconf : conf.cliCountInit ≤ conf.cliCountMax) (hnew : new idle initOk conf = some pool) :
    Fresh pool := by
  apply initLoop_fresh ⟨rfl, Nat.zero_le _⟩ _ hnew
  simp only
  split
  · exact Or.inr rfl
  · exact Or.inl (by omega)

/-- **Selections from a new pool** are right along every run exactly where the pool holds no
client, or as many as the cursor passes and is asked with codes that it understands. -/
theorem Fresh.turnsRight_iff (h : Fresh pool) (sel : Int) (sels : List Int) :
    (∀ run, (∀ s ∈ run, s.selectConnected ∈ sel :: sels) → TurnsRight code pool run) ↔
      pool.countInit = 0 ∨
        (pool.countInit = pool.cliCountMax.toNat ∧ ∀ s ∈ sel :: sels, Understood code s) := by
  obtain ⟨hstart, hle⟩ := h
  constructor
  · intro hall
    rcases Nat.eq_zero_or_pos pool.countInit with hnone | hpos
    · exact Or.inl hnone
    · have load := (pool.memslot 0).load
      refine Or.inr ⟨?_, fun s hs => ?_⟩
      · by_contra hne
        have hshort : Short pool := ⟨hpos, by omega⟩
        by_cases hcode : sel = code
        · refine hshort.not_turnsRight_connected hstart load (hall _ fun s hs => ?_)
          have hsame : s = firstConnected load 1 code := by simpa using hs
          have hs : s.selectConnected = code := by rw [hsame, firstConnected]
          rw [hs, ← hcode]
          exact mem_cons_self
        · have hrun := hall (List.replicate (pool.countInit + 1) (firstConnected load 0 sel))
            fun s hs => by
              rw [eq_of_mem_replicate hs]
              exact mem_cons_self
          have hover := hshort.turnsRight_any hcode load (by omega) hrun
          omega
      · by_contra hmisread
        refine not_turnsRight_misread hpos (by omega) hmisread load (hall _ fun t ht => ?_)
        rw [mem_singleton.mp ht]
        exact hs
  · intro hcond run hrun
    rcases Nat.eq_zero_or_pos pool.countInit with hnone | hpos
    · exact turnsRight_of_empty hnone run
    · obtain ⟨hfull, hcodes⟩ := hcond.resolve_left hpos.ne'
      have hpool : Full pool := ⟨hfull.symm, by omega⟩
      exact hpool.turnsRight run fun s hs => hcodes _ (hrun s hs)

end ClientPool

/-- The selections of a run ask with some of these codes. -/
def AskingWith {Load : Type} (sels : List Int) (run : List (Selection Load)) : Prop :=
  ∀ s ∈ run, s.selectConnected ∈ sels

/-- Every run of selections that asks a TCP pool with these codes is right. -/
def CommEvTCPClientPool.RightFor (pool : CommEvTCPClientPool) (sels : List Int) : Prop :=
  ∀ run, AskingWith sels run →
    pool.RunRight tcpConnected CommEvTCPClientPool.clientSelectRoundRobin run

/-- Every run of selections that asks a UNIX pool with these codes is right. -/
def CommEvUNIXClientPool.RightFor (pool : CommEvUNIXClientPool) (sels : List Int) : Prop :=
  ∀ run, AskingWith sels run →
    pool.RunRight unixConnected CommEvUNIXClientPool.clientSelectRoundRobin run

/-- **Selection by turns.**  From a pool as it is made, every run of selections is right exactly
where all the slots that the cursor passes hold clients, if any does, and where connected clients
of a TCP pool are not asked for with `COMM_POOL_SELECT_CONNECTED`. -/
theorem clientSelectRoundRobin_right_iff {conf : ClientPoolConf} {socketOk : Nat → Bool}
    {tcp : CommEvTCPClientPool} {unix : CommEvUNIXClientPool}
    (hconf : conf.cliCountInit ≤ conf.cliCountMax) (htcp : CommEvTCPClientPool.new conf = some tcp)
    (hunix : CommEvUNIXClientPool.new socketOk conf = some unix) (sel : Int) (sels : List Int) :
    (tcp.RightFor (sel :: sels) ↔
      tcp.countInit = 0 ∨ (tcp.countInit = tcp.cliCountMax.toNat ∧
        (PoolSelect.connected.ctorIdx : Int) ∉ sel :: sels)) ∧
    (unix.RightFor (sel :: sels) ↔
      unix.countInit = 0 ∨ unix.countInit = unix.cliCountMax.toNat) := by
  have htcp := ClientPool.fresh_new hconf htcp
  have hunix := ClientPool.fresh_new hconf hunix
  constructor
  · have hcodes : (∀ s ∈ sel :: sels, ClientPool.Understood tcpConnected s) ↔
        (PoolSelect.connected.ctorIdx : Int) ∉ sel :: sels := by
      constructor
      · intro hall hmem
        exact absurd (hall _ hmem rfl) (by decide)
      · rintro hnot s hs rfl
        exact absurd hs hnot
    rw [← hcodes]
    exact htcp.turnsRight_iff sel sels
  · have hcodes : ∀ s ∈ sel :: sels, ClientPool.Understood unixConnected s := fun s _ hs => hs
    have hiff := @ClientPool.Fresh.turnsRight_iff _ unixConnected unix hunix sel sels
    rwa [and_iff_left hcodes] at hiff

/-- In pools that are full every run is right that asks for connected clients. -/
theorem full_pools_select_right :
    ∃ tcp unix, CommEvTCPClientPool.new ⟨2, 2⟩ = some tcp ∧
      CommEvUNIXClientPool.new (fun _ => true) ⟨2, 2⟩ = some unix ∧
      tcp.RightFor [tcpConnected] ∧ unix.RightFor [unixConnected] := by
  obtain ⟨tcp, htcp⟩ : ∃ tcp, CommEvTCPClientPool.new ⟨2, 2⟩ = some tcp := ⟨_, rfl⟩
  obtain ⟨unix, hunix⟩ : ∃ unix, CommEvUNIXClientPool.new (fun _ => true) ⟨2, 2⟩ = some unix :=
    ⟨_, rfl⟩
  refine ⟨tcp, unix, htcp, hunix, ?_, ?_⟩
  · apply (clientSelectRoundRobin_right_iff (by decide) htcp hunix tcpConnected []).1.mpr
    obtain rfl := Option.some.inj htcp
    exact Or.inr ⟨rfl, by decide⟩
  · apply (clientSelectRoundRobin_right_iff (by decide) htcp hunix unixConnected []).2.mpr
    obtain rfl := Option.some.inj hunix
    exact Or.inr rfl

/-- One client of two is made and stays connected. The second selection of a connected client
looks at the other slot only, and finds none. -/
theorem second_turn_misses_the_only_client :
    ∃ tcp, CommEvTCPClientPool.new ⟨1, 2⟩ = some tcp ∧ ¬tcp.RightFor [tcpConnected] := by
  refine ⟨_, rfl, fun hright => ?_⟩
  have hrun := hright [.firstConnected ⟨0, 0⟩ 1 tcpConnected, .firstConnected ⟨0, 0⟩ 1 tcpConnected]
    (by simp [AskingWith, Selection.firstConnected])
  apply @ClientPool.Short.not_turnsRight_connected TCPLoad tcpConnected _ _ rfl ⟨0, 0⟩ hrun
  constructor
  · decide
  · decide

end Comm
