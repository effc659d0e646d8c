import BrbFramework.Unix.Paths
import Mathlib.Data.List.Sort

/-!
# The bytes that a framed client emits

A frame is in the stream once its header went out, and the bytes that are still to
come are the rest of the payload of one request, which is the first that no handler
has finished. The requests' frames come in the order in which the requests were
accepted.

The stream goes wrong in three ways: an acknowledgement is sent while a request is
in the middle of its frame, such a request is given up, and the sequence number of a
request that took 65535 pieces is zero again, so that its header is sent anew.
`Smooth` says that none of this happens.
-/

namespace Unix

open BrbData MemSlotBase Handler CommEvUNIXClient List CommEvUNIXClient

inductive WireFrame
  | message (req : CommEvUNIXWriteRequest)
  | ack (reqId : Int32)

def WireFrame.bytes : WireFrame → List UInt8
  | .message req => req.header.encode ++ req.data
  | .ack reqId => (ackHeader reqId.toInt).encode

def frameOf : Obs → Option WireFrame
  | .header req => some (.message req)
  | .ackHeader reqId _ => some (.ack reqId)
  | _ => none

def frames (log : List Obs) : List WireFrame := log.filterMap frameOf

def stream (fs : List WireFrame) : List UInt8 := fs.flatMap WireFrame.bytes

def headerOf : Obs → Option CommEvUNIXWriteRequest
  | .header req => some req
  | _ => none

def headers (log : List Obs) : List CommEvUNIXWriteRequest := log.filterMap headerOf

/-- The request in slot `x` is in the middle of its frame. -/
def opened (c : CommEvUNIXClient) (x : Nat) : Bool := (c.req x).begun && 0 < (c.req x).remain

/-- The peer acknowledges what it owes, no acknowledgement is sent in the middle of a
frame, no request is given up there, no sequence number comes back to zero, and the
client is not closed. -/
structure Smooth (log : List Obs) : Prop where
  owed : AcksOwed log
  whole : ∀ reqId, Obs.ackHeader reqId true ∉ log
  kept : ∀ serial, Obs.dropped serial true ∉ log
  once : ∀ req, Obs.header req ∈ log → req.offset = 0
  alive : ¬ Closed log

/-- What is still to come of the frames that were begun. -/
def Rest (c : CommEvUNIXClient) (rest : List UInt8) : Prop :=
  (rest = [] ∧ ∀ x ∈ c.writes, opened c x = false) ∨
  ∃ x ∈ c.writes, opened c x = true ∧ rest = (c.req x).data.drop (c.req x).offset

/-- What was emitted, and where the rest of it is. -/
structure Flow (c : CommEvUNIXClient) : Prop where
  connected : c.connected = true
  destroying : c.destroying = false
  rest : ∃ rest, c.out ++ rest = stream (frames c.log) ∧ Rest c rest
  uniq : ∀ x ∈ c.writes, ∀ y ∈ c.writes, opened c x = true → opened c y = true → x = y
  first : ∀ z y, [z, y].Sublist c.writes → opened c y = true → z ∈ c.stack
  still : ∀ x ∈ c.writes, x ∈ c.stack → opened c x = false

def letter (req : CommEvUNIXWriteRequest) : CommEvUNIXWriteRequest where
  serial := req.serial
  reqId := req.reqId
  ctrlFlags := req.ctrlFlags
  data := req.data

def key (req : CommEvUNIXWriteRequest) : CommEvUNIXWriteRequest where
  serial := req.serial
  reqId := req.reqId
  ctrlFlags := req.ctrlFlags
  data := req.data
  offset := req.offset
  remain := req.remain
  seqId := req.seqId

def acceptOf : Obs → Option CommEvUNIXWriteRequest
  | .accepted req => some req
  | _ => none

def accepts (log : List Obs) : List CommEvUNIXWriteRequest := log.filterMap acceptOf

/-- The fields of the request's header fit their types. -/
structure Fits (req : CommEvUNIXWriteRequest) : Prop where
  reqId_lt : req.reqId < 4096
  length_le : req.data.length ≤ maxWriteSize
  fds_le : req.fdArr.length ≤ maxFdArrSz
  flags_eq : req.ctrlFlags = flagRequest + if req.wantsAck then flagWantAck else 0

/-- Which requests were begun, and which are left. -/
structure Sequence (c : CommEvUNIXClient) : Prop where
  numbered : (accepts c.log).Pairwise fun r r' => r.serial < r'.serial
  known : ∀ r ∈ accepts c.log, r.serial < c.created
  sorted : c.writes.Pairwise fun x y => (c.req x).serial < (c.req y).serial
  increasing : (headers c.log).Pairwise fun r r' => r.serial < r'.serial
  behind : ∀ r ∈ headers c.log, ∀ x ∈ c.writes, x ∉ c.stack → (c.req x).begun = false →
    r.serial < (c.req x).serial
  begun : ∀ x ∈ c.writes, (c.req x).begun = true →
    ∃ r ∈ headers c.log, r.serial = (c.req x).serial
  spent : ∀ x ∈ c.writes, x ∈ c.stack →
    (c.req x).begun = true ∨ Obs.dropped (c.req x).serial false ∈ c.log
  owner : ∀ x ∈ c.writes, ∃ r ∈ accepts c.log, letter r = letter (c.req x)
  faithful : ∀ r ∈ headers c.log, ∃ r₀ ∈ accepts c.log, letter r₀ = letter r
  sent : ∀ r ∈ accepts c.log, (∃ r' ∈ headers c.log, r'.serial = r.serial) ∨
    (∃ x ∈ c.writes, (c.req x).serial = r.serial ∧ (c.req x).begun = false) ∨
    Obs.dropped r.serial false ∈ c.log
  fits : ∀ r ∈ headers c.log, Fits r

def Silent (o : Obs) : Prop := frameOf o = none ∧ acceptOf o = none

/-- An act that is about nothing in the stream: requests may leave that a handler has
finished, and a handler may take up requests that are not in the middle of a frame. -/
structure Aside (s t : CommEvUNIXClient) : Prop where
  connected : t.connected = s.connected
  destroying : t.destroying = s.destroying
  created : t.created = s.created
  out : t.out = s.out
  log : ∃ l, t.log = s.log ++ l ∧ ∀ o ∈ l, Silent o
  writes : t.writes.Sublist s.writes
  kept : ∀ y ∈ t.writes, key (t.req y) = key (s.req y)
  gone : ∀ y ∈ s.writes, y ∉ t.writes → y ∈ s.stack
  stack : ∀ y ∈ t.writes, y ∈ s.stack → y ∈ t.stack
  pushed : ∀ y ∈ t.writes, y ∈ t.stack → y ∈ s.stack ∨ (opened s y = false ∧
    ((s.req y).begun = true ∨ Obs.dropped (s.req y).serial false ∈ t.log))

structure Steadfast (s t : CommEvUNIXClient) : Prop where
  connected : t.connected = s.connected
  destroying : t.destroying = s.destroying
  active : t.active = s.active

inductive Moves (s t : CommEvUNIXClient) : Prop
  | accept (x : Nat) (req : CommEvUNIXWriteRequest) (hs : Steadfast s t) (hx : x ∉ s.writes)
      (hstack : x ∉ s.stack) (hserial : req.serial = s.created) (hbegun : req.begun = false)
      (hself : t.req x = req) (hother : ∀ y, y ≠ x → t.req y = s.req y)
      (hwrites : t.writes = s.writes ++ [x]) (hcreated : t.created = s.created + 1)
      (hout : t.out = s.out) (hlog : t.log = s.log ++ [.accepted req])
  | header (x : Nat) (hs : Steadfast s t) (hx : x ∈ s.writes) (hstack : x ∉ s.stack)
      (hseq : (s.req x).seqId = 0)
      (hfirst : (s.pendingWriteRequest = false ∧ (s.req x).inUse = false) ∨
        (s.active = [] ∧ s.writes.head? = some x))
      (hself : t.req x = { s.req x with seqId := (s.req x).seqId + 1 })
      (hother : ∀ y, y ≠ x → t.req y = s.req y)
      (hwrites : t.writes = s.writes) (hcreated : t.created = s.created)
      (hout : t.out = s.out ++ (s.req x).header.encode)
      (hlog : t.log = s.log ++ [.header (s.req x)])
  | payload (x n : Nat) (bytes : List UInt8) (hs : Steadfast s t) (hx : x ∈ s.writes)
      (hstack : x ∉ s.stack) (hbegun : (s.req x).begun = true) (hn : (n : Int) ≤ (s.req x).remain)
      (hpos : 0 < n) (hbytes : bytes = ((s.req x).data.drop (s.req x).offset).take n)
      (hself : t.req x =
        { s.req x with
          offset := (s.req x).offset + n
          remain := (s.req x).remain - n
          seqId := (s.req x).seqId + 1 })
      (hother : ∀ y, y ≠ x → t.req y = s.req y)
      (hwrites : t.writes = s.writes) (hcreated : t.created = s.created)
      (hout : t.out = s.out ++ bytes)
      (hlog : t.log = s.log ++ [.payload (s.req x).serial bytes])
  | ackHeader (reqId : Int32) (hs : Steadfast s t) (hpool : t.reqMemSlot = s.reqMemSlot)
      (hcreated : t.created = s.created)
      (hout : t.out = s.out ++ (Unix.ackHeader reqId.toInt).encode)
      (hlog : t.log = s.log ++ [.ackHeader reqId s.midFrame])

section Frames

variable {log l : List Obs}

@[simp] theorem frames_append : frames (log ++ l) = frames log ++ frames l :=
  filterMap_append ..

@[simp] theorem headers_append : headers (log ++ l) = headers log ++ headers l :=
  filterMap_append ..

@[simp] theorem stream_append (fs fs' : List WireFrame) :
    stream (fs ++ fs') = stream fs ++ stream fs' := flatMap_append

@[simp] theorem accepts_append : accepts (log ++ l) = accepts log ++ accepts l :=
  filterMap_append ..

theorem frames_of_silent (h : ∀ o ∈ l, Silent o) : frames l = [] :=
  filterMap_eq_nil_iff.mpr fun o ho => (h o ho).1

theorem accepts_of_silent (h : ∀ o ∈ l, Silent o) : accepts l = [] :=
  filterMap_eq_nil_iff.mpr fun o ho => (h o ho).2

theorem headers_of_silent (h : ∀ o ∈ l, Silent o) : headers l = [] := by
  refine filterMap_eq_nil_iff.mpr fun o ho => ?_
  have hnone := (h o ho).1
  cases o with
  | header req => cases hnone
  | _ => rfl

theorem silent_finishObs {req : CommEvUNIXWriteRequest} {size : Int} :
    ∀ o ∈ finishObs req size, Silent o := by
  unfold finishObs
  split <;> simp [Silent, frameOf, acceptOf]

theorem silent_ackObs {req : CommEvUNIXWriteRequest} {code : AckCode} :
    ∀ o ∈ ackObs req code, Silent o := by
  unfold ackObs
  split <;> simp [Silent, frameOf, acceptOf]

theorem mem_headers {r : CommEvUNIXWriteRequest} : r ∈ headers log ↔ Obs.header r ∈ log := by
  unfold headers
  rw [mem_filterMap]
  constructor
  · rintro ⟨o, ho, heq⟩
    cases o with
    | header req => exact Option.some.inj heq ▸ ho
    | _ => cases heq
  · exact fun h => ⟨_, h, rfl⟩

theorem Smooth.of_prefix {log' : List Obs} (h : Smooth log') (hp : log <+: log') : Smooth log := by
  obtain ⟨l, rfl⟩ := hp
  exact ⟨fun l₁ x l₂ heq => h.owed l₁ x (l₂ ++ l) (by rw [heq]; simp),
    fun reqId hin => h.whole reqId (mem_append_left _ hin),
    fun serial hin => h.kept serial (mem_append_left _ hin),
    fun req hin => h.once req (mem_append_left _ hin),
    fun hc => h.alive (hc.imp (mem_append_left _) (mem_append_left _))⟩

end Frames

section Lists

variable {l : List Nat} {x y : Nat}

theorem pair_sublist_or (hx : x ∈ l) (hy : y ∈ l) (hne : x ≠ y) :
    [x, y].Sublist l ∨ [y, x].Sublist l := by
  obtain ⟨l₁, l₂, rfl⟩ := append_of_mem hx
  rcases mem_append.mp hy with hy | hy
  · exact .inr ((singleton_sublist.mpr hy).append (singleton_sublist.mpr mem_cons_self))
  · have hy := (mem_cons.mp hy).resolve_left (Ne.symm hne)
    exact .inl ((List.Sublist.cons_cons x (singleton_sublist.mpr hy)).trans
      (sublist_append_right _ _))

theorem pair_sublist_concat {z : Nat} (hsub : [z, y].Sublist (l ++ [x])) (hne : y ≠ x) :
    [z, y].Sublist l := by
  obtain ⟨l₁, l₂, heq, h₁, h₂⟩ := sublist_append_iff.mp hsub
  have hnil : l₂ = [] := by
    rcases sublist_singleton.mp h₂ with hnil | hone
    · exact hnil
    · exfalso
      have hlast := congrArg List.getLast? heq
      rw [hone, getLast?_concat] at hlast
      exact hne (Option.some.inj hlast)
  rw [heq, hnil, append_nil]
  exact h₁

end Lists

section Acts

variable {s t : CommEvUNIXClient}

theorem aside_view (h : Aside s t.view ∨ Moves s t.view) : Aside s t ∨ Moves s t := by
  rcases h with h | h
  · exact .inl ⟨h.connected, h.destroying, h.created, h.out, h.log, h.writes, h.kept, h.gone,
      h.stack, h.pushed⟩
  · right
    cases h with
    | accept x req hs hx hstack hserial hbegun hself hother hwrites hcreated hout hlog =>
        exact .accept x req ⟨hs.connected, hs.destroying, hs.active⟩ hx hstack hserial hbegun hself
          hother hwrites hcreated hout hlog
    | header x hs hx hstack hseq hfirst hself hother hwrites hcreated hout hlog =>
        exact .header x ⟨hs.connected, hs.destroying, hs.active⟩ hx hstack hseq hfirst hself hother
          hwrites hcreated hout hlog
    | payload x n bytes hs hx hstack hbegun hn hpos hbytes hself hother hwrites hcreated hout hlog =>
        exact .payload x n bytes ⟨hs.connected, hs.destroying, hs.active⟩ hx hstack hbegun hn hpos
          hbytes hself hother hwrites hcreated hout hlog
    | ackHeader reqId hs hpool hcreated hout hlog =>
        exact .ackHeader reqId ⟨hs.connected, hs.destroying, hs.active⟩ hpool hcreated hout hlog

theorem aside_of_eq {l : List Obs} (hconnected : t.connected = s.connected)
    (hd : t.destroying = s.destroying) (hcreated : t.created = s.created) (hout : t.out = s.out)
    (hlog : t.log = s.log ++ l) (hl : ∀ o ∈ l, Silent o) (hwrites : t.writes = s.writes)
    (hactive : t.active = s.active) (hkept : ∀ y ∈ t.writes, key (t.req y) = key (s.req y)) :
    Aside s t where
  connected := hconnected
  destroying := hd
  created := hcreated
  out := hout
  log := ⟨l, hlog, hl⟩
  writes := hwrites ▸ List.Sublist.refl _
  kept := hkept
  gone := fun y hy hno => absurd (hwrites ▸ hy) hno
  stack := fun y _ hy => by
    rw [stack, hactive]
    exact hy
  pushed := fun y _ hy => by
    rw [stack, hactive] at hy
    exact .inl hy

theorem aside_of_push {l : List Obs} {x : Nat} {acked : Bool} {rest : List (Nat × Bool)}
    (hconnected : t.connected = s.connected)
    (hd : t.destroying = s.destroying) (hcreated : t.created = s.created) (hout : t.out = s.out)
    (hlog : t.log = s.log ++ l) (hl : ∀ o ∈ l, Silent o) (hpool : t.reqMemSlot = s.reqMemSlot)
    (hactive : t.active = (x, acked) :: rest)
    (hstack : s.active = rest ∨ ∃ old, s.active = (x, old) :: rest)
    (hx : x ∈ s.writes → x ∈ s.stack ∨ (opened s x = false ∧
      ((s.req x).begun = true ∨ Obs.dropped (s.req x).serial false ∈ t.log))) :
    Aside s t where
  connected := hconnected
  destroying := hd
  created := hcreated
  out := hout
  log := ⟨l, hlog, hl⟩
  writes := by
    rw [writes, hpool]
  kept := fun y _ => by rw [req, req, hpool]
  gone := fun y hy hno => absurd hy (by rw [writes, hpool] at hno; exact hno)
  stack := fun y _ hy => by
    rw [stack, hactive, map_cons, mem_cons]
    rcases hstack with hs | ⟨old, hs⟩
    · rw [stack, hs] at hy
      exact .inr hy
    · rw [stack, hs, map_cons, mem_cons] at hy
      exact hy
  pushed := fun y hy hin => by
    rw [writes, hpool] at hy
    rw [stack, hactive, map_cons, mem_cons] at hin
    rcases hin with rfl | hin
    · exact hx hy
    · refine .inl ?_
      rcases hstack with hs | ⟨old, hs⟩
      · rw [stack, hs]
        exact hin
      · rw [stack, hs]
        exact mem_cons_of_mem _ hin

theorem aside_of_pop {l : List Obs} {x : Nat} {acked : Bool} {rest : List (Nat × Bool)}
    (hnodup : s.writes.Nodup) (hconnected : t.connected = s.connected)
    (hd : t.destroying = s.destroying) (hcreated : t.created = s.created) (hout : t.out = s.out)
    (hlog : t.log = s.log ++ l) (hl : ∀ o ∈ l, Silent o) (hwrites : t.writes = s.writes.erase x)
    (hother : ∀ y, y ≠ x → t.req y = s.req y) (hs : s.active = (x, acked) :: rest)
    (hactive : t.active = rest) : Aside s t where
  connected := hconnected
  destroying := hd
  created := hcreated
  out := hout
  log := ⟨l, hlog, hl⟩
  writes := hwrites ▸ erase_sublist
  kept := fun y hy => by
    rw [hwrites, hnodup.mem_erase_iff] at hy
    rw [hother y hy.1]
  gone := fun y hy hno => by
    rw [hwrites, hnodup.mem_erase_iff, not_and_or, not_not] at hno
    rw [hno.resolve_right fun h => h hy, stack, hs]
    exact mem_cons_self
  stack := fun y hy hin => by
    rw [hwrites, hnodup.mem_erase_iff] at hy
    rw [stack, hs, map_cons, mem_cons] at hin
    rw [stack, hactive]
    exact hin.resolve_left hy.1
  pushed := fun y _ hin => by
    rw [stack, hactive] at hin
    refine .inl ?_
    rw [stack, hs]
    exact mem_cons_of_mem _ hin

theorem key_of_core {r r' : CommEvUNIXWriteRequest} (h : r'.core = r.core) : key r' = key r := by
  have hserial : r'.serial = r.serial := (congrArg (·.serial) h :)
  have hid : r'.reqId = r.reqId := (congrArg (·.reqId) h :)
  have hflags : r'.ctrlFlags = r.ctrlFlags := (congrArg (·.ctrlFlags) h :)
  have hdata : r'.data = r.data := (congrArg (·.data) h :)
  have hoff : r'.offset = r.offset := (congrArg (·.offset) h :)
  have hremain : r'.remain = r.remain := (congrArg (·.remain) h :)
  have hseq : r'.seqId = r.seqId := (congrArg (·.seqId) h :)
  rw [key, key, hserial, hid, hflags, hdata, hoff, hremain, hseq]

theorem Act.aside_or_moves (h : Act s t) (hs : Base s) (hc : s.connected = true)
    (hds : s.destroying = false) (hlog : Smooth t.log) : Aside s t ∨ Moves s t := by
  have hclosed : ¬ Closed s.log := fun hno => (hlog.of_prefix h.log_prefix).alive hno
  have hnodup : s.writes.Nodup := hs.wf.list_nodup _
  have hview : t.log = t.view.log := rfl
  refine aside_view ?_
  rw [hview] at hlog
  cases h with
  | quiet h =>
      rw [h]
      exact .inl (aside_of_eq (l := []) rfl rfl rfl rfl (by simp [view]) (by simp) rfl rfl
        fun _ _ => rfl)
  | touch x f hf h =>
      rw [h]
      refine .inl (aside_of_eq (l := []) rfl rfl rfl rfl (by simp [view]) (by simp) rfl rfl
        fun y _ => ?_)
      by_cases hyx : y = x
      · rw [hyx]
        simpa [req] using key_of_core (hf (s.req x))
      · simp [req, slotData_modifyData_of_ne _ _ _ hyx]
  | initData hinit h =>
      obtain ⟨hw, -⟩ := hs.uninit hinit
      rw [h]
      exact .inl (aside_of_eq (l := []) rfl rfl rfl rfl (by simp [view]) (by simp)
        (by rw [hw]; rfl) rfl fun y hy => by cases hy)
  | called op h =>
      rw [h]
      exact .inl (aside_of_eq rfl rfl rfl rfl rfl (by simp [Silent, frameOf, acceptOf]) rfl rfl
        fun _ _ => rfl)
  | granted h =>
      rw [h]
      exact .inl (aside_of_eq rfl rfl rfl rfl rfl (by simp [Silent, frameOf, acceptOf]) rfl rfl
        fun _ _ => rfl)
  | accept x pool req hinit hgrab hfresh hlate hserial hid hoff hseq hremain huse hdata hfds hflags h =>
      rw [h]
      have hnotW : x ∉ s.writes := hs.wf.slotGrab_fresh hgrab _
      have hnotA : x ∉ s.acks := hs.wf.slotGrab_fresh hgrab _
      refine .inr (.accept x req ⟨rfl, rfl, rfl⟩ hnotW (fun hin => ?_) hserial ?_ ?_ (fun y hy => ?_) ?_
        rfl rfl rfl)
      · obtain ⟨e, he, rfl⟩ := mem_map.mp hin
        rcases hs.stack_mem e he with hw | ⟨-, ha⟩
        · exact hnotW hw
        · exact hnotA ha
      · simp [CommEvUNIXWriteRequest.begun, hseq, hoff]
      · simp [CommEvUNIXClient.req]
      · simp [CommEvUNIXClient.req, slotData_modifyData_of_ne _ _ _ hy, slotGrab_data hgrab]
      · change (pool.modifyData x fun _ => req).list pendingWrite = _
        rw [modifyData_list]
        exact slotGrab_list_zero hgrab
  | header x hx hstack hseq hfirst h =>
      rw [h]
      refine .inr (.header x ⟨rfl, rfl, rfl⟩ hx hstack hseq hfirst ?_ (fun y hy => ?_) rfl rfl rfl rfl)
      · simp [req]
      · simp [req, slotData_modifyData_of_ne _ _ _ hy]
  | payload x n hx hstack hbegun hn hpos h =>
      rw [h]
      refine .inr (.payload x n _ ⟨rfl, rfl, rfl⟩ hx hstack hbegun hn hpos rfl ?_ (fun y hy => ?_) rfl
        rfl rfl rfl)
      · simp [req]
      · simp [req, slotData_modifyData_of_ne _ _ _ hy]
  | enqueue x hx h =>
      rw [h]
      refine .inl (aside_of_eq (l := []) rfl rfl rfl rfl (by simp [view]) (by simp) rfl rfl
        fun y _ => ?_)
      by_cases hyx : y = x
      · rw [hyx]
        simp [req, key]
      · simp [req, slotData_modifyData_of_ne _ _ _ hyx]
  | finish x size hx hstack hbegun hremain hsched h =>
      rw [h]
      exact .inl (aside_of_push rfl rfl rfl rfl rfl silent_finishObs rfl rfl (.inl rfl) fun _ =>
        .inr ⟨by simp [opened, hremain], .inl hbegun⟩)
  | drop x size hx hstack h =>
      rw [h] at hlog ⊢
      have hbegun : (s.req x).begun = false := by
        by_contra hno
        rw [Bool.not_eq_false] at hno
        exact hlog.kept (s.req x).serial (by simp [hno])
      refine .inl (aside_of_push rfl rfl rfl rfl rfl ?_ rfl rfl (.inl rfl) fun _ =>
        .inr ⟨by simp [opened, hbegun], .inr (by simp [hbegun])⟩)
      intro o ho
      rcases mem_append.mp ho with ho | ho
      · rw [mem_singleton.mp ho]
        exact ⟨rfl, rfl⟩
      · exact silent_finishObs o ho
  | ackDropped x rest hx h =>
      rw [h]
      refine .inl (aside_of_push rfl rfl rfl rfl rfl silent_ackObs rfl rfl (.inr ⟨false, hx⟩)
        fun _ => .inl ?_)
      rw [stack, hx]
      exact mem_cons_self
  | ackStray x h =>
      rw [h]
      exact .inl (aside_of_eq rfl rfl rfl rfl rfl (by simp [Silent, frameOf, acceptOf]) rfl rfl
        fun _ _ => rfl)
  | ackIn x hx hstack hd h =>
      rw [h] at hlog ⊢
      -- what the peer owes was written, so that it is not pending any more
      have hacks : x ∈ s.acks := (hs.owed_mem hds x (hlog.owed s.log x (ackObs (s.req x) .ok) rfl)).1
      refine .inl (aside_of_push rfl rfl rfl rfl rfl ?_ rfl rfl (.inl rfl) fun hw =>
        absurd hacks (not_mem_acks_of_writes hs.wf hw))
      intro o ho
      rcases mem_append.mp ho with ho | ho
      · rw [mem_singleton.mp ho]
        exact ⟨rfl, rfl⟩
      · exact silent_ackObs o ho
  | release x acked rest hx hacked h =>
      rw [h]
      have hmem := hs.stack_mem (x, acked) (by rw [hx]; exact mem_cons_self)
      refine .inl (aside_of_pop hnodup rfl rfl rfl rfl rfl (by simp [Silent, frameOf, acceptOf])
        (lists_of_release hs (hmem.imp_right And.right) rfl).2.2.1 (fun y hy => ?_) hx rfl)
      simp [req, slotData_modifyData_of_ne _ _ _ hy]
  | wait x rest hx hwants h =>
      rw [h]
      have hw : x ∈ s.writes := by
        have hmem := hs.stack_mem (x, false) (by rw [hx]; exact mem_cons_self)
        exact hmem.resolve_right fun hno => by cases hno.1
      refine .inl (aside_of_pop hnodup rfl rfl rfl rfl rfl (by simp [Silent, frameOf, acceptOf])
        (lists_of_wait hs hw rfl).2.1 (fun y hy => ?_) hx rfl)
      simp [req, slotData_modifyData_of_ne _ _ _ hy]
  | ackHeader reqId h =>
      rw [h]
      exact .inr (.ackHeader reqId ⟨rfl, rfl, rfl⟩ rfl rfl rfl rfl)
  | idle hw h =>
      rw [h]
      exact .inl (aside_of_eq (l := []) rfl rfl rfl rfl (by simp [view]) (by simp) rfl rfl
        fun _ _ => rfl)
  | destroying hinit hno h => exact absurd hno hclosed
  | abandon x rest hx hd hstack h => rw [hds] at hd; cases hd
  | fail x rest hx hd hstack h => rw [hds] at hd; cases hd
  | destroyed hd hstack hacks hwrites h => rw [hds] at hd; cases hd
  | disconnect hno h => exact absurd hno hclosed
  | connect hno h => rw [hc] at hno; cases hno

end Acts

section Flow

variable {s t : CommEvUNIXClient}

theorem begun_of_key {r r' : CommEvUNIXWriteRequest} (h : key r' = key r) : r'.begun = r.begun := by
  have hoff : r'.offset = r.offset := (congrArg (·.offset) h :)
  have hseq : r'.seqId = r.seqId := (congrArg (·.seqId) h :)
  rw [CommEvUNIXWriteRequest.begun, CommEvUNIXWriteRequest.begun, hoff, hseq]

theorem opened_of_key {x : Nat} (h : key (t.req x) = key (s.req x)) : opened t x = opened s x := by
  have hremain : (t.req x).remain = (s.req x).remain := (congrArg (·.remain) h :)
  rw [opened, opened, begun_of_key h, hremain]

theorem letter_of_key {r r' : CommEvUNIXWriteRequest} (h : key r' = key r) : letter r' = letter r := by
  have hserial : r'.serial = r.serial := (congrArg (·.serial) h :)
  have hid : r'.reqId = r.reqId := (congrArg (·.reqId) h :)
  have hflags : r'.ctrlFlags = r.ctrlFlags := (congrArg (·.ctrlFlags) h :)
  have hdata : r'.data = r.data := (congrArg (·.data) h :)
  rw [letter, letter, hserial, hid, hflags, hdata]

theorem serial_of_letter {r r' : CommEvUNIXWriteRequest} (h : letter r' = letter r) :
    r'.serial = r.serial := (congrArg (·.serial) h :)

theorem opened_of_not_begun {c : CommEvUNIXClient} {x : Nat} (h : (c.req x).begun = false) :
    opened c x = false := by
  simp [opened, h]

theorem Rest.eq_nil {c : CommEvUNIXClient} {rest : List UInt8} (h : Rest c rest)
    (hno : ∀ x ∈ c.writes, opened c x = false) : rest = [] := by
  rcases h with ⟨hnil, -⟩ | ⟨x, hx, hopen, -⟩
  · exact hnil
  · rw [hno x hx] at hopen
    cases hopen

theorem Flow.aside (h : Flow s) (ht : Aside s t) : Flow t := by
  obtain ⟨l, hlog, hl⟩ := ht.log
  obtain ⟨rest, hout, hrest⟩ := h.rest
  have hopened : ∀ x ∈ t.writes, opened t x = opened s x := fun x hx => opened_of_key (ht.kept x hx)
  refine ⟨ht.connected.trans h.connected, ht.destroying.trans h.destroying, ⟨rest, ?_, ?_⟩,
    fun x hx y hy => ?_, fun z y hsub hopen => ?_, fun x hx hin => ?_⟩
  · rw [ht.out, hlog, frames_append, frames_of_silent hl, append_nil, hout]
  · rcases hrest with ⟨hnil, hno⟩ | ⟨x, hx, hopen, heq⟩
    · refine .inl ⟨hnil, fun x hx => ?_⟩
      rw [hopened x hx]
      exact hno x (ht.writes.subset hx)
    · -- a request that leaves was on the call stack, and is complete
      have hx' : x ∈ t.writes := by
        by_contra hno
        rw [h.still x hx (ht.gone x hx hno)] at hopen
        cases hopen
      have hdata : (t.req x).data = (s.req x).data := (congrArg (·.data) (ht.kept x hx') :)
      have hoff : (t.req x).offset = (s.req x).offset := (congrArg (·.offset) (ht.kept x hx') :)
      exact .inr ⟨x, hx', (hopened x hx').trans hopen, by rw [heq, hdata, hoff]⟩
  · rw [hopened x hx, hopened y hy]
    exact h.uniq x (ht.writes.subset hx) y (ht.writes.subset hy)
  · have hz : z ∈ t.writes := hsub.subset mem_cons_self
    have hy : y ∈ t.writes := hsub.subset (mem_cons_of_mem _ mem_cons_self)
    rw [hopened y hy] at hopen
    exact ht.stack z hz (h.first z y (hsub.trans ht.writes) hopen)
  · rw [hopened x hx]
    rcases ht.pushed x hx hin with hin | ⟨hno, -⟩
    · exact h.still x (ht.writes.subset hx) hin
    · exact hno

/-- Where a header goes out, the requests in front of it are on the call stack, and those
behind it are not begun. -/
theorem place_of_first (hs : Base s) (hd : s.destroying = false) {x : Nat} (hx : x ∈ s.writes)
    (hstack : x ∉ s.stack)
    (hfirst : (s.pendingWriteRequest = false ∧ (s.req x).inUse = false) ∨
      (s.active = [] ∧ s.writes.head? = some x)) :
    (∀ z, [z, x].Sublist s.writes → z ∈ s.stack) ∧
      ∀ y ∈ s.writes, y ∉ s.stack → y = x ∨ [x, y].Sublist s.writes := by
  rcases hfirst with ⟨hpending, huse⟩ | ⟨hactive, hhead⟩
  · -- every request that no handler works on is fresh, and so the last
    have hfresh : ∀ y ∈ s.writes, y ∉ s.stack → Fresh s y := fun y hy hout =>
      ⟨hy, (hs.kicked hd hpending y hy).resolve_left hout, hout⟩
    refine ⟨fun z hsub => ?_, fun y hy hout => ?_⟩
    · by_contra hout
      exact hs.fresh_last hd z x (hfresh z (hsub.subset mem_cons_self) hout) hsub
    · by_contra hno
      rw [not_or] at hno
      rcases pair_sublist_or hx hy (Ne.symm hno.1) with hsub | hsub
      · exact hno.2 hsub
      · exact hs.fresh_last hd y x (hfresh y hy hout) hsub
  · obtain ⟨tail, hw⟩ : ∃ tail, s.writes = x :: tail := by
      cases hw : s.writes with
      | nil => rw [hw] at hx; cases hx
      | cons y tail =>
          rw [hw] at hhead
          exact ⟨tail, by rw [Option.some.inj hhead]⟩
    have hnodup : s.writes.Nodup := hs.wf.list_nodup _
    rw [hw] at hnodup ⊢
    refine ⟨fun z hsub => ?_, fun y hy _ => ?_⟩
    · have hmem : x ∈ tail := by
        rcases cons_sublist_cons'.mp hsub with hsub | ⟨-, hsub⟩
        · exact hsub.subset (mem_cons_of_mem _ mem_cons_self)
        · exact hsub.subset mem_cons_self
      exact absurd hmem (nodup_cons.mp hnodup).1
    · rcases mem_cons.mp hy with rfl | hy
      · exact .inl rfl
      · exact .inr (List.Sublist.cons_cons x (singleton_sublist.mpr hy))

theorem Flow.closed_of_first (h : Flow s) (hs : Base s) {x : Nat} (hx : x ∈ s.writes)
    (hstack : x ∉ s.stack)
    (hbegun : (s.req x).begun = false)
    (hfirst : (s.pendingWriteRequest = false ∧ (s.req x).inUse = false) ∨
      (s.active = [] ∧ s.writes.head? = some x)) :
    ∀ y ∈ s.writes, opened s y = false := by
  intro y hy
  by_contra hopen
  rw [Bool.not_eq_false] at hopen
  have hout : y ∉ s.stack := fun hin => by
    rw [h.still y hy hin] at hopen
    cases hopen
  rcases (place_of_first hs h.destroying hx hstack hfirst).2 y hy hout with rfl | hsub
  · rw [opened_of_not_begun hbegun] at hopen
    cases hopen
  · exact hstack (h.first x y hsub hopen)

theorem Flow.accept (h : Flow s) {x : Nat} {req : CommEvUNIXWriteRequest} (hst : Steadfast s t)
    (hx : x ∉ s.writes) (hstack : x ∉ s.stack) (hbegun : req.begun = false)
    (hself : t.req x = req) (hother : ∀ y, y ≠ x → t.req y = s.req y)
    (hwrites : t.writes = s.writes ++ [x]) (hout : t.out = s.out)
    (hlog : t.log = s.log ++ [.accepted req]) : Flow t := by
  obtain ⟨rest, heq, hrest⟩ := h.rest
  have hnew : opened t x = false := opened_of_not_begun (by rw [hself, hbegun])
  have hold : ∀ y, y ≠ x → opened t y = opened s y := fun y hy => by
    rw [opened, opened, hother y hy]
  have hne : ∀ y, opened t y = true → y ≠ x := fun y hy heq => by
    rw [heq, hnew] at hy
    cases hy
  have hmem : ∀ y ∈ t.writes, y ≠ x → y ∈ s.writes := fun y hy hyx => by
    rw [hwrites] at hy
    simpa [hyx] using hy
  have hstackT : t.stack = s.stack := by rw [stack, hst.active]
  refine ⟨hst.connected.trans h.connected, hst.destroying.trans h.destroying, ⟨rest, ?_, ?_⟩,
    fun y hy z hz hy' hz' => ?_, fun z y hsub hopen => ?_, fun y hy hin => ?_⟩
  · rw [hout, hlog, frames_append, heq]
    simp [frames, frameOf, stream]
  · rcases hrest with ⟨hnil, hno⟩ | ⟨y, hy, hopen, hdrop⟩
    · refine .inl ⟨hnil, fun y hy => ?_⟩
      by_cases hyx : y = x
      · rw [hyx, hnew]
      · rw [hold y hyx]
        exact hno y (hmem y hy hyx)
    · have hyx : y ≠ x := fun heq => hx (heq ▸ hy)
      exact .inr ⟨y, hwrites ▸ mem_append_left _ hy, (hold y hyx).trans hopen,
        by rw [hother y hyx, hdrop]⟩
  · have hyx := hne y hy'
    have hzx := hne z hz'
    rw [hold y hyx] at hy'
    rw [hold z hzx] at hz'
    exact h.uniq y (hmem y hy hyx) z (hmem z hz hzx) hy' hz'
  · have hyx := hne y hopen
    rw [hwrites] at hsub
    rw [hold y hyx] at hopen
    rw [hstackT]
    exact h.first z y (pair_sublist_concat hsub hyx) hopen
  · rw [hstackT] at hin
    have hyx : y ≠ x := fun heq => hstack (heq ▸ hin)
    rw [hold y hyx]
    exact h.still y (hmem y hy hyx) hin

theorem Flow.header (h : Flow s) (hs : Base s) {x : Nat} (hst : Steadfast s t) (hx : x ∈ s.writes)
    (hstack : x ∉ s.stack) (hseq : (s.req x).seqId = 0) (hoff : (s.req x).offset = 0)
    (hfirst : (s.pendingWriteRequest = false ∧ (s.req x).inUse = false) ∨
      (s.active = [] ∧ s.writes.head? = some x))
    (hself : t.req x = { s.req x with seqId := (s.req x).seqId + 1 })
    (hother : ∀ y, y ≠ x → t.req y = s.req y) (hwrites : t.writes = s.writes)
    (hout : t.out = s.out ++ (s.req x).header.encode)
    (hlog : t.log = s.log ++ [.header (s.req x)]) : Flow t := by
  obtain ⟨rest, heq, hrest⟩ := h.rest
  have hbegun : (s.req x).begun = false := by simp [CommEvUNIXWriteRequest.begun, hseq, hoff]
  have hnone := h.closed_of_first hs hx hstack hbegun hfirst
  have hplace := place_of_first hs h.destroying hx hstack hfirst
  rw [hrest.eq_nil hnone, append_nil] at heq
  have hbegunT : (t.req x).begun = true := by
    simp [CommEvUNIXWriteRequest.begun, hself, hseq]
  have hold : ∀ y, y ≠ x → y ∈ s.writes → opened t y = false := fun y hy hin => by
    rw [opened, hother y hy]
    exact hnone y hin
  have honly : ∀ y ∈ s.writes, opened t y = true → y = x := fun y hy hopen => by
    by_contra hyx
    rw [hold y hyx hy] at hopen
    cases hopen
  have hstackT : t.stack = s.stack := by rw [stack, hst.active]
  refine ⟨hst.connected.trans h.connected, hst.destroying.trans h.destroying,
    ⟨(s.req x).data, ?_, ?_⟩, fun y hy z hz hy' hz' => ?_, fun z y hsub hopen => ?_,
    fun y hy hin => ?_⟩
  · rw [hout, hlog, frames_append, stream_append, ← heq, append_assoc]
    simp [frames, frameOf, stream, WireFrame.bytes]
  · have hremain := (hs.formed x (.inl hx)).remain_eq
    by_cases hempty : (s.req x).data = []
    · refine .inl ⟨hempty, fun y hy => ?_⟩
      by_cases hyx : y = x
      · have hzero : (s.req x).remain = 0 := by simp [hremain, hempty, hoff]
        rw [hyx]
        simp [opened, hself, hzero]
      · exact hold y hyx (hwrites ▸ hy)
    · have hpos : 0 < (s.req x).data.length := length_pos_iff.mpr hempty
      refine .inr ⟨x, hwrites ▸ hx, ?_, ?_⟩
      · rw [opened, hbegunT, hself]
        simp only [Bool.true_and, decide_eq_true_eq, hremain, hoff]
        omega
      · simp [hself, hoff]
  · rw [hwrites] at hy hz
    rw [honly y hy hy', honly z hz hz']
  · rw [hwrites] at hsub
    rw [honly y (hsub.subset (mem_cons_of_mem _ mem_cons_self)) hopen] at hsub
    rw [hstackT]
    exact hplace.1 z hsub
  · rw [hstackT] at hin
    exact hold y (fun heq => hstack (heq ▸ hin)) (hwrites ▸ hy)

theorem Flow.payload (h : Flow s) (hs : Base s) {x n : Nat} {bytes : List UInt8}
    (hst : Steadfast s t) (hx : x ∈ s.writes) (hstack : x ∉ s.stack)
    (hbegun : (s.req x).begun = true)
    (hn : (n : Int) ≤ (s.req x).remain) (hpos : 0 < n)
    (hbytes : bytes = ((s.req x).data.drop (s.req x).offset).take n)
    (hself : t.req x =
      { s.req x with
        offset := (s.req x).offset + n
        remain := (s.req x).remain - n
        seqId := (s.req x).seqId + 1 })
    (hother : ∀ y, y ≠ x → t.req y = s.req y) (hwrites : t.writes = s.writes)
    (hout : t.out = s.out ++ bytes)
    (hlog : t.log = s.log ++ [.payload (s.req x).serial bytes]) : Flow t := by
  obtain ⟨rest, heq, hrest⟩ := h.rest
  have hopenX : opened s x = true := by
    simp only [opened, hbegun, Bool.true_and, decide_eq_true_eq]
    omega
  have hold : ∀ y, y ≠ x → opened t y = opened s y := fun y hy => by
    rw [opened, opened, hother y hy]
  have honly : ∀ y ∈ s.writes, opened t y = true → y = x := fun y hy hopen => by
    by_contra hyx
    rw [hold y hyx] at hopen
    exact hyx (h.uniq y hy x hx hopen hopenX)
  have hrestX : rest = (s.req x).data.drop (s.req x).offset := by
    rcases hrest with ⟨-, hno⟩ | ⟨y, hy, hopen, hdrop⟩
    · rw [hno x hx] at hopenX
      cases hopenX
    · rw [hdrop, h.uniq y hy x hx hopen hopenX]
  have hstackT : t.stack = s.stack := by rw [stack, hst.active]
  refine ⟨hst.connected.trans h.connected, hst.destroying.trans h.destroying,
    ⟨(s.req x).data.drop ((s.req x).offset + n), ?_, ?_⟩, fun y hy z hz hy' hz' => ?_,
    fun z y hsub hopen => ?_, fun y hy hin => ?_⟩
  · rw [hout, hlog, frames_append, stream_append, ← heq, hrestX, hbytes, append_assoc]
    rw [← drop_drop, take_append_drop]
    simp [frames, frameOf, stream]
  · have hremain := (hs.formed x (.inl hx)).remain_eq
    have hbegunT : (t.req x).begun = true := by
      simp only [CommEvUNIXWriteRequest.begun, hself, Bool.or_eq_true, decide_eq_true_eq]
      exact .inr (by omega)
    by_cases hlast : (s.req x).remain = n
    · refine .inl ⟨drop_eq_nil_of_le (by omega), fun y hy => ?_⟩
      by_contra hopen
      rw [Bool.not_eq_false] at hopen
      have hyx := honly y (hwrites ▸ hy) hopen
      rw [hyx, opened, hself] at hopen
      simp [hlast] at hopen
    · refine .inr ⟨x, hwrites ▸ hx, ?_, ?_⟩
      · rw [opened, hbegunT, hself]
        simp only [Bool.true_and, decide_eq_true_eq]
        omega
      · simp [hself]
  · rw [hwrites] at hy hz
    rw [honly y hy hy', honly z hz hz']
  · rw [hwrites] at hsub
    rw [honly y (hsub.subset (mem_cons_of_mem _ mem_cons_self)) hopen] at hsub
    rw [hstackT]
    exact h.first z x hsub hopenX
  · rw [hstackT] at hin
    have hyx : y ≠ x := fun heq => hstack (heq ▸ hin)
    rw [hold y hyx]
    exact h.still y (hwrites ▸ hy) hin

theorem Flow.ackHeader (h : Flow s) {reqId : Int32} (hst : Steadfast s t)
    (hpool : t.reqMemSlot = s.reqMemSlot) (hmid : s.midFrame = false)
    (hout : t.out = s.out ++ (Unix.ackHeader reqId.toInt).encode)
    (hlog : t.log = s.log ++ [.ackHeader reqId s.midFrame]) : Flow t := by
  obtain ⟨rest, heq, hrest⟩ := h.rest
  have hnone : ∀ x ∈ s.writes, opened s x = false := by
    simpa [midFrame, opened] using hmid
  have hopened : ∀ x, opened t x = opened s x := fun x => by
    rw [opened, opened, req, req, hpool]
  have hwrites : t.writes = s.writes := by rw [writes, hpool]
  rw [hrest.eq_nil hnone, append_nil] at heq
  refine ⟨hst.connected.trans h.connected, hst.destroying.trans h.destroying, ⟨[], ?_, ?_⟩,
    fun y hy z hz hy' hz' => ?_, fun z y hsub hopen => ?_, fun y hy hin => ?_⟩
  · rw [hout, hlog, frames_append, stream_append, heq, append_nil]
    simp [frames, frameOf, stream, WireFrame.bytes]
  · refine .inl ⟨rfl, fun x hx => ?_⟩
    rw [hopened x]
    exact hnone x (hwrites ▸ hx)
  · rw [hopened, hnone y (hwrites ▸ hy)] at hy'
    cases hy'
  · rw [hopened, hnone y (hwrites ▸ hsub.subset (mem_cons_of_mem _ mem_cons_self))] at hopen
    cases hopen
  · rw [hopened]
    exact hnone y (hwrites ▸ hy)

end Flow

section Sequence

variable {s t : CommEvUNIXClient}

theorem Sequence.aside (h : Sequence s) (ht : Aside s t) : Sequence t := by
  obtain ⟨l, hlog, hl⟩ := ht.log
  have hheaders : headers t.log = headers s.log := by
    rw [hlog, headers_append, headers_of_silent hl, append_nil]
  have haccepts : accepts t.log = accepts s.log := by
    rw [hlog, accepts_append, accepts_of_silent hl, append_nil]
  have hgrow : ∀ o ∈ s.log, o ∈ t.log := fun o ho => hlog ▸ mem_append_left _ ho
  have hserial : ∀ x ∈ t.writes, (t.req x).serial = (s.req x).serial := fun x hx =>
    serial_of_letter (letter_of_key (ht.kept x hx))
  have hbegun : ∀ x ∈ t.writes, (t.req x).begun = (s.req x).begun := fun x hx =>
    begun_of_key (ht.kept x hx)
  refine ⟨haccepts ▸ h.numbered, by rw [haccepts, ht.created]; exact h.known, ?_,
    hheaders ▸ h.increasing, fun r hr x hx hout hno => ?_, fun x hx hb => ?_, fun x hx hin => ?_,
    fun x hx => ?_, by rw [hheaders, haccepts]; exact h.faithful, fun r hr => ?_,
    hheaders ▸ h.fits⟩
  · refine (h.sorted.sublist ht.writes).imp_of_mem fun hx hy hlt => ?_
    rw [hserial _ hx, hserial _ hy]
    exact hlt
  · rw [hheaders] at hr
    rw [hbegun x hx] at hno
    rw [hserial x hx]
    exact h.behind r hr x (ht.writes.subset hx) (fun hin => hout (ht.stack x hx hin)) hno
  · rw [hbegun x hx] at hb
    rw [hheaders, hserial x hx]
    exact h.begun x (ht.writes.subset hx) hb
  · rw [hbegun x hx, hserial x hx]
    rcases ht.pushed x hx hin with hin | ⟨-, hb⟩
    · exact (h.spent x (ht.writes.subset hx) hin).imp_right (hgrow _)
    · exact hb
  · rw [haccepts, letter_of_key (ht.kept x hx)]
    exact h.owner x (ht.writes.subset hx)
  · rw [haccepts] at hr
    rw [hheaders]
    rcases h.sent r hr with hsent | ⟨x, hx, hrx, hno⟩ | hdrop
    · exact .inl hsent
    · by_cases hx' : x ∈ t.writes
      · exact .inr (.inl ⟨x, hx', (hserial x hx').trans hrx, (hbegun x hx').trans hno⟩)
      · rcases h.spent x hx (ht.gone x hx hx') with hb | hdrop
        · rw [hb] at hno
          cases hno
        · exact .inr (.inr (hgrow _ (hrx ▸ hdrop)))
    · exact .inr (.inr (hgrow _ hdrop))

theorem Sequence.accept (h : Sequence s) (hs : Base s) {x : Nat} {req : CommEvUNIXWriteRequest}
    (hst : Steadfast s t) (hx : x ∉ s.writes) (hstack : x ∉ s.stack)
    (hserial : req.serial = s.created) (hbegun : req.begun = false) (hself : t.req x = req)
    (hother : ∀ y, y ≠ x → t.req y = s.req y) (hwrites : t.writes = s.writes ++ [x])
    (hcreated : t.created = s.created + 1)
    (hlog : t.log = s.log ++ [.accepted req]) : Sequence t := by
  have hheaders : headers t.log = headers s.log := by
    rw [hlog, headers_append]
    simp [headers, headerOf]
  have haccepts : accepts t.log = accepts s.log ++ [req] := by
    rw [hlog, accepts_append]
    rfl
  have hgrow : ∀ o ∈ s.log, o ∈ t.log := fun o ho => hlog ▸ mem_append_left _ ho
  have hstackT : t.stack = s.stack := by rw [stack, hst.active]
  have hne : ∀ y ∈ s.writes, y ≠ x := fun y hy heq => hx (heq ▸ hy)
  have hmem : ∀ y ∈ t.writes, y = x ∨ (y ≠ x ∧ y ∈ s.writes) := fun y hy => by
    rw [hwrites, mem_append, mem_singleton] at hy
    exact hy.symm.imp_right fun hy => ⟨hne y hy, hy⟩
  have hheaderLt : ∀ r ∈ headers s.log, r.serial < s.created := fun r hr => by
    obtain ⟨r₀, hr₀, heq⟩ := h.faithful r hr
    exact serial_of_letter heq ▸ h.known r₀ hr₀
  refine ⟨?_, fun r hr => ?_, ?_, hheaders ▸ h.increasing, fun r hr y hy hout hno => ?_,
    fun y hy hb => ?_, fun y hy hin => ?_, fun y hy => ?_, fun r hr => ?_, fun r hr => ?_,
    hheaders ▸ h.fits⟩
  · rw [haccepts, pairwise_append]
    refine ⟨h.numbered, pairwise_singleton _ _, fun r hr r' hr' => ?_⟩
    rw [mem_singleton.mp hr', hserial]
    exact h.known r hr
  · rw [haccepts, mem_append, mem_singleton] at hr
    rw [hcreated]
    rcases hr with hr | rfl
    · exact Nat.lt_succ_of_lt (h.known r hr)
    · exact hserial ▸ Nat.lt_succ_self _
  · rw [hwrites, pairwise_append]
    refine ⟨h.sorted.imp_of_mem fun hy hz hlt => ?_, pairwise_singleton _ _,
      fun y hy z hz => ?_⟩
    · rw [hother _ (hne _ hy), hother _ (hne _ hz)]
      exact hlt
    · rw [mem_singleton.mp hz, hself, hother y (hne y hy), hserial]
      exact (hs.formed y (.inl hy)).serial_lt
  · rw [hheaders] at hr
    rw [hstackT] at hout
    rcases hmem y hy with rfl | ⟨hyx, hy⟩
    · rw [hself, hserial]
      exact hheaderLt r hr
    · rw [hother y hyx] at hno ⊢
      exact h.behind r hr y hy hout hno
  · rw [hheaders]
    rcases hmem y hy with rfl | ⟨hyx, hy⟩
    · rw [hself, hbegun] at hb
      cases hb
    · rw [hother y hyx] at hb ⊢
      exact h.begun y hy hb
  · rw [hstackT] at hin
    have hyx : y ≠ x := fun heq => hstack (heq ▸ hin)
    have hy := ((hmem y hy).resolve_left hyx).2
    rw [hother y hyx]
    exact (h.spent y hy hin).imp_right (hgrow _)
  · rw [haccepts]
    rcases hmem y hy with rfl | ⟨hyx, hy⟩
    · exact ⟨req, by simp, by rw [hself]⟩
    · rw [hother y hyx]
      obtain ⟨r, hr, heq⟩ := h.owner y hy
      exact ⟨r, mem_append_left _ hr, heq⟩
  · rw [hheaders] at hr
    rw [haccepts]
    obtain ⟨r₀, hr₀, heq⟩ := h.faithful r hr
    exact ⟨r₀, mem_append_left _ hr₀, heq⟩
  · rw [haccepts, mem_append, mem_singleton] at hr
    rw [hheaders]
    rcases hr with hr | rfl
    · rcases h.sent r hr with hsent | ⟨y, hy, hry, hno⟩ | hdrop
      · exact .inl hsent
      · refine .inr (.inl ⟨y, hwrites ▸ mem_append_left _ hy, ?_, ?_⟩)
        · rw [hother y (hne y hy), hry]
        · rw [hother y (hne y hy), hno]
      · exact .inr (.inr (hgrow _ hdrop))
    · exact .inr (.inl ⟨x, by simp [hwrites], by rw [hself], by rw [hself, hbegun]⟩)

theorem Sequence.header (h : Sequence s) (hs : Base s) (hd : s.destroying = false) {x : Nat}
    (hst : Steadfast s t) (hx : x ∈ s.writes)
    (hstack : x ∉ s.stack) (hseq : (s.req x).seqId = 0) (hoff : (s.req x).offset = 0)
    (hfirst : (s.pendingWriteRequest = false ∧ (s.req x).inUse = false) ∨
      (s.active = [] ∧ s.writes.head? = some x))
    (hself : t.req x = { s.req x with seqId := (s.req x).seqId + 1 })
    (hother : ∀ y, y ≠ x → t.req y = s.req y) (hwrites : t.writes = s.writes)
    (hcreated : t.created = s.created)
    (hlog : t.log = s.log ++ [.header (s.req x)]) : Sequence t := by
  have hbegun : (s.req x).begun = false := by simp [CommEvUNIXWriteRequest.begun, hseq, hoff]
  have hplace := place_of_first hs hd hx hstack hfirst
  have hheaders : headers t.log = headers s.log ++ [s.req x] := by
    rw [hlog, headers_append]
    rfl
  have haccepts : accepts t.log = accepts s.log := by
    rw [hlog, accepts_append]
    simp [accepts, acceptOf]
  have hgrow : ∀ o ∈ s.log, o ∈ t.log := fun o ho => hlog ▸ mem_append_left _ ho
  have hstackT : t.stack = s.stack := by rw [stack, hst.active]
  have hletter : ∀ y, letter (t.req y) = letter (s.req y) := fun y => by
    by_cases hyx : y = x
    · rw [hyx, hself]
      rfl
    · rw [hother y hyx]
  have hserial : ∀ y, (t.req y).serial = (s.req y).serial := fun y => serial_of_letter (hletter y)
  have hbefore : ∀ r ∈ headers s.log, r.serial < (s.req x).serial := fun r hr =>
    h.behind r hr x hx hstack hbegun
  refine ⟨haccepts ▸ h.numbered, by rw [haccepts, hcreated]; exact h.known, ?_, ?_,
    fun r hr y hy hout hno => ?_, fun y hy hb => ?_, fun y hy hin => ?_, fun y hy => ?_,
    fun r hr => ?_, fun r hr => ?_, fun r hr => ?_⟩
  · rw [hwrites]
    simpa only [hserial] using h.sorted
  · rw [hheaders, pairwise_append]
    refine ⟨h.increasing, pairwise_singleton _ _, fun r hr r' hr' => ?_⟩
    rw [mem_singleton.mp hr']
    exact hbefore r hr
  · rw [hheaders, mem_append, mem_singleton] at hr
    rw [hwrites] at hy
    rw [hstackT] at hout
    have hyx : y ≠ x := fun heq => by
      rw [heq, hself] at hno
      simp [CommEvUNIXWriteRequest.begun, hseq] at hno
    rw [hother y hyx] at hno ⊢
    rcases hr with hr | rfl
    · exact h.behind r hr y hy hout hno
    · have hsub := (hplace.2 y hy hout).resolve_left hyx
      exact pairwise_iff_forall_sublist.mp h.sorted hsub
  · rw [hheaders, hserial]
    by_cases hyx : y = x
    · exact ⟨s.req x, by simp, by rw [hyx]⟩
    · rw [hother y hyx] at hb
      obtain ⟨r, hr, heq⟩ := h.begun y (hwrites ▸ hy) hb
      exact ⟨r, mem_append_left _ hr, heq⟩
  · rw [hstackT] at hin
    have hyx : y ≠ x := fun heq => hstack (heq ▸ hin)
    rw [hother y hyx]
    exact (h.spent y (hwrites ▸ hy) hin).imp_right (hgrow _)
  · rw [haccepts, hletter]
    exact h.owner y (hwrites ▸ hy)
  · rw [hheaders, mem_append, mem_singleton] at hr
    rw [haccepts]
    rcases hr with hr | rfl
    · exact h.faithful r hr
    · exact h.owner x hx
  · rw [haccepts] at hr
    rw [hheaders]
    rcases h.sent r hr with ⟨r', hr', heq⟩ | ⟨y, hy, hry, hno⟩ | hdrop
    · exact .inl ⟨r', mem_append_left _ hr', heq⟩
    · by_cases hyx : y = x
      · exact .inl ⟨s.req x, by simp, hyx ▸ hry⟩
      · exact .inr (.inl ⟨y, hwrites ▸ hy, (hserial y).trans hry, by rw [hother y hyx, hno]⟩)
    · exact .inr (.inr (hgrow _ hdrop))
  · rw [hheaders, mem_append, mem_singleton] at hr
    rcases hr with hr | rfl
    · exact h.fits r hr
    · have hform := hs.formed x (.inl hx)
      exact ⟨by rw [hform.reqId_eq]; exact hs.bound x (.inr (.inl hx)), hform.length_le, hform.fds_le,
        hform.flags_eq⟩

theorem Sequence.same (h : Sequence s) (hactive : t.active = s.active)
    (hletter : ∀ y, letter (t.req y) = letter (s.req y))
    (hbegun : ∀ y ∈ s.writes, (t.req y).begun = (s.req y).begun) (hwrites : t.writes = s.writes)
    (hcreated : t.created = s.created) {o : Obs} (hlog : t.log = s.log ++ [o])
    (hheader : headerOf o = none) (haccept : acceptOf o = none) : Sequence t := by
  have hheaders : headers t.log = headers s.log := by
    rw [hlog, headers_append]
    simp [headers, hheader]
  have haccepts : accepts t.log = accepts s.log := by
    rw [hlog, accepts_append]
    simp [accepts, haccept]
  have hgrow : ∀ o ∈ s.log, o ∈ t.log := fun o ho => hlog ▸ mem_append_left _ ho
  have hstackT : t.stack = s.stack := by rw [stack, hactive]
  have hserial : ∀ y, (t.req y).serial = (s.req y).serial := fun y => serial_of_letter (hletter y)
  refine ⟨haccepts ▸ h.numbered, by rw [haccepts, hcreated]; exact h.known, ?_,
    hheaders ▸ h.increasing, fun r hr y hy hout hno => ?_, fun y hy hb => ?_, fun y hy hin => ?_,
    fun y hy => ?_, by rw [hheaders, haccepts]; exact h.faithful, fun r hr => ?_,
    hheaders ▸ h.fits⟩
  · rw [hwrites]
    simpa only [hserial] using h.sorted
  · rw [hwrites] at hy
    rw [hbegun y hy] at hno
    rw [hserial]
    exact h.behind r (hheaders ▸ hr) y hy (hstackT ▸ hout) hno
  · rw [hwrites] at hy
    rw [hbegun y hy] at hb
    rw [hheaders, hserial]
    exact h.begun y hy hb
  · rw [hwrites] at hy
    rw [hbegun y hy, hserial]
    exact (h.spent y hy (hstackT ▸ hin)).imp_right (hgrow _)
  · rw [haccepts, hletter]
    exact h.owner y (hwrites ▸ hy)
  · rw [haccepts] at hr
    rw [hheaders]
    rcases h.sent r hr with hsent | ⟨y, hy, hry, hno⟩ | hdrop
    · exact .inl hsent
    · exact .inr (.inl ⟨y, hwrites ▸ hy, (hserial y).trans hry, (hbegun y hy).trans hno⟩)
    · exact .inr (.inr (hgrow _ hdrop))

structure Ordered (c : CommEvUNIXClient) : Prop where
  flow : Flow c
  sequence : Sequence c

theorem Act.ordered (h : Act s t) (hs : Base s) (hlog : Smooth t.log) (ho : Ordered s) :
    Ordered t := by
  obtain ⟨hflow, hsequence⟩ := ho
  rcases h.aside_or_moves hs hflow.connected hflow.destroying hlog with ht | ht
  · exact ⟨hflow.aside ht, hsequence.aside ht⟩
  · cases ht with
    | accept x req hst hx hstack hserial hbegun hself hother hwrites hcreated hout heq =>
        exact ⟨hflow.accept hst hx hstack hbegun hself hother hwrites hout heq,
          hsequence.accept hs hst hx hstack hserial hbegun hself hother hwrites hcreated heq⟩
    | header x hst hx hstack hseq hfirst hself hother hwrites hcreated hout heq =>
        have hoff : (s.req x).offset = 0 := hlog.once (s.req x) (by simp [heq])
        exact ⟨hflow.header hs hst hx hstack hseq hoff hfirst hself hother hwrites hout heq,
          hsequence.header hs hflow.destroying hst hx hstack hseq hoff hfirst hself hother hwrites
            hcreated heq⟩
    | payload x n bytes hst hx hstack hbegun hn hpos hbytes hself hother hwrites hcreated hout heq =>
        refine ⟨hflow.payload hs hst hx hstack hbegun hn hpos hbytes hself hother hwrites hout heq,
          hsequence.same hst.active (fun y => ?_) (fun y hy => ?_) hwrites hcreated heq rfl rfl⟩
        · by_cases hyx : y = x
          · rw [hyx, hself]
            rfl
          · rw [hother y hyx]
        · by_cases hyx : y = x
          · rw [hyx, hbegun, hself]
            simp only [CommEvUNIXWriteRequest.begun, Bool.or_eq_true, decide_eq_true_eq]
            exact .inr (by omega)
          · rw [hother y hyx]
    | ackHeader reqId hst hpool hcreated hout heq =>
        have hmid : s.midFrame = false := by
          by_contra hno
          rw [Bool.not_eq_false] at hno
          exact hlog.whole reqId (by simp [heq, hno])
        have hreq : ∀ y, t.req y = s.req y := fun y => by
          rw [req, req, hpool]
        exact ⟨hflow.ackHeader hst hpool hmid hout heq,
          hsequence.same hst.active (fun y => by rw [hreq]) (fun y _ => by rw [hreq])
            (by rw [writes, hpool]) hcreated heq rfl rfl⟩

theorem Path.ordered (h : Path s t) (hs : Base s) (hlog : Smooth t.log) (ho : Ordered s) :
    Ordered t := by
  induction h with
  | refl => exact ho
  | step h rest ih =>
      exact ih (h.base hs) hlog (h.ordered hs (hlog.of_prefix rest.log_prefix) ho)

theorem Ordered.start (auto : Bool) : Ordered (Unix.start auto) := by
  have hnone : (Unix.start auto).writes = [] := by simp [Unix.start, writes, MemSlotBase.init]
  refine ⟨⟨rfl, rfl, ⟨[], rfl, .inl ⟨rfl, ?_⟩⟩, ?_, ?_, ?_⟩,
    ⟨.nil, (fun _ h => by cases h), ?_, .nil, (fun _ h => by cases h), ?_, ?_, ?_,
      (fun _ h => by cases h), (fun _ h => by cases h), (fun _ h => by cases h)⟩⟩ <;>
    simp [hnone]

theorem Sequence.headers_sublist (h : Sequence s) :
    ((headers s.log).map letter).Sublist ((accepts s.log).map letter) := by
  have hincreasing : ((headers s.log).map letter).Pairwise fun r r' => r.serial < r'.serial :=
    pairwise_map.mpr h.increasing
  have hnumbered : ((accepts s.log).map letter).Pairwise fun r r' => r.serial < r'.serial :=
    pairwise_map.mpr h.numbered
  have hnodup : ((headers s.log).map letter).Nodup :=
    hincreasing.imp fun hlt heq => by simp [heq] at hlt
  have hsub : (headers s.log).map letter ⊆ (accepts s.log).map letter := by
    intro r hr
    obtain ⟨r', hr', rfl⟩ := mem_map.mp hr
    obtain ⟨r₀, hr₀, heq⟩ := h.faithful r' hr'
    exact heq ▸ mem_map_of_mem hr₀
  have := Std.Asymm.mk (r := fun r r' : CommEvUNIXWriteRequest => r.serial < r'.serial)
    fun _ _ => Nat.lt_asymm
  exact sublist_of_subperm_of_pairwise (subperm_of_subset hnodup hsub) hincreasing
    hnumbered

end Sequence

end Unix
