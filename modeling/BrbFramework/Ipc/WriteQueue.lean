import BrbFramework.Lib.Logs
import BrbFramework.Lib.Runs
import Mathlib.Data.List.Nodup

/-!
# The write queue of an IPC parent

The parent of an IPC pair writes to its child from a queue. A write call puts a
request at the end and arms the write event. The event takes the request at the
head off the queue, and puts it back there when the kernel did not take all of
it. It goes on with the next request as long as that one fits what is left of
the window. A finish callback runs after the last byte of its request, and may
call the writer again.

What goes to the child and what becomes of a request is recorded in a log.
`run_delivers` says of every run what the log shows.
-/

namespace Ipc

open Handler Runs List

/-- `EvAIOReq`, as far as an IPC write uses it. `id` numbers the write calls. -/
structure EvAIOReq where
  id : Nat
  data : List UInt8
  offset : Nat := 0
  hasFinishCb : Bool
  deriving DecidableEq

/-- What `write` answers. -/
inductive WriteResult
  | wrote (n : Nat)
  | eintr
  | eagain
  | failed
  deriving DecidableEq

/-- A call of `EvIPCWriteStringFmt`, `EvIPCWriteMemBuffer` or `EvIPCWriteOffsetMemBuffer`, with the
bytes that it hands over. -/
structure WriteCall where
  data : List UInt8
  hasFinishCb : Bool

/-- The kernel, by the number of the `write` call, and the finish callbacks, by the request. -/
structure Env where
  write : Nat → WriteResult
  onFinish : Nat → List WriteCall

/-- What can be seen of the queue: a write call, bytes that the child gets of a request, a finish
callback with the size it is told, and a write that was put off or failed. -/
inductive Obs
  | asked (req : EvAIOReq)
  | wrote (id : Nat) (sent : List UInt8)
  | finished (id size : Nat)
  | putOff (id : Nat)
  | failed (id : Nat)
  deriving DecidableEq

/-- `EvIPCBase`, as far as its writer uses it. -/
structure EvIPCBase where
  writeQueue : List EvAIOReq := []
  writeEvent : Bool := false
  created : Nat := 0
  syscalls : Nat := 0
  log : List Obs := []

/-- What stops the process: the assertions of the queue. `stuck` is for a loop that has more
turns than its bound. -/
inductive Fault
  | emptyRequest
  | stuck
  deriving DecidableEq

abbrev M := EStateM Fault EvIPCBase

section Functions

variable (env : Env)

/-- `EvAIOReqQueueEnqueue`. -/
def enqueue (req : EvAIOReq) : M PUnit := do
  assertThat (!req.data.isEmpty) .emptyRequest
  modify fun s => { s with writeQueue := s.writeQueue ++ [req], log := s.log ++ [.asked req] }

/-- `EvAIOReqQueueEnqueueHead`. -/
def enqueueHead (req : EvAIOReq) : M PUnit := do
  assertThat (!req.data.isEmpty) .emptyRequest
  modify fun s => { s with writeQueue := req :: s.writeQueue }

/-- `EvAIOReqQueueDequeue`. -/
def dequeue : M (Option EvAIOReq) :=
  modifyGet fun s => (s.writeQueue.head?, { s with writeQueue := s.writeQueue.tail })

/-- `EvKQBaseSetEvent` for a volatile write event: `EvIPCKickConnWriteQueue`. -/
def kickConnWriteQueue : M PUnit := modify fun s => { s with writeEvent := true }

/-- `EvIPCEnqueueAndKickQueue`. -/
def enqueueAndKickQueue (req : EvAIOReq) : M PUnit := do
  enqueue req
  kickConnWriteQueue

def ipcWrite (call : WriteCall) : M PUnit := do
  let id := (← get).created
  modify fun s => { s with created := s.created + 1 }
  enqueueAndKickQueue { id, data := call.data, hasFinishCb := call.hasFinishCb }

def ipcWrites : List WriteCall → M PUnit
  | [] => return ⟨⟩
  | call :: calls => do
    ipcWrite call
    ipcWrites calls

def observe (o : Obs) : M PUnit := modify fun s => { s with log := s.log ++ [o] }

/-- The call of `write`. -/
def write : M WriteResult :=
  modifyGet fun s => (env.write s.syscalls, { s with syscalls := s.syscalls + 1 })

def finish (req : EvAIOReq) : M PUnit := do
  if req.hasFinishCb then
    observe (.finished req.id req.offset)
    ipcWrites (env.onFinish req.id)

/-- What follows a complete write; `again` is `write_again`. -/
def goOn (again : Nat → M Nat) (canWriteSz total : Nat) : M Nat := do
  match (← get).writeQueue with
  | [] => return total
  | next :: _ =>
    -- what was written fits the window, so the difference does not go below zero
    if next.data.length - next.offset ≤ canWriteSz - total then again total
    else
      kickConnWriteQueue
      return total

/-- `EvICPBaseEventWrite` from `write_again` on. -/
def eventWriteLoop (canWriteSz : Nat) : Nat → Nat → M Nat
  | 0, _ => throw .stuck
  | fuel + 1, total => do
    match ← dequeue with
    | none => return total
    | some req =>
      let wanted := req.data.length - req.offset
      match ← write env with
      | .eintr | .eagain =>
        enqueueHead req
        observe (.putOff req.id)
        kickConnWriteQueue
        return total
      | .failed =>
        enqueueHead req
        observe (.failed req.id)
        return total
      | .wrote n =>
        let wroteSz := min n (if canWriteSz < wanted then canWriteSz else wanted)
        observe (.wrote req.id ((req.data.drop req.offset).take wroteSz))
        let req := { req with offset := req.offset + wroteSz }
        let total := total + wroteSz
        if req.offset ≥ req.data.length then
          finish env req
          goOn (eventWriteLoop canWriteSz fuel) canWriteSz total
        else
          enqueueHead req
          kickConnWriteQueue
          return total

/-- `EvICPBaseEventWrite`. A turn of its loop uses up at least one byte of the window. -/
def eventWrite (canWriteSz : Nat) : M Nat := eventWriteLoop env canWriteSz (canWriteSz + 1) 0

/-- What the program and the event loop do with the base. -/
inductive Event
  | call (call : WriteCall)
  | write (canWriteSz : Nat)

def handle : Event → M PUnit
  | .call call => ipcWrite call
  | .write canWriteSz => do
    -- the event is volatile
    if (← get).writeEvent then
      modify fun s => { s with writeEvent := false }
      let _ ← eventWrite env canWriteSz

end Functions

abbrev Config := Runs.Config Fault EvIPCBase

/-- A base with an empty queue, and the events after that. -/
def runFrom (env : Env) (evs : List Event) : Config := run (handle env) (.live {}) evs

/-! ## What the log shows -/

/-- The requests, in the order of the write calls. -/
def asked (log : List Obs) : List EvAIOReq :=
  log.filterMap fun
    | .asked req => some req
    | _ => none

def written (log : List Obs) : List UInt8 :=
  log.flatMap fun
    | .wrote _ sent => sent
    | _ => []

def finishedIds (log : List Obs) : List Nat :=
  log.filterMap fun
    | .finished id _ => some id
    | _ => none

def stream (reqs : List EvAIOReq) : List UInt8 := reqs.flatMap EvAIOReq.data

/-- The requests that `n` bytes are enough for. -/
def complete : Nat → List EvAIOReq → List EvAIOReq
  | _, [] => []
  | n, req :: reqs =>
    if req.data.length ≤ n then req :: complete (n - req.data.length) reqs else []

/-- When a callback runs, the last thing that happened is the write of the last byte of its
request. -/
def RightAfter (log : List Obs) : Prop :=
  ∀ past id size later, log = past ++ .finished id size :: later →
    ∃ front sent reqs req rest, past = front ++ [.wrote id sent] ∧ sent ≠ [] ∧
      asked past = reqs ++ req :: rest ∧ req.id = id ∧ size = req.data.length ∧
      written past = stream reqs ++ req.data

/-- The child gets the start of what was asked for. The callbacks that ran are those of the
requests that it has got all of, in their order, and each ran in its time. -/
structure Delivered (log : List Obs) : Prop where
  start : written log <+: stream (asked log)
  distinct : ((asked log).map EvAIOReq.id).Nodup
  once : finishedIds log =
    ((complete (written log).length (asked log)).filter EvAIOReq.hasFinishCb).map EvAIOReq.id
  rightAfter : RightAfter log

/-- If requests wait and no write event is armed, the last thing that happened is that a write
failed. -/
def Awake (s : EvIPCBase) : Prop :=
  s.writeQueue ≠ [] → s.writeEvent = false → ∃ id, s.log.getLast? = some (.failed id)

section Log

variable {log l : List Obs} {o : Obs}

@[simp] theorem asked_append : asked (log ++ l) = asked log ++ asked l := filterMap_append

@[simp] theorem written_append : written (log ++ l) = written log ++ written l :=
  flatMap_append

@[simp] theorem finishedIds_append : finishedIds (log ++ l) = finishedIds log ++ finishedIds l :=
  filterMap_append

@[simp] theorem stream_append {reqs reqs' : List EvAIOReq} :
    stream (reqs ++ reqs') = stream reqs ++ stream reqs' := flatMap_append

theorem complete_append (done queue : List EvAIOReq) (k : Nat) :
    complete ((stream done).length + k) (done ++ queue) = done ++ complete k queue := by
  induction done with
  | nil => rw [stream, flatMap_nil, length_nil, Nat.zero_add]; rfl
  | cons req done ih =>
      have hlen : (stream (req :: done)).length = req.data.length + (stream done).length := by
        rw [stream, flatMap_cons, length_append]
        rfl
      have hrest : req.data.length + (stream done).length + k - req.data.length =
          (stream done).length + k := by omega
      rw [cons_append, complete, hlen, if_pos (by omega), hrest, ih]
      rfl

theorem RightAfter.concat (h : RightAfter log) (ho : ∀ id size, o ≠ .finished id size) :
    RightAfter (log ++ [o]) := by
  intro past id size later heq
  rcases Logs.eq_append_of_concat heq with ⟨-, rfl, -⟩ | ⟨later', rfl, hlog⟩
  · exact absurd rfl (ho id size)
  · exact h past id size later' hlog

end Log

def EvAIOReq.fresh (req : EvAIOReq) : EvAIOReq := { req with offset := 0 }

/-- The part of the head that was written already. -/
def headWritten : List EvAIOReq → List UInt8
  | [] => []
  | req :: _ => req.data.take req.offset

/-- The head is not complete, and of the others nothing is written. -/
def Waiting : List EvAIOReq → Prop
  | [] => True
  | req :: queue => req.offset < req.data.length ∧ ∀ r ∈ queue, r.offset = 0 ∧ r.data ≠ []

/-- What the log and the queue have to do with each other, when `done` are the requests that left
the queue and `created` is the number of the next. -/
structure Books (log : List Obs) (queue : List EvAIOReq) (created : Nat) (done : List EvAIOReq) :
    Prop where
  asked_eq : asked log = done ++ queue.map EvAIOReq.fresh
  written_eq : written log = stream done ++ headWritten queue
  finished_eq : finishedIds log = (done.filter EvAIOReq.hasFinishCb).map EvAIOReq.id
  waiting : Waiting queue
  distinct : ((asked log).map EvAIOReq.id).Nodup
  numbered : ∀ req ∈ asked log, req.id < created
  rightAfter : RightAfter log

section Books

variable {log : List Obs} {queue done : List EvAIOReq} {req : EvAIOReq} {created : Nat}

theorem books_nil : Books [] [] 0 [] where
  asked_eq := rfl
  written_eq := rfl
  finished_eq := rfl
  waiting := trivial
  distinct := nodup_nil
  numbered := by nofun
  rightAfter := by
    intro past id size later heq
    simp at heq

theorem headWritten_isPrefix (queue : List EvAIOReq) :
    headWritten queue <+: stream (queue.map EvAIOReq.fresh) := by
  cases queue with
  | nil => exact prefix_refl _
  | cons req queue => exact ( take_prefix _ _).trans (prefix_append _ _)

theorem Waiting.complete (h : Waiting queue) :
    complete (headWritten queue).length (queue.map EvAIOReq.fresh) = [] := by
  cases queue with
  | nil => rfl
  | cons req queue =>
      have hlen : (headWritten (req :: queue)).length = req.offset :=
        length_take_of_le (by have := h.1; omega)
      rw [hlen, map_cons, Ipc.complete, if_neg]
      exact Nat.not_le.mpr h.1

theorem Books.delivered (h : Books log queue created done) : Delivered log where
  start := by
    rw [h.written_eq, h.asked_eq, stream_append]
    exact (prefix_append_right_inj _).mpr (headWritten_isPrefix queue)
  distinct := h.distinct
  once := by
    rw [h.written_eq, h.asked_eq, length_append, complete_append, h.waiting.complete,
      append_nil]
    exact h.finished_eq
  rightAfter := h.rightAfter

theorem Books.asked (h : Books log queue created done) {data : List UInt8} (hdata : data ≠ [])
    (hasFinishCb : Bool) :
    Books (log ++ [.asked ⟨created, data, 0, hasFinishCb⟩])
      (queue ++ [⟨created, data, 0, hasFinishCb⟩]) (created + 1) done := by
  have hasked : Ipc.asked (log ++ [.asked ⟨created, data, 0, hasFinishCb⟩]) =
      Ipc.asked log ++ [⟨created, data, 0, hasFinishCb⟩] := asked_append
  have hpos : 0 < data.length := length_pos_iff.mpr hdata
  constructor
  · rw [hasked, h.asked_eq, map_append, append_assoc]
    rfl
  · have hhead : headWritten (queue ++ [⟨created, data, 0, hasFinishCb⟩]) = headWritten queue := by
      cases queue with
      | nil => rfl
      | cons req queue => rfl
    rw [hhead, written_append, h.written_eq]
    simp [written]
  · rw [finishedIds_append, h.finished_eq]
    simp [finishedIds]
  · have hwaiting := h.waiting
    cases queue with
    | nil => exact ⟨hpos, by nofun⟩
    | cons req queue =>
        refine ⟨hwaiting.1, fun r hr => ?_⟩
        rcases mem_append.mp hr with hr | hr
        · exact hwaiting.2 r hr
        · rw [mem_singleton.mp hr]
          exact ⟨rfl, hdata⟩
  · rw [hasked, map_append, nodup_append]
    refine ⟨h.distinct, nodup_singleton _, fun i hi j hj => ?_⟩
    obtain ⟨req, hreq, rfl⟩ := mem_map.mp hi
    rw [mem_singleton.mp hj]
    exact Nat.ne_of_lt (h.numbered req hreq)
  · intro req hreq
    rw [hasked] at hreq
    rcases mem_append.mp hreq with hreq | hreq
    · have hlt := h.numbered req hreq
      omega
    · rw [mem_singleton.mp hreq]
      exact Nat.lt_succ_self created
  · exact h.rightAfter.concat (by nofun)

theorem Books.note (h : Books log queue created done) {o : Obs} (ho : Ipc.asked [o] = [])
    (hw : written [o] = []) (hf : finishedIds [o] = []) :
    Books (log ++ [o]) queue created done := by
  have hasked : Ipc.asked (log ++ [o]) = Ipc.asked log := by
    rw [asked_append, ho, append_nil]
  constructor
  · rw [hasked]
    exact h.asked_eq
  · rw [written_append, hw, append_nil]
    exact h.written_eq
  · rw [finishedIds_append, hf, append_nil]
    exact h.finished_eq
  · exact h.waiting
  · rw [hasked]
    exact h.distinct
  · rw [hasked]
    exact h.numbered
  · apply h.rightAfter.concat
    rintro id size rfl
    cases hf

theorem Books.written_wrote (h : Books log (req :: queue) created done) (n : Nat) :
    written (log ++ [.wrote req.id ((req.data.drop req.offset).take n)]) =
      stream done ++ req.data.take (req.offset + n) := by
  have hwrote : written [.wrote req.id ((req.data.drop req.offset).take n)] =
      (req.data.drop req.offset).take n := append_nil _
  rw [written_append, h.written_eq, hwrote, headWritten, append_assoc, List.take_add]

theorem Books.asked_wrote (h : Books log (req :: queue) created done) (sent : List UInt8) :
    Ipc.asked (log ++ [.wrote req.id sent]) = done ++ req.fresh :: queue.map EvAIOReq.fresh := by
  rw [asked_append, h.asked_eq]
  exact append_nil _

theorem Books.wrote (h : Books log (req :: queue) created done) {n : Nat}
    (hn : req.offset + n < req.data.length) :
    Books (log ++ [.wrote req.id ((req.data.drop req.offset).take n)])
      ({ req with offset := req.offset + n } :: queue) created done := by
  have hsame := (h.asked_wrote ((req.data.drop req.offset).take n)).trans h.asked_eq.symm
  constructor
  · exact h.asked_wrote _
  · exact h.written_wrote n
  · rw [finishedIds_append, h.finished_eq]
    exact append_nil _
  · exact ⟨hn, h.waiting.2⟩
  · rw [hsame]
    exact h.distinct
  · rw [hsame]
    exact h.numbered
  · exact h.rightAfter.concat (by nofun)

def noteOf (req : EvAIOReq) : List Obs :=
  if req.hasFinishCb then [.finished req.id req.data.length] else []

theorem asked_noteOf (req : EvAIOReq) : Ipc.asked (noteOf req) = [] := by
  unfold noteOf
  split <;> rfl

theorem written_noteOf (req : EvAIOReq) : written (noteOf req) = [] := by
  unfold noteOf
  split <;> rfl

theorem finishedIds_noteOf (req : EvAIOReq) :
    finishedIds (noteOf req) = ([req.fresh].filter EvAIOReq.hasFinishCb).map EvAIOReq.id := by
  unfold noteOf
  cases hcb : req.hasFinishCb with
  | true => simp [finishedIds, EvAIOReq.fresh, hcb]
  | false => simp [finishedIds, EvAIOReq.fresh, hcb]

theorem Books.completed (h : Books log (req :: queue) created done) {n : Nat}
    (hn : req.offset + n = req.data.length) :
    Books (log ++ [.wrote req.id ((req.data.drop req.offset).take n)] ++ noteOf req) queue created
      (done ++ [req.fresh]) := by
  obtain ⟨sent, hsent⟩ : ∃ sent, sent = (req.data.drop req.offset).take n := ⟨_, rfl⟩
  have hwritten := h.written_wrote n
  rw [hn, take_length, ← hsent] at hwritten
  have hasked : Ipc.asked (log ++ [.wrote req.id sent] ++ noteOf req) = Ipc.asked log := by
    rw [asked_append, asked_noteOf, append_nil, h.asked_wrote, h.asked_eq]
    rfl
  have hhead : headWritten queue = [] := by
    cases queue with
    | nil => rfl
    | cons r queue => rw [headWritten, (h.waiting.2 r mem_cons_self).1, take_zero]
  rw [← hsent]
  constructor
  · rw [hasked, h.asked_eq, append_assoc]
    rfl
  · rw [written_append, written_noteOf, append_nil, hwritten, hhead, append_nil,
      stream_append]
    simp [stream, EvAIOReq.fresh]
  · rw [finishedIds_append, finishedIds_append, h.finished_eq, finishedIds_noteOf,
      filter_append, map_append]
    exact congrArg (· ++ _) (append_nil _)
  · have hrest := h.waiting.2
    cases queue with
    | nil => trivial
    | cons r queue =>
        obtain ⟨hr, hothers⟩ := forall_mem_cons.mp hrest
        refine ⟨?_, hothers⟩
        rw [hr.1]
        exact length_pos_iff.mpr hr.2
  · rw [hasked]
    exact h.distinct
  · rw [hasked]
    exact h.numbered
  · have hbefore : RightAfter (log ++ [.wrote req.id sent]) := h.rightAfter.concat (by nofun)
    unfold noteOf
    split
    · intro past id size later heq
      rcases Logs.eq_append_of_concat heq with ⟨-, hlast, hlog⟩ | ⟨later', -, hlog⟩
      · obtain ⟨rfl, rfl⟩ := Obs.finished.inj hlast
        have hlt := h.waiting.1
        refine ⟨log, sent, done, req.fresh, queue.map EvAIOReq.fresh, hlog.symm, ?_, ?_, rfl, rfl,
          ?_⟩
        · rw [hsent]
          apply ne_nil_of_length_pos
          rw [length_take, length_drop]
          omega
        · rw [← hlog]
          exact h.asked_wrote sent
        · rw [← hlog]
          exact hwritten
      · exact hbefore past id size later' hlog
    · rw [append_nil]
      exact hbefore

end Books

/-! ## The operations -/

def Inv (s : EvIPCBase) : Prop := ∃ done, Books s.log s.writeQueue s.created done

section Operations

variable {env : Env} {s : EvIPCBase}

theorem ipcWrite_ends {call : WriteCall} (hdata : call.data ≠ []) (h : Inv s) :
    Ends (ipcWrite call) s (fun _ t => Inv t ∧ t.writeEvent = true) fun _ _ => False := by
  obtain ⟨done, hbooks⟩ := h
  have hne : call.data.isEmpty = false := by simpa using hdata
  simp only [ipcWrite, enqueueAndKickQueue, enqueue, kickConnWriteQueue, ends_bind, ends_get,
    ends_modify, ends_assertThat, hne, Bool.not_false, forall_true_left, reduceCtorEq,
    false_implies, and_true]
  exact ⟨done, hbooks.asked hdata call.hasFinishCb⟩

theorem ipcWrites_ends {calls : List WriteCall} (hdata : ∀ call ∈ calls, call.data ≠ [])
    (h : Inv s) :
    Ends (ipcWrites calls) s (fun _ t => Inv t ∧ (t.writeEvent = false → t = s))
      fun _ _ => False := by
  induction calls generalizing s with
  | nil => exact ⟨h, fun _ => rfl⟩
  | cons call calls ih =>
      obtain ⟨hcall, hrest⟩ := forall_mem_cons.mp hdata
      rw [ipcWrites, ends_bind]
      apply (ipcWrite_ends hcall h).imp
      intro _ t ht
      apply (ih hrest ht.1).imp
      intro _ u hu
      refine ⟨hu.1, fun hoff => ?_⟩
      rw [hu.2 hoff, ht.2] at hoff
      cases hoff

/-- What the callbacks of all requests write is not empty. -/
def Env.NonEmpty (env : Env) : Prop := ∀ id, ∀ call ∈ env.onFinish id, call.data ≠ []

theorem finish_ends (henv : env.NonEmpty) {req : EvAIOReq} {done : List EvAIOReq}
    (hall : req.offset = req.data.length)
    (h : Books (s.log ++ noteOf req) s.writeQueue s.created done) :
    Ends (finish env req) s (fun _ => Inv) fun _ _ => False := by
  unfold finish
  unfold noteOf at h
  split
  · rename_i hcb
    rw [if_pos hcb] at h
    simp only [observe, ends_bind, ends_modify, hall]
    apply (ipcWrites_ends (henv req.id) ⟨done, h⟩).imp
    intro _ t ht
    exact ht.1
  · rename_i hcb
    rw [if_neg hcb, append_nil] at h
    exact ⟨done, h⟩

theorem goOn_ends {again : Nat → M Nat} {canWriteSz total : Nat} (h : Inv s)
    (hagain : ∀ t, Inv t → total < canWriteSz →
      Ends (again total) t (fun _ t => Inv t ∧ Awake t) fun _ _ => False) :
    Ends (goOn again canWriteSz total) s (fun _ t => Inv t ∧ Awake t) fun _ _ => False := by
  simp only [goOn, ends_bind, ends_get]
  split
  · rename_i hempty
    exact ⟨h, fun hne => absurd hempty hne⟩
  · rename_i next queue hqueue
    split
    · rename_i hfits
      apply hagain s h
      obtain ⟨done, hbooks⟩ := h
      have hwaiting := hbooks.waiting
      rw [hqueue] at hwaiting
      have hlt := hwaiting.1
      omega
    · simp only [kickConnWriteQueue, ends_bind, ends_modify, ends_pure]
      exact ⟨h, fun _ hoff => by cases hoff⟩

theorem putOff_ends {req : EvAIOReq} {done : List EvAIOReq} {total : Nat}
    (hne : req.data.isEmpty = false) (h : Books s.log (req :: s.writeQueue) s.created done) :
    Ends (do
        enqueueHead req
        observe (.putOff req.id)
        kickConnWriteQueue
        return total) s (fun _ t => Inv t ∧ Awake t) fun _ _ => False := by
  simp only [enqueueHead, observe, kickConnWriteQueue, ends_bind, ends_assertThat, hne,
    Bool.not_false, forall_true_left, reduceCtorEq, false_implies, and_true, ends_modify,
    ends_pure]
  exact ⟨⟨done, h.note rfl rfl rfl⟩, fun _ hoff => by cases hoff⟩

/-- **The write event.** -/
theorem eventWriteLoop_ends (henv : env.NonEmpty) (canWriteSz fuel : Nat) {total : Nat}
    (hfuel : canWriteSz - total < fuel) (h : Inv s) :
    Ends (eventWriteLoop env canWriteSz fuel total) s (fun _ t => Inv t ∧ Awake t)
      fun _ _ => False := by
  induction fuel generalizing s total with
  | zero => omega
  | succ fuel ih =>
      obtain ⟨done, hbooks⟩ := h
      simp only [eventWriteLoop, dequeue, ends_bind, ends_modifyGet]
      cases hqueue : s.writeQueue with
      | nil =>
          rw [hqueue] at hbooks
          exact ⟨⟨done, hbooks⟩, fun hne => absurd rfl hne⟩
      | cons req queue =>
          rw [hqueue] at hbooks
          have hlt := hbooks.waiting.1
          have hne : req.data.isEmpty = false := by
            cases hdata : req.data with
            | nil => simp [hdata] at hlt
            | cons b data => rfl
          simp only [head?_cons, tail_cons, write, ends_bind, ends_modifyGet]
          cases env.write s.syscalls with
          | eintr => exact putOff_ends hne hbooks
          | eagain => exact putOff_ends hne hbooks
          | failed =>
              simp only [enqueueHead, observe, ends_bind, ends_assertThat, hne, Bool.not_false,
                forall_true_left, reduceCtorEq, false_implies, and_true, ends_modify, ends_pure]
              exact ⟨⟨done, hbooks.note rfl rfl rfl⟩, fun _ _ =>
                ⟨req.id, getLast?_concat⟩⟩
          | wrote n =>
              obtain ⟨k, hk⟩ : ∃ k, k = min n (if canWriteSz < req.data.length - req.offset
                then canWriteSz else req.data.length - req.offset) := ⟨_, rfl⟩
              have hle : k ≤ req.data.length - req.offset := by
                rw [hk]
                split <;> omega
              simp only [← hk, observe, ends_bind, ends_modify]
              split
              · rename_i hfull
                rw [ends_bind]
                have hall : req.offset + k = req.data.length := by omega
                have hcompleted : Books (s.log ++ [.wrote req.id
                    ((req.data.drop req.offset).take k)] ++
                    noteOf { req with offset := req.offset + k }) queue s.created
                    (done ++ [req.fresh]) := hbooks.completed hall
                apply Ends.imp (@finish_ends env _ henv _ _ hall hcompleted)
                intro _ t ht
                apply goOn_ends ht
                intro u hu hroom
                exact ih (by omega) hu
              · rename_i hpart
                simp only [enqueueHead, kickConnWriteQueue, ends_bind, ends_assertThat, hne,
                  Bool.not_false, forall_true_left, reduceCtorEq, false_implies, and_true,
                  ends_modify, ends_pure]
                exact ⟨⟨done, hbooks.wrote (by omega)⟩, fun _ hoff => by cases hoff⟩

end Operations

/-! ## Runs -/

/-- The bytes that an event hands over are not empty. -/
def Event.NonEmpty : Event → Prop
  | .call w => w.data ≠ []
  | .write _ => True

/-- **One event.** -/
theorem handle_ends {env : Env} (henv : env.NonEmpty) (e : Event) (s : EvIPCBase)
    (h : Inv s ∧ Awake s) (he : e.NonEmpty) :
    Ends (handle env e) s (fun _ t => Inv t ∧ Awake t) fun _ _ => False := by
  cases e with
  | call w =>
      have hdata : w.data ≠ [] := he
      apply (ipcWrite_ends hdata h.1).imp
      intro _ t ht
      exact ⟨ht.1, fun _ hoff => by rw [ht.2] at hoff; cases hoff⟩
  | write canWriteSz =>
      simp only [handle, ends_bind, ends_get]
      split
      · simp only [ends_bind, ends_modify]
        have hdisarmed : Inv { s with writeEvent := false } := h.1
        apply (eventWriteLoop_ends henv canWriteSz (canWriteSz + 1) (by omega) hdisarmed).imp
        intro _ t ht
        exact ht
      · exact h

/-- **The write queue.**  Where no write is empty, no assertion fails in any run. The child gets
the start of what was asked for, every finish callback runs once and right after the last byte of
its request, and a queue that is not empty has its write event armed unless the last thing that
happened is a fatal error. -/
theorem run_delivers {env : Env} (henv : env.NonEmpty) (evs : List Event)
    (hevs : ∀ e ∈ evs, e.NonEmpty) :
    Holds (fun s => Delivered s.log ∧ Awake s) (fun _ _ => False) (runFrom env evs) := by
  have hrun : Holds (fun s => Inv s ∧ Awake s) (fun _ _ => False) (runFrom env evs) := by
    apply invariant_run_of (P := fun _ e => Event.NonEmpty e) _ _ evs (meets_of_forall hevs)
    · exact handle_ends henv
    · exact ⟨⟨[], books_nil⟩, fun hne => absurd rfl hne⟩
  apply hrun.imp
  intro s hs
  obtain ⟨⟨done, hbooks⟩, hawake⟩ := hs
  exact ⟨hbooks.delivered, hawake⟩

/-- Two requests. The kernel takes half of the first, then nothing, then all of what is left. -/
def halfThenRest : Env where
  write
    | 0 => .wrote 1
    | 1 => .eagain
    | _ => .wrote 9
  onFinish
    | 0 => [⟨[4], false⟩]
    | _ => []

def twoCalls : List Event :=
  [.call ⟨[1, 2], true⟩, .call ⟨[3], true⟩, .write 8, .write 8, .write 8]

theorem twoCalls_delivered :
    Holds (fun s => Delivered s.log ∧ Awake s) (fun _ _ => False)
      (runFrom halfThenRest twoCalls) := by
  apply run_delivers
  · intro id w hw
    match id with
    | 0 =>
        rw [mem_singleton.mp hw]
        decide
    | _ + 1 => cases hw
  · intro e he
    simp only [twoCalls, mem_cons, not_mem_nil, or_false] at he
    rcases he with rfl | rfl | rfl | rfl | rfl
    · exact cons_ne_nil _ _
    · exact cons_ne_nil _ _
    · trivial
    · trivial
    · trivial

example : Holds (fun s => written s.log = [1, 2, 3, 4] ∧ finishedIds s.log = [0, 1])
    (fun _ _ => False) (runFrom halfThenRest twoCalls) := ⟨rfl, rfl⟩

end Ipc
