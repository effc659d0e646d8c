import BrbFramework.Tcp.WriteQueue
import Mathlib.Data.List.Basic

/-!
# Order and completeness of the writes of a TCP client

The log says which bytes were asked for and which ones the socket took. Without
a fatal error the written bytes are those of the removed requests and the written
part of the head, as long as no write stops between the size of a request's data
and the size of what it has to put on the socket. `CommEvTCPAIOWrite` takes such
a request for complete.
-/

namespace Tcp.WriteQueue

open Handler List

/-- The write calls of a log: the number of each and its bytes, as `f` reads them. -/
def requests (f : EvAIOReq → List UInt8) (log : List Obs) : List (Nat × List UInt8) :=
  log.filterMap fun
    | .asked req => some (req.id, f req)
    | _ => none

def written (log : List Obs) : List UInt8 :=
  log.flatMap fun
    | .wrote _ sent => sent
    | _ => []

def removedIds (log : List Obs) : List Nat :=
  log.filterMap fun
    | .removed id => some id
    | _ => none

def finishedIds (log : List Obs) : List Nat :=
  log.filterMap fun
    | .finished id _ => some id
    | _ => none

def stream (reqs : List (Nat × List UInt8)) : List UInt8 := reqs.flatMap Prod.snd

/-- The bytes of the requests up to the one with the number `id`, which included. -/
def through (id : Nat) : List (Nat × List UInt8) → List UInt8
  | [] => []
  | (i, bytes) :: rest => if i = id then bytes else bytes ++ through id rest

/-- What the socket has got is the start of what was asked for, and it includes every
request that left the queue or had its callback invoked. -/
def Ok (f : EvAIOReq → List UInt8) (log : List Obs) : Prop :=
  written log <+: stream (requests f log) ∧
    ∀ id, id ∈ removedIds log ∨ id ∈ finishedIds log →
      through id (requests f log) <+: written log

/-- `Ok` at all times up to now. -/
def AlwaysOk (f : EvAIOReq → List UInt8) (log : List Obs) : Prop :=
  ∀ past, past <+: log → Ok f past

def Obs.isFailed : Obs → Bool
  | .failed _ => true
  | _ => false

def NoFailure (log : List Obs) : Prop := ∀ o ∈ log, o.isFailed = false

instance (log : List Obs) : Decidable (NoFailure log) :=
  inferInstanceAs (Decidable (∀ o ∈ log, o.isFailed = false))

/-- A write that stops where the data of its request would end, but not what the
request has to put on the socket. -/
def Cut : Obs → Prop
  | .wrote req sent =>
      req.data.length ≤ req.offset + sent.length ∧ req.offset + sent.length < req.bytes.length
  | _ => False

def NoCut (log : List Obs) : Prop := ∀ o ∈ log, ¬ Cut o

section Log

variable {f : EvAIOReq → List UInt8} {log l : List Obs} {o : Obs}

@[simp] theorem requests_append :
    requests f (log ++ l) = requests f log ++ requests f l := filterMap_append

@[simp] theorem written_append : written (log ++ l) = written log ++ written l :=
  flatMap_append

@[simp] theorem removedIds_append :
    removedIds (log ++ l) = removedIds log ++ removedIds l := filterMap_append

@[simp] theorem finishedIds_append :
    finishedIds (log ++ l) = finishedIds log ++ finishedIds l := filterMap_append

@[simp] theorem stream_append {reqs reqs' : List (Nat × List UInt8)} :
    stream (reqs ++ reqs') = stream reqs ++ stream reqs' := flatMap_append

theorem NoFailure.of_append (h : NoFailure (log ++ l)) : NoFailure log :=
  fun o ho => h o (mem_append_left _ ho)

theorem NoCut.of_append (h : NoCut (log ++ l)) : NoCut log :=
  fun o ho => h o (mem_append_left _ ho)

theorem noCut_concat : NoCut (log ++ [o]) ↔ NoCut log ∧ ¬ Cut o := by
  refine ⟨fun h => ⟨h.of_append, h o (by simp)⟩, fun ⟨h, ho⟩ p hp => ?_⟩
  rcases mem_append.mp hp with hp | hp
  · exact h p hp
  · rw [mem_singleton.mp hp]
    exact ho

theorem AlwaysOk.of_append (h : AlwaysOk f (log ++ l)) : AlwaysOk f log :=
  fun past hpast => h past (hpast.trans (prefix_append _ _))

theorem AlwaysOk.now (h : AlwaysOk f log) : Ok f log := h log (prefix_refl _)

theorem alwaysOk_concat : AlwaysOk f (log ++ [o]) ↔ AlwaysOk f log ∧ Ok f (log ++ [o]) := by
  refine ⟨fun h => ⟨h.of_append, h.now⟩, fun ⟨h, ho⟩ past hpast => ?_⟩
  rcases prefix_concat_iff.mp hpast with rfl | hpast
  · exact ho
  · exact h past hpast

theorem through_start {id : Nat} {done rest : List (Nat × List UInt8)}
    (h : id ∈ done.map Prod.fst) : through id (done ++ rest) <+: stream done := by
  induction done with
  | nil => simp at h
  | cons entry done ih =>
      obtain ⟨i, bytes⟩ := entry
      simp only [cons_append, through, stream, flatMap_cons]
      split
      · exact prefix_append _ _
      · rename_i hne
        have hid : id ∈ done.map Prod.fst := by
          rcases mem_cons.mp h with heq | hin
          · exact absurd heq.symm hne
          · exact hin
        exact (prefix_append_right_inj bytes).mpr (ih hid)

theorem through_eq {id : Nat} {bytes : List UInt8} {done rest : List (Nat × List UInt8)}
    (h : id ∉ done.map Prod.fst) :
    through id (done ++ (id, bytes) :: rest) = stream done ++ bytes := by
  induction done with
  | nil => simp [through, stream]
  | cons entry done ih =>
      obtain ⟨i, b⟩ := entry
      simp only [map_cons, mem_cons, not_or] at h
      have hi : i ≠ id := fun heq => h.1 heq.symm
      simp only [cons_append, through, if_neg hi, ih h.2, stream, flatMap_cons,
        append_assoc]

end Log

def entry (req : EvAIOReq) : Nat × List UInt8 := (req.id, req.bytes)

/-- The part of the head that was written already. -/
def headWritten : List EvAIOReq → List UInt8
  | [] => []
  | req :: _ => req.bytes.take req.offset

/-- What the log and the queue have to do with each other, when `done` are the
requests that left the queue. -/
structure Books (log : List Obs) (queue : List EvAIOReq) (done : List (Nat × List UInt8)) :
    Prop where
  requests_eq : requests EvAIOReq.bytes log = done ++ queue.map entry
  removed_eq : removedIds log = done.map Prod.fst
  nodup : ((done ++ queue.map entry).map Prod.fst).Nodup
  calls : (finishedIds log).Sublist (removedIds log)
  written_eq :
    (NoCut log ∧ written log = stream done ++ headWritten queue ∧ AlwaysOk EvAIOReq.bytes log) ∨
      (¬ NoCut log ∧ ¬ AlwaysOk EvAIOReq.bytes log)

section Books

variable {log : List Obs} {req : EvAIOReq} {queue : List EvAIOReq}
  {done : List (Nat × List UInt8)}

theorem ok_of_written {written' : List UInt8}
    (hreq : requests EvAIOReq.bytes log = done ++ queue.map entry)
    (hrem : removedIds log = done.map Prod.fst) (hcalls : (finishedIds log).Sublist (removedIds log))
    (hw : written log = stream done ++ written') (hpart : written' <+: stream (queue.map entry)) :
    Ok EvAIOReq.bytes log := by
  refine ⟨?_, fun id hid => ?_⟩
  · rw [hw, hreq, stream_append]
    exact (prefix_append_right_inj _).mpr hpart
  · have hin : id ∈ removedIds log := hid.elim (fun h => h) fun h => hcalls.subset h
    rw [hreq, hw]
    rw [hrem] at hin
    exact (through_start hin).trans (prefix_append _ _)

theorem headWritten_start (queue : List EvAIOReq) :
    headWritten queue <+: stream (queue.map entry) := by
  cases queue with
  | nil => exact prefix_refl _
  | cons req queue =>
      exact ( take_prefix _ _).trans (prefix_append _ _)

theorem Books.asked (h : Books log queue done) (hid : req.id ∉ (done ++ queue.map entry).map Prod.fst)
    (hoff : req.offset = 0) : Books (log ++ [.asked req]) (queue ++ [req]) done := by
  have hreq : requests EvAIOReq.bytes (log ++ [.asked req]) = done ++ (queue ++ [req]).map entry := by
    rw [requests_append, h.requests_eq]
    simp [requests, entry]
  have hrem : removedIds (log ++ [.asked req]) = done.map Prod.fst := by
    rw [removedIds_append, h.removed_eq]
    simp [removedIds]
  have hcalls : (finishedIds (log ++ [.asked req])).Sublist (removedIds (log ++ [.asked req])) := by
    simpa [finishedIds, removedIds] using h.calls
  refine ⟨hreq, hrem, ?_, hcalls, ?_⟩
  · have hsplit : (done ++ (queue ++ [req]).map entry).map Prod.fst =
        (done ++ queue.map entry).map Prod.fst ++ [req.id] := by simp [entry]
    rw [hsplit]
    exact nodup_append.mpr ⟨h.nodup, by simp, fun i hi j hj => by
      rw [mem_singleton.mp hj]
      exact fun heq => hid (heq ▸ hi)⟩
  · rcases h.written_eq with ⟨hcut, hw, hok⟩ | ⟨hcut, hok⟩
    · have hhead : headWritten (queue ++ [req]) = headWritten queue := by
        cases queue with
        | nil => simp [headWritten, hoff]
        | cons r queue => rfl
      have hw' : written (log ++ [.asked req]) = stream done ++ headWritten (queue ++ [req]) := by
        rw [written_append, hw, hhead]
        simp [written]
      exact .inl ⟨noCut_concat.mpr ⟨hcut, id⟩, hw',
        alwaysOk_concat.mpr ⟨hok, ok_of_written hreq hrem hcalls hw' (headWritten_start _)⟩⟩
    · exact .inr ⟨fun hn => hcut hn.of_append, fun ho => hok ho.of_append⟩

theorem Books.wrote {n : Nat} (h : Books log (req :: queue) done)
    (hn : req.offset + n < req.data.length) :
    Books (log ++ [.wrote req (req.getDataPtr.take n)])
      ({ req with offset := req.offset + n } :: queue) done := by
  have hreq : requests EvAIOReq.bytes (log ++ [.wrote req (req.getDataPtr.take n)]) =
      done ++ ({ req with offset := req.offset + n } :: queue).map entry := by
    rw [requests_append, h.requests_eq]
    simp [requests, entry, EvAIOReq.bytes]
  have hrem : removedIds (log ++ [.wrote req (req.getDataPtr.take n)]) = done.map Prod.fst := by
    rw [removedIds_append, h.removed_eq]
    simp [removedIds]
  have hcalls : (finishedIds (log ++ [.wrote req (req.getDataPtr.take n)])).Sublist
      (removedIds (log ++ [.wrote req (req.getDataPtr.take n)])) := by
    simpa [finishedIds, removedIds] using h.calls
  refine ⟨hreq, hrem, h.nodup, hcalls, ?_⟩
  · rcases h.written_eq with ⟨hcut, hw, hok⟩ | ⟨hcut, hok⟩
    · have hw' : written (log ++ [.wrote req (req.getDataPtr.take n)]) = stream done ++
          headWritten ({ req with offset := req.offset + n } :: queue) := by
        rw [written_append, hw, append_assoc]
        congr 1
        simp only [headWritten, written, flatMap_cons, flatMap_nil, append_nil,
          EvAIOReq.getDataPtr_eq]
        exact List.take_add.symm
      refine .inl ⟨noCut_concat.mpr ⟨hcut, fun hc => ?_⟩, hw',
        alwaysOk_concat.mpr ⟨hok, ok_of_written hreq hrem hcalls hw' (headWritten_start _)⟩⟩
      have hsent := hc.1
      rw [EvAIOReq.getDataPtr_eq, length_take, length_drop] at hsent
      omega
    · exact .inr ⟨fun hn => hcut hn.of_append, fun ho => hok ho.of_append⟩

theorem Books.completed {n : Nat} (h : Books log (req :: queue) done)
    (hn : req.data.length ≤ req.offset + n) (hmax : req.offset + n ≤ req.bytes.length)
    (hrest : ∀ r ∈ queue, r.offset = 0) :
    Books (log ++ [.wrote req (req.getDataPtr.take n)] ++ [.removed req.id]) queue
      (done ++ [entry req]) := by
  have hsent : (req.getDataPtr.take n).length = n := by
    rw [EvAIOReq.getDataPtr_eq, length_take, length_drop]
    omega
  generalize hsentIs : req.getDataPtr.take n = sent at hsent
  have hreq : requests EvAIOReq.bytes (log ++ [.wrote req sent] ++ [.removed req.id]) =
      (done ++ [entry req]) ++ queue.map entry := by
    rw [requests_append, requests_append, h.requests_eq]
    simp [requests]
  have hrem : removedIds (log ++ [.wrote req sent] ++ [.removed req.id]) =
      (done ++ [entry req]).map Prod.fst := by
    rw [removedIds_append, removedIds_append, h.removed_eq]
    simp [removedIds, entry]
  have hnodup : ((done ++ [entry req] ++ queue.map entry).map Prod.fst).Nodup := by
    simpa using h.nodup
  have hcallsSent : (finishedIds (log ++ [.wrote req sent])).Sublist
      (removedIds (log ++ [.wrote req sent])) := by
    simpa [finishedIds, removedIds] using h.calls
  have hcalls : (finishedIds (log ++ [.wrote req sent] ++ [.removed req.id])).Sublist
      (removedIds (log ++ [.wrote req sent] ++ [.removed req.id])) := by
    rw [finishedIds_append, removedIds_append]
    exact hcallsSent.append (nil_sublist _)
  refine ⟨hreq, hrem, hnodup, hcalls, ?_⟩
  · rcases h.written_eq with ⟨hcut, hw, hok⟩ | ⟨hcut, hok⟩
    · have hwsent : written (log ++ [.wrote req sent]) =
          stream done ++ req.bytes.take (req.offset + n) := by
        rw [written_append, hw, append_assoc]
        congr 1
        simp only [headWritten, written, flatMap_cons, flatMap_nil, append_nil,
          ← hsentIs, EvAIOReq.getDataPtr_eq]
        exact List.take_add.symm
      have hwall : written (log ++ [.wrote req sent] ++ [.removed req.id]) =
          stream done ++ req.bytes.take (req.offset + n) := by
        rw [written_append, hwsent]
        simp [written]
      by_cases hfull : req.offset + n = req.bytes.length
      · have hwdone : written (log ++ [.wrote req sent] ++ [.removed req.id]) =
            stream (done ++ [entry req]) ++ headWritten queue := by
          have hhead : headWritten queue = [] := by
            cases queue with
            | nil => rfl
            | cons r queue => simp [headWritten, hrest r (by simp)]
          rw [hwall, hfull, take_length, hhead, stream_append]
          simp [stream, entry]
        have hreqSent : requests EvAIOReq.bytes (log ++ [.wrote req sent]) =
            done ++ (req :: queue).map entry := by
          rw [requests_append, h.requests_eq]
          simp [requests]
        have hremSent : removedIds (log ++ [.wrote req sent]) = done.map Prod.fst := by
          rw [removedIds_append, h.removed_eq]
          simp [removedIds]
        refine .inl ⟨noCut_concat.mpr ⟨noCut_concat.mpr ⟨hcut, fun hc => ?_⟩, id⟩, hwdone,
          alwaysOk_concat.mpr ⟨alwaysOk_concat.mpr ⟨hok, ?_⟩,
            ok_of_written hreq hrem hcalls hwdone (headWritten_start _)⟩⟩
        · have hshort := hc.2
          omega
        · exact ok_of_written hreqSent hremSent hcallsSent hwsent
            (( take_prefix _ _).trans (prefix_append _ _))
      · refine .inr ⟨fun hno => ?_, fun ho => ?_⟩
        · exact (noCut_concat.mp hno.of_append).2 ⟨by omega, by omega⟩
        · have hthrough := ho.now.2 req.id (.inl (by rw [hrem]; simp [entry]))
          have hnot : req.id ∉ done.map Prod.fst := by
            have hd := h.nodup
            simp only [map_append, nodup_append] at hd
            intro hin
            exact hd.2.2 _ hin _ (by simp [entry]) rfl
          rw [hreq, append_assoc] at hthrough
          have heq : through req.id (done ++ ([entry req] ++ queue.map entry)) =
              stream done ++ req.bytes := through_eq hnot
          rw [heq, hwall] at hthrough
          have hle := hthrough.length_le
          simp only [length_append, length_take] at hle
          omega
    · exact .inr ⟨fun hno => hcut hno.of_append.of_append,
        fun ho => hok ho.of_append.of_append⟩

theorem Books.finished {last : Nat × List UInt8} {size : Int}
    (h : Books log queue (done ++ [last]))
    (hdone : (finishedIds log).Sublist (done.map Prod.fst)) :
    Books (log ++ [.finished last.1 size]) queue (done ++ [last]) := by
  have hreq : requests EvAIOReq.bytes (log ++ [.finished last.1 size]) =
      (done ++ [last]) ++ queue.map entry := by
    rw [requests_append, h.requests_eq]
    simp [requests]
  have hrem : removedIds (log ++ [.finished last.1 size]) = (done ++ [last]).map Prod.fst := by
    rw [removedIds_append, h.removed_eq]
    simp [removedIds]
  have hcalls : (finishedIds (log ++ [.finished last.1 size])).Sublist
      (removedIds (log ++ [.finished last.1 size])) := by
    rw [hrem, finishedIds_append, map_append]
    exact hdone.append (List.Sublist.refl [last.1])
  refine ⟨hreq, hrem, h.nodup, hcalls, ?_⟩
  · rcases h.written_eq with ⟨hcut, hw, hok⟩ | ⟨hcut, hok⟩
    · have hw' : written (log ++ [.finished last.1 size]) =
          stream (done ++ [last]) ++ headWritten queue := by
        rw [written_append, hw]
        simp [written]
      exact .inl ⟨noCut_concat.mpr ⟨hcut, id⟩, hw',
        alwaysOk_concat.mpr ⟨hok, ok_of_written hreq hrem hcalls hw' (headWritten_start _)⟩⟩
    · exact .inr ⟨fun hn => hcut hn.of_append, fun ho => hok ho.of_append⟩

end Books

/-- Behind the head a write is pending: what the start of the loop needs. -/
def Loose (c : CommEvTCPClient) : Prop := c.writeQueue.tail ≠ [] → c.pendingWrite = true

/-- What is queued has a write pending, also while a finish callback runs. -/
def Kicked (c : CommEvTCPClient) : Prop := c.writeQueue ≠ [] → c.pendingWrite = true

/-- What is queued has a write pending and its event armed. -/
def Armed (c : CommEvTCPClient) : Prop :=
  c.writeQueue ≠ [] → c.pendingWrite = true ∧ c.writeEvent = true

/-- What a status of `CommEvTCPAIOWrite` says about the queue. -/
def Left : OpStatus → CommEvTCPClient → Prop
  | .finished, c => c.writeQueue = []
  | .needed, _ => True
  | .errFatal, _ => False

/-- The request that an entry of the log is about was not transformed. -/
def Obs.Plain : Obs → Prop
  | .asked req => req.transformedMb = none
  | .wrote req _ => req.transformedMb = none
  | _ => True

/-- The queued requests are incomplete and nothing of those behind the head was
written. As long as no write failed, the books are right, and `P` holds. `X` is
that no transformer is ever enabled, and `Q` what was known before. -/
structure Inv (X Q : Prop) (P : CommEvTCPClient → Prop) (c : CommEvTCPClient) : Prop where
  formed : ∀ r ∈ c.writeQueue, r.offset < r.data.length ∧ r.data.length ≤ r.bytes.length
  rest : ∀ r ∈ c.writeQueue.tail, r.offset = 0
  plain : X → c.crypto.enabled = false ∧ (∀ r ∈ c.writeQueue, r.transformedMb = none) ∧
    ∀ o ∈ c.log, o.Plain
  kept : NoFailure c.log → Q ∧ P c ∧
    (requests EvAIOReq.bytes c.log).map Prod.fst = List.range c.created ∧
      ∃ done, Books c.log c.writeQueue done

abbrev Never (_ : Fault) (_ : CommEvTCPClient) : Prop := False

section Kept

variable {env : Env} {X Q : Prop} {P P' : CommEvTCPClient → Prop} {s t : CommEvTCPClient}

theorem Inv.keep (h : Inv X Q P s) (hqueue : t.writeQueue = s.writeQueue) (hlog : t.log = s.log)
    (hcreated : t.created = s.created) (hcrypto : X → t.crypto.enabled = s.crypto.enabled)
    (hP : P s → P' t) : Inv X Q P' t := by
  refine ⟨hqueue ▸ h.formed, hqueue ▸ h.rest, fun hX => ?_, fun hno => ?_⟩
  · rw [hqueue, hlog, hcrypto hX]
    exact h.plain hX
  rw [hlog] at hno
  obtain ⟨hQ, hPs, hids, hbooks⟩ := h.kept hno
  rw [hlog, hqueue, hcreated]
  exact ⟨hQ, hP hPs, hids, hbooks⟩

theorem Inv.plain_concat {o : Obs} {q : List EvAIOReq} (h : Inv X Q P s) (hX : X)
    (ho : o.Plain) (hqueue : ∀ r ∈ q, r ∈ s.writeQueue) :
    s.crypto.enabled = false ∧ (∀ r ∈ q, r.transformedMb = none) ∧
      ∀ o' ∈ s.log ++ [o], o'.Plain := by
  obtain ⟨hcrypto, hnone, hlog⟩ := h.plain hX
  refine ⟨hcrypto, fun r hr => hnone r (hqueue r hr), fun o' ho' => ?_⟩
  rcases mem_append.mp ho' with hin | hin
  · exact hlog o' hin
  · rw [mem_singleton.mp hin]
    exact ho

/-- What the callback of the request removed last finds. -/
def Callable (id : Nat) (c : CommEvTCPClient) : Prop :=
  ∃ done last, Books c.log c.writeQueue (done ++ [last]) ∧ last.1 = id ∧
    (finishedIds c.log).Sublist (done.map Prod.fst)

theorem length_le_cryptoRaw {crypto : CommEvCryptoInfo} {salt} {data mb : List UInt8}
    (h : (cryptoRaw env crypto salt data).1 = some mb) : data.length ≤ mb.length := by
  unfold cryptoRaw at h
  split at h
  · split at h
    · obtain rfl := Option.some.inj h
      simp
      omega
    · obtain rfl := Option.some.inj h
      simp
    · cases h
    · cases h
  · cases h

section Loop

variable {cb : Nat → M Unit}
  (hcb : ∀ (Q : Prop) (id : Nat) (s : CommEvTCPClient), Inv X Q Kicked s →
    Ends (cb id) s (fun _ t => Inv X Q Kicked t) Never)

include hcb

theorem invokeCallBacks_ends {req : EvAIOReq} {size : Int} (h : Inv X Q Kicked s)
    (hcall : NoFailure s.log → Callable req.id s) :
    Ends (invokeCallBacks cb req size) s (fun _ t => Inv X Q Kicked t) Never := by
  unfold invokeCallBacks
  rw [ends_ite]
  refine ⟨fun _ => ?_, fun _ => h⟩
  rw [ends_bind, ends_modify]
  refine hcb Q req.id _ ⟨h.formed, h.rest, fun hX => h.plain_concat hX trivial fun _ hr => hr,
    fun hno => ?_⟩
  obtain ⟨hQ, hP, hids, -⟩ := h.kept hno.of_append
  obtain ⟨done, last, hbooks, hlast, hsub⟩ := hcall hno.of_append
  refine ⟨hQ, hP, ?_, done ++ [last], hlast ▸ hbooks.finished hsub⟩
  rw [requests_append, map_append, hids]
  simp [requests]

theorem finished_ends {again : Int → Int → M (OpStatus × Int)} {req : EvAIOReq} {offset : Nat}
    {canWriteSz total : Int}
    (hagain : ∀ total t, 0 < canWriteSz → Inv X Q Kicked t →
      Ends (again canWriteSz total) t (fun st t => Inv X Q (Left st.1) t) Never)
    (ht : t = { s with writeQueue := s.writeQueue.tail, log := s.log ++ [.removed req.id] })
    (h : Inv X Q Kicked t) (hcall : NoFailure t.log → Callable req.id t) :
    Ends (finished cb again req offset canWriteSz total) s
      (fun st t => Inv X Q (Left st.1) t) Never := by
  unfold finished
  rw [ends_bind]
  simp only [dequeue, ends_modify]
  rw [← ht, ends_bind]
  refine Ends.imp (invokeCallBacks_ends hcb h hcall) (fun _ u hu => ?_)
  rw [ends_ite]
  refine ⟨fun hcan => hagain total u hcan hu, fun _ => ?_⟩
  rw [ends_bind, ends_get, ends_ite]
  refine ⟨fun hempty => ?_, fun _ => ?_⟩
  · exact hu.keep rfl rfl rfl (fun _ => rfl) fun _ => List.isEmpty_iff.mp hempty
  · exact hu.keep rfl rfl rfl (fun _ => rfl) fun _ => trivial

theorem fatal_ends {req : EvAIOReq} {total : Int} (h : Inv X Q P s) :
    Ends (fatal cb req total) s (fun st t => Inv X Q (Left st.1) t) Never := by
  unfold fatal
  rw [ends_bind]
  simp only [dequeue, ends_modify]
  rw [ends_bind]
  have hfailed : ∀ {A : Prop}, NoFailure (s.log ++ [.failed req.id]) → A :=
    fun hno => absurd (hno (.failed req.id) (by simp)) (by simp [Obs.isFailed])
  have hinv : Inv X False Kicked
      { s with writeQueue := s.writeQueue.tail, log := s.log ++ [.failed req.id] } :=
    ⟨fun r hr => h.formed r (mem_of_mem_tail hr),
      fun r hr => h.rest r (mem_of_mem_tail hr),
      fun hX => h.plain_concat hX trivial fun _ hr => mem_of_mem_tail hr,
      fun hno => hfailed hno⟩
  refine Ends.imp (invokeCallBacks_ends hcb hinv fun hno => hfailed hno) (fun _ u hu => ?_)
  exact ⟨hu.formed, hu.rest, hu.plain, fun hno => (hu.kept hno).1.elim⟩

theorem aioWriteLoop_ends (fuel : Nat) {canWriteSz total : Int} (hcan : 0 < canWriteSz)
    (hfuel : canWriteSz ≤ fuel) (h : Inv X Q Loose s) :
    Ends (aioWriteLoop env cb fuel canWriteSz total) s (fun st t => Inv X Q (Left st.1) t)
      Never := by
  induction fuel generalizing canWriteSz total s with
  | zero => omega
  | succ fuel ih =>
      simp only [aioWriteLoop]
      rw [ends_bind, ends_get]
      cases hq : s.writeQueue with
      | nil =>
          exact h.keep rfl rfl rfl (fun _ => rfl) fun _ => hq
      | cons req queue =>
          have hreq := h.formed req (by rw [hq]; simp)
          have hmissing := req.getMissingSize_eq
          simp only
          generalize hpossible :
            (if canWriteSz < req.getMissingSize then canWriteSz else req.getMissingSize) = possible
          have hpos : 0 < possible ∧ possible ≤ canWriteSz ∧ possible ≤ req.getMissingSize := by
            rw [← hpossible]
            split <;> omega
          rw [ends_ite]
          refine ⟨fun hzero => by omega, fun _ => ?_⟩
          rw [ends_bind]
          simp only [write, ends_modifyGet]
          have hsys : Inv X Q Loose { s with syscalls := s.syscalls + 1 } :=
            h.keep rfl rfl rfl (fun _ => rfl) fun hl => hl
          cases env.write s.syscalls with
          | eintr =>
              simp only
              rw [ends_bind, ends_get, ends_ite]
              exact ⟨fun _ => fatal_ends hcb hsys,
                fun _ => hsys.keep rfl rfl rfl (fun _ => rfl) fun _ => trivial⟩
          | eagain =>
              simp only
              rw [ends_bind, ends_get, ends_ite]
              exact ⟨fun _ => fatal_ends hcb hsys,
                fun _ => hsys.keep rfl rfl rfl (fun _ => rfl) fun _ => trivial⟩
          | failed => exact fatal_ends hcb hsys
          | wrote n =>
              simp only
              generalize hw : min n possible.toNat = wroteSz
              rw [ends_bind]
              simp only [advance, ends_modify]
              rw [ends_ite]
              have hqueueTail : s.writeQueue.tail = queue := by rw [hq]; rfl
              have hmem : ∀ r ∈ queue, r ∈ s.writeQueue := fun r hr => by rw [hq]; simp [hr]
              have hrest : ∀ r ∈ queue, r.offset = 0 := fun r hr =>
                h.rest r (by rw [hqueueTail]; exact hr)
              refine ⟨fun hdone => ?_, fun hnot => ?_⟩
              · have hcomplete : ∀ done, Books s.log s.writeQueue done →
                    Books (s.log ++ [.wrote req (req.getDataPtr.take wroteSz)] ++
                      [.removed req.id]) queue (done ++ [entry req]) := fun done hb =>
                  (hq ▸ hb).completed hdone (by omega) hrest
                refine finished_ends hcb (fun total t hcan ht => ?_) rfl ?_ fun hno => ?_
                · exact ih hcan (by omega) (ht.keep rfl rfl rfl (fun _ => rfl)
                    fun hk hne => hk fun hnil =>
                    hne (by rw [hnil]; rfl))
                · refine ⟨fun r hr => h.formed r (hmem r (hqueueTail ▸ hr)),
                    fun r hr => hrest r (hqueueTail ▸ mem_of_mem_tail hr), fun hX => ?_,
                    fun hno => ?_⟩
                  · obtain ⟨hcrypto, hnone, hlog⟩ := h.plain_concat (q := queue)
                      (o := .wrote req (req.getDataPtr.take wroteSz)) hX
                      ((h.plain hX).2.1 req (by rw [hq]; simp)) hmem
                    refine ⟨hcrypto, hqueueTail ▸ hnone, fun o ho => ?_⟩
                    rcases mem_append.mp ho with hin | hin
                    · exact hlog o hin
                    · rw [mem_singleton.mp hin]
                      trivial
                  obtain ⟨hQ, hloose, hids, done, hb⟩ := h.kept hno.of_append.of_append
                  refine ⟨hQ, fun hne => hloose hne, ?_, _, hqueueTail ▸ hcomplete done hb⟩
                  rw [requests_append, requests_append, map_append, map_append, hids]
                  simp [requests]
                · obtain ⟨-, -, -, done, hb⟩ := h.kept hno.of_append.of_append
                  refine ⟨done, entry req, hqueueTail ▸ hcomplete done hb, rfl, ?_⟩
                  have hcalls := hb.calls
                  rw [hb.removed_eq] at hcalls
                  simpa [finishedIds] using hcalls
              · have hmore : req.offset + wroteSz < req.data.length := by omega
                refine ⟨fun r hr => ?_, hqueueTail ▸ hrest, fun hX => ?_, fun hno => ?_⟩
                · rcases mem_cons.mp hr with rfl | hr
                  · exact ⟨hmore, hreq.2⟩
                  · exact h.formed r (hmem r (hqueueTail ▸ hr))
                · have hnone := (h.plain hX).2.1 req (by rw [hq]; simp)
                  obtain ⟨hcrypto, htail, hlog⟩ := h.plain_concat (q := queue)
                    (o := .wrote req (req.getDataPtr.take wroteSz)) hX hnone hmem
                  refine ⟨hcrypto, fun r hr => ?_, hlog⟩
                  rcases mem_cons.mp hr with rfl | hr
                  · exact hnone
                  · exact htail r (hqueueTail ▸ hr)
                · obtain ⟨hQ, -, hids, done, hb⟩ := h.kept hno.of_append
                  refine ⟨hQ, trivial, ?_, done, hqueueTail.symm ▸ (hq ▸ hb).wrote hmore⟩
                  rw [requests_append, map_append, hids]
                  simp [requests]

theorem aioWrite_ends {canWriteSz : Int} (h : Inv X Q Loose s) :
    Ends (aioWrite env cb canWriteSz) s (fun st t => Inv X Q (Left st.1) t) Never := by
  simp only [aioWrite]
  refine aioWriteLoop_ends hcb _ ?_ ?_ h
  · split <;> omega
  · split <;> omega

theorem eventWrite_ends {canWriteSz : Int} (h : Inv X Q Loose s) :
    Ends (eventWrite env cb canWriteSz) s (fun _ t => Inv X Q Armed t) Never := by
  unfold eventWrite
  rw [ends_bind]
  refine Ends.imp (aioWrite_ends hcb h) (fun st t ht => ?_)
  obtain ⟨opStatus, total⟩ := st
  cases opStatus with
  | needed =>
      simp only [ends_bind, ends_modify, ends_pure]
      exact ht.keep rfl rfl rfl (fun _ => rfl) fun _ _ => ⟨rfl, rfl⟩
  | finished =>
      simp only [ends_bind, ends_modify, ends_pure]
      exact ht.keep rfl rfl rfl (fun _ => rfl) fun hempty hne => absurd hempty hne
  | errFatal =>
      simp only [ends_pure]
      exact ht.keep rfl rfl rfl (fun _ => rfl) fun hfalse => hfalse.elim

theorem aioWriteRequest_ends {data : List UInt8} {hasFinishCb : Bool} (hdata : data ≠ [])
    (h : Inv X Q Kicked s) :
    Ends (aioWriteRequest env cb data hasFinishCb) s (fun _ t => Inv X Q Armed t) Never := by
  simp only [aioWriteRequest, enqueueAndKickWriteQueue, enqueue, ends_bind, ends_get, ends_modify,
    ends_set, ends_assertThat]
  generalize hmb : (cryptoRaw env s.crypto (env.salt s.created) data).1 = transformedMb
  generalize hcr : (cryptoRaw env s.crypto (env.salt s.created) data).2 = crypto
  refine ⟨fun _ => ?_, fun hnil => absurd (List.isEmpty_iff.mp (by simpa using hnil)) hdata⟩
  generalize hreq : (⟨s.created, data, 0, transformedMb, hasFinishCb⟩ : EvAIOReq) = req
  have hformed : req.offset < req.data.length ∧ req.data.length ≤ req.bytes.length := by
    subst hreq
    refine ⟨length_pos_iff.mpr hdata, ?_⟩
    cases htr : transformedMb with
    | none => exact Nat.le_refl _
    | some mb => exact length_le_cryptoRaw (hmb.trans htr)
  have hplain : X → crypto.enabled = false ∧ transformedMb = none := fun hX => by
    have hoff := (h.plain hX).1
    rw [← hmb, ← hcr]
    simp [cryptoRaw, hoff]
  -- the state in which the request is queued and nobody was told yet
  obtain ⟨t, htIs⟩ : ∃ t : CommEvTCPClient,
      { s with
        writeQueue := s.writeQueue ++ [req]
        crypto := crypto
        created := s.created + 1
        log := s.log ++ [.asked req] } = t := ⟨_, rfl⟩
  have hinv : ∀ P, (NoFailure s.log → Kicked s → P t) → Inv X Q P t := by
    intro P hP
    subst htIs
    refine ⟨fun r hr => ?_, fun r hr => ?_, fun hX => ?_, fun hno => ?_⟩
    · rcases mem_append.mp hr with hr | hr
      · exact h.formed r hr
      · rw [mem_singleton.mp hr]
        exact hformed
    · have hin : r ∈ s.writeQueue.tail ++ [req] := by
        cases hq : s.writeQueue with
        | nil => simp [hq] at hr
        | cons head queue => simpa [hq] using hr
      rcases mem_append.mp hin with hr | hr
      · exact h.rest r hr
      · rw [mem_singleton.mp hr, ← hreq]
    · have hnone : req.transformedMb = none := by rw [← hreq]; exact (hplain hX).2
      obtain ⟨-, hqueue, hlog⟩ :=
        h.plain_concat (o := .asked req) hX hnone fun _ hr => hr
      refine ⟨(hplain hX).1, fun r hr => ?_, hlog⟩
      rcases mem_append.mp hr with hr | hr
      · exact hqueue r hr
      · rw [mem_singleton.mp hr]
        exact hnone
    · obtain ⟨hQ, hkicked, hids, done, hb⟩ := h.kept hno.of_append
      have hid : req.id = s.created := by rw [← hreq]
      refine ⟨hQ, hP hno.of_append hkicked, ?_, done, hb.asked ?_ (by rw [← hreq])⟩
      · rw [requests_append, map_append, hids]
        simp [requests, hid, range_succ]
      · rw [← hb.requests_eq, hids, hid]
        simp
  rw [ends_ite]
  subst htIs
  refine ⟨fun hpending => ?_, fun hpending => ?_⟩
  · rw [ends_modify]
    refine (hinv (fun c => c.pendingWrite = true) fun _ _ => hpending).keep rfl rfl rfl
      (fun _ => rfl) fun hp _ => ⟨hp, rfl⟩
  · rw [ends_bind]
    refine Ends.imp (eventWrite_ends hcb (hinv Loose fun _ hkicked hne => ?_))
      (fun _ t ht => ht)
    have hempty : s.writeQueue = [] := by
      by_contra hq
      exact hpending (hkicked hq)
    simp [hempty] at hne

end Loop

end Kept

def UserOp.NonEmpty : UserOp → Prop
  | .write data _ => data ≠ []
  | _ => True

def UserOp.IsWrite : UserOp → Prop
  | .write _ _ => True
  | _ => False

/-- What the upper layers call in an event, finish callbacks aside. -/
def Event.ops : Event → List UserOp
  | .user op => [op]
  | _ => []

/-- What the upper layers call, directly or in a finish callback. -/
def Called (env : Env) (evs : List Event) (op : UserOp) : Prop :=
  (∃ e ∈ evs, op ∈ e.ops) ∨ ∃ id, op ∈ env.onFinish id

section Runs

variable {env : Env} {X Q : Prop} {s : CommEvTCPClient}

theorem userOp_ends {cb : Nat → M Unit}
    (hcb : ∀ (Q : Prop) (id : Nat) (s : CommEvTCPClient), Inv X Q Kicked s →
      Ends (cb id) s (fun _ t => Inv X Q Kicked t) Never)
    {op : UserOp} (hne : op.NonEmpty) (hX : X → op.IsWrite) {P : CommEvTCPClient → Prop}
    (hkicked : ∀ c, P c → Kicked c) (harmed : ∀ c, Armed c → P c)
    (hcrypto : ∀ c crypto, P c → P { c with crypto }) (h : Inv X Q P s) :
    Ends (userOp env cb op) s (fun _ t => Inv X Q P t) Never := by
  cases op with
  | write data hasFinishCb =>
      refine Ends.imp (aioWriteRequest_ends hcb hne
        (h.keep rfl rfl rfl (fun _ => rfl) (hkicked s))) (fun _ t ht => ?_)
      exact ht.keep rfl rfl rfl (fun _ => rfl) (harmed t)
  | cryptoEnable algoCode key =>
      exact h.keep rfl rfl rfl (fun x => (hX x).elim) (hcrypto s _)
  | cryptoDisable => exact h.keep rfl rfl rfl (fun x => (hX x).elim) (hcrypto s _)

theorem userOps_ends {cb : Nat → M Unit}
    (hcb : ∀ (Q : Prop) (id : Nat) (s : CommEvTCPClient), Inv X Q Kicked s →
      Ends (cb id) s (fun _ t => Inv X Q Kicked t) Never)
    {ops : List UserOp} (hops : ∀ op ∈ ops, op.NonEmpty ∧ (X → op.IsWrite))
    (h : Inv X Q Kicked s) :
    Ends (userOps env cb ops) s (fun _ t => Inv X Q Kicked t) Never := by
  induction ops generalizing s with
  | nil => exact h
  | cons op ops ih =>
      simp only [userOps]
      rw [ends_bind]
      obtain ⟨hne, hX⟩ := hops op (by simp)
      refine Ends.imp (userOp_ends hcb hne hX (fun _ hk => hk) (fun _ ha hq => (ha hq).1)
        (fun _ _ hk => hk) h) (fun _ t ht => ?_)
      exact ih (fun op hop => hops op (mem_cons_of_mem _ hop)) ht

theorem finishCb_ends (henv : ∀ id, ∀ op ∈ env.onFinish id, op.NonEmpty ∧ (X → op.IsWrite))
    (depth : Nat) (Q : Prop) (id : Nat) (s : CommEvTCPClient) (h : Inv X Q Kicked s) :
    Ends (finishCb env depth id) s (fun _ t => Inv X Q Kicked t) Never := by
  induction depth generalizing Q id s with
  | zero => exact h
  | succ depth ih => exact userOps_ends ih (henv id) h

theorem handle_ends (henv : ∀ id, ∀ op ∈ env.onFinish id, op.NonEmpty ∧ (X → op.IsWrite))
    (depth : Nat) {e : Event} (he : ∀ op ∈ e.ops, op.NonEmpty ∧ (X → op.IsWrite))
    (h : Inv X Q Armed s) :
    Ends (handle env depth e) s (fun _ t => Inv X Q Armed t) Never := by
  have hcb := finishCb_ends henv depth
  cases e with
  | user op =>
      obtain ⟨hne, hX⟩ := he op (by simp [Event.ops])
      exact userOp_ends hcb hne hX (fun _ ha hq => (ha hq).1) (fun _ ha => ha) (fun _ _ ha => ha) h
  | write canWriteSz =>
      simp only [handle]
      rw [ends_bind, ends_get, ends_ite]
      refine ⟨fun _ => ?_, fun _ => h⟩
      rw [ends_bind, ends_modify, ends_bind]
      refine Ends.imp (eventWrite_ends hcb (h.keep rfl rfl rfl (fun _ => rfl) fun ha hne => ?_))
        (fun _ t ht => ht)
      exact (ha fun hnil => hne (by rw [hnil]; rfl)).1
  | eof => exact h.keep rfl rfl rfl (fun _ => rfl) fun ha => ha

theorem run_inv (depth : Nat) {evs : List Event}
    (hcalled : ∀ op, Called env evs op → op.NonEmpty ∧ (X → op.IsWrite)) :
    (runFrom env depth evs).fault = none ∧ Inv X True Armed (runFrom env depth evs).state := by
  have henv : ∀ id, ∀ op ∈ env.onFinish id, op.NonEmpty ∧ (X → op.IsWrite) :=
    fun id op hop => hcalled op (.inr ⟨id, hop⟩)
  have hstart : Inv X True Armed {} :=
    ⟨by simp, by simp, fun _ => ⟨rfl, by simp, by simp⟩, fun _ => ⟨trivial, by simp [Armed], rfl, [],
      rfl, rfl, by simp, by simp [finishedIds], .inl ⟨by simp [NoCut], rfl, fun past hpast => by
        rw [prefix_nil.mp hpast]
        exact ⟨prefix_refl _, by simp [removedIds, finishedIds]⟩⟩⟩⟩
  have hrun := Runs.invariant_run_of (A := Never)
    (fun e s hs he => handle_ends henv depth he hs) (c := .live {}) hstart evs
    (Runs.meets_of_forall fun e he op hop => hcalled op (.inl ⟨e, he, hop⟩))
  exact Runs.Holds.safe hrun

theorem Inv.sound (h : Inv X Q Armed s) (hno : NoFailure s.log) :
    (AlwaysOk EvAIOReq.bytes s.log ↔ NoCut s.log) ∧ (finishedIds s.log).Nodup := by
  obtain ⟨-, -, -, done, hbooks⟩ := h.kept hno
  refine ⟨?_, ?_⟩
  · rcases hbooks.written_eq with ⟨hcut, -, hok⟩ | ⟨hcut, hok⟩
    · exact ⟨fun _ => hcut, fun _ => hok⟩
    · exact ⟨fun ho => absurd ho hok, fun hn => absurd hn hcut⟩
  · refine hbooks.calls.nodup ?_
    rw [hbooks.removed_eq]
    have hnodup := hbooks.nodup
    rw [map_append] at hnodup
    exact (nodup_append.mp hnodup).1

end Runs

/-- **A transformed stream is whole unless a write is cut.**  Without fatal errors
the socket has at all times the start of the transformed requests in the order of
the calls, every removed request included, exactly in the runs in which no write
stops between the size of a request's data and the size of its transformed copy. -/
theorem transformed_in_order (env : Env) (depth : Nat) (evs : List Event)
    (hcalled : ∀ op, Called env evs op → op.NonEmpty)
    (hno : NoFailure (runFrom env depth evs).state.log) :
    AlwaysOk EvAIOReq.bytes (runFrom env depth evs).state.log ↔
      NoCut (runFrom env depth evs).state.log :=
  ((run_inv (X := False) depth fun op hop => ⟨hcalled op hop, False.elim⟩).2.sound hno).1

/-- **Plain writes are in order.**  Without a transformer and without fatal errors,
the socket has at all times the start of the data of the write calls in their order,
including every request whose finish callback has run. No callback runs twice, and
between events a queue that is not empty has its write event armed. -/
theorem plain_in_order (env : Env) (depth : Nat) (evs : List Event)
    (hcalled : ∀ op, Called env evs op → op.NonEmpty ∧ op.IsWrite)
    (hno : NoFailure (runFrom env depth evs).state.log) :
    (runFrom env depth evs).fault = none ∧
      AlwaysOk EvAIOReq.data (runFrom env depth evs).state.log ∧
      (finishedIds (runFrom env depth evs).state.log).Nodup ∧
      ((runFrom env depth evs).state.writeQueue ≠ [] →
        (runFrom env depth evs).state.writeEvent = true) := by
  obtain ⟨hfault, hinv⟩ := run_inv (X := True) depth
    fun op hop => ⟨(hcalled op hop).1, fun _ => (hcalled op hop).2⟩
  obtain ⟨hok, hnodup⟩ := hinv.sound hno
  obtain ⟨-, -, hplain⟩ := hinv.plain trivial
  refine ⟨hfault, fun past hpast => ?_, hnodup, fun hne => ((hinv.kept hno).2.1 hne).2⟩
  have hcut : NoCut (runFrom env depth evs).state.log := by
    intro o ho hc
    cases o with
    | wrote req sent =>
        have hnone : req.transformedMb = none := hplain _ ho
        have hshort := hc.2
        rw [EvAIOReq.bytes, hnone, Option.getD_none] at hshort
        have hlong := hc.1
        omega
    | _ => exact hc
  have hsame : requests EvAIOReq.data past = requests EvAIOReq.bytes past := by
    refine filterMap_congr fun o ho => ?_
    cases o with
    | asked req =>
        have hnone : req.transformedMb = none := hplain _ (hpast.subset ho)
        simp [EvAIOReq.bytes, hnone]
    | _ => rfl
  have hpastOk := hok.mpr hcut past hpast
  unfold Ok at hpastOk ⊢
  rwa [hsame]

/-- A kernel that takes five bytes and is full then, and upper layers whose first
finish callback writes again. -/
def fiveBytes : Env where
  write n := if n = 0 then .wrote 5 else .eagain
  onFinish id := if id = 0 then [.write [0x62, 0x63] true] else []
  md5 _ := .replicate 16 0
  salt _ := .replicate 8 0

theorem called_fiveBytes {evs : List Event} {op : UserOp} (good : UserOp → Prop)
    (hevs : ∀ e ∈ evs, ∀ op ∈ e.ops, good op) (hgood : good (.write [0x62, 0x63] true))
    (h : Called fiveBytes evs op) : good op := by
  rcases h with ⟨e, he, hop⟩ | ⟨id, hop⟩
  · exact hevs e he op hop
  · simp only [fiveBytes] at hop
    split at hop
    · rw [mem_singleton.mp hop]
      exact hgood
    · simp at hop

/-- A write that finishes at once, whose callback writes what the kernel does not take. -/
def plainRun : List Event := [.user (.write [0x61] true), .write 100]

theorem plainRun_writes (op : UserOp) (h : Called fiveBytes plainRun op) :
    op.NonEmpty ∧ op.IsWrite :=
  called_fiveBytes (fun op => op.NonEmpty ∧ op.IsWrite)
    (by simp [plainRun, Event.ops, UserOp.NonEmpty, UserOp.IsWrite])
    (by simp [UserOp.NonEmpty, UserOp.IsWrite]) h

theorem plain_in_order_plainRun :
    AlwaysOk EvAIOReq.data (runFrom fiveBytes 2 plainRun).state.log ∧
      (runFrom fiveBytes 2 plainRun).state.writeEvent = true :=
  have h := plain_in_order fiveBytes 2 plainRun plainRun_writes (by decide)
  ⟨h.2.1, h.2.2.2 (by decide +kernel)⟩

/-- Five bytes of the record for one byte of data, and the request is removed. -/
def cutRun : List Event := [.user (.cryptoEnable .rc4Md5 [1]), .user (.write [0x61] true)]

theorem cutRun_nonEmpty (op : UserOp) (h : Called fiveBytes cutRun op) : op.NonEmpty :=
  called_fiveBytes UserOp.NonEmpty (by simp [cutRun, Event.ops, UserOp.NonEmpty])
    (by simp [UserOp.NonEmpty]) h

theorem transformed_in_order_cutRun :
    AlwaysOk EvAIOReq.bytes (runFrom fiveBytes 0 cutRun).state.log ↔
      NoCut (runFrom fiveBytes 0 cutRun).state.log :=
  transformed_in_order fiveBytes 0 cutRun cutRun_nonEmpty (by decide)

/-- No error and no empty request, and still a request leaves the queue with most of
its record unwritten. -/
theorem record_cut :
    (∀ op, Called fiveBytes cutRun op → op.NonEmpty) ∧
      NoFailure (runFrom fiveBytes 0 cutRun).state.log ∧
      (runFrom fiveBytes 0 cutRun).state.writeQueue = [] ∧
      ¬ AlwaysOk EvAIOReq.bytes (runFrom fiveBytes 0 cutRun).state.log := by
  refine ⟨cutRun_nonEmpty, by decide, by decide, fun hok => ?_⟩
  have hremoved : 0 ∈ removedIds (runFrom fiveBytes 0 cutRun).state.log := by decide
  have hlen := (hok.now.2 0 (.inl hremoved)).length_le
  exact absurd hlen (by decide)

end Tcp.WriteQueue
