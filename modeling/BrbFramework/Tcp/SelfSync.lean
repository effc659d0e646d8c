import BrbFramework.Data.MemBuffer

/-!
# Framing by a token

A TCP client or server connection in self-sync mode dispatches its read buffer
when it holds a token, up to the end of the last one. What lies behind that
token is kept in a partial buffer, and goes in front of the next read.

The two sides share their buffers and the search. `Framed` is what every read
keeps on either side. Sizes are those of buffers that an `int` can measure.
-/

namespace Tcp

open BrbData List

/-- What a read event brings: data that was already read (`read_buf`, which TLS
fills), or what `recv` returns on the descriptor. -/
structure Read where
  readSz : Nat
  readBuf : List UInt8
  recv : Option (List UInt8)

def Read.absorbed (r : Read) : List UInt8 :=
  if r.readBuf ≠ [] then r.readBuf else r.recv.getD []

/-- How an upper layer consumes the read buffer it was shown. -/
inductive Upper
  | clean | destroy
deriving DecidableEq

/-- The read side of `iodata`, and the buffers dispatched so far. -/
structure IoData where
  readBuffer : Option MemBuffer := none
  partialReadBuffer : Option MemBuffer := none
  dispatched : List (List UInt8) := []

namespace IoData

def dispatch (io : IoData) (upper : Upper) : IoData :=
  match io.readBuffer with
  | none => io
  | some rb =>
      { io with
        dispatched := io.dispatched ++ [rb.bytes]
        readBuffer := match upper with
          | .clean => some rb.clean
          | .destroy => none }

/-- The read buffer in use, with what the partial buffer held. -/
def mergePartial (io : IoData) (readSz : Nat) : MemBuffer × Option MemBuffer :=
  match io.readBuffer, io.partialReadBuffer with
  | none, none => (.new (readSz + 1), none)
  | none, some part => (part, none)
  | some rb, none => (rb, none)
  | some rb, some part => (rb.add part.bytes, some part.clean)

/-- The branch `READ_MEMBUFFER` of the process functions: the data that arrived
goes into the read buffer, transformed if a transform is set. -/
def absorb (io : IoData) (transform : List UInt8 → Option (List UInt8)) (r : Read) :
    IoData × Option Nat :=
  let (rb, part) := io.mergePartial r.readSz
  let io := { io with readBuffer := some rb, partialReadBuffer := part }
  if r.readBuf ≠ [] then
    ({ io with readBuffer := some (rb.add ((transform r.readBuf).getD r.readBuf)) },
      some r.readBuf.length)
  else
    match r.recv with
    | none | some [] => (io, none)
    | some data =>
        let grown := rb.add data
        match transform data with
        | none => ({ io with readBuffer := some grown }, some data.length)
        | some mb =>
            ({ io with readBuffer := some (({ grown with size := rb.getSize }).add mb) },
              some data.length)

/-- The bytes at `i` are the token. -/
def tokenAt (request token : List UInt8) (i : Nat) : Bool :=
  request[i]? == token.head? && (request.drop i).take token.length == token

/-- The search for the last token, from `i` back; `j` counts the bytes passed. -/
def findToken (request token : List UInt8) : Nat → Nat → Option Nat
  | 0, j => if token.length ≤ j && tokenAt request token 0 then some 0 else none
  | i + 1, j =>
      if token.length ≤ j && tokenAt request token (i + 1) then some (i + 1)
      else findToken request token i (j + 1)

/-- What lies behind the token at `i` goes to the partial buffer. -/
def splitAt (io : IoData) (rb : MemBuffer) (remaining : Nat) : IoData :=
  if remaining > 0 then
    let part := io.partialReadBuffer.getD (.new (remaining + 1))
    let rest := rb.offsetRead (rb.getSize - remaining) remaining
    { io with
      readBuffer := some { rb with size := rb.size - remaining }.putNULLTerminator
      partialReadBuffer := some (part.add rest) }
  else io

/-- The search and what follows it, for a buffer that is there. -/
def syncReadBuffer (io : IoData) (rb : MemBuffer) (token : List UInt8) (maxBufferSz : Int)
    (upper : Upper) : IoData :=
  let rb := rb.putNULLTerminator
  let io := { io with readBuffer := some rb }
  let sz := rb.getSize
  if sz < token.length then io
  else
    match findToken (rb.data.drop rb.offset) token sz 0 with
    | some i => (io.splitAt rb (sz - i - token.length)).dispatch upper
    | none => if 0 < maxBufferSz ∧ maxBufferSz ≤ sz then io.dispatch upper else io

def finishRead (x : IoData × Option Nat) (selfSync : Bool) (sync : IoData → IoData)
    (upper : Upper) : IoData × Option Nat :=
  match x.2 with
  | none => x
  | some n => (if selfSync then sync x.1 else x.1.dispatch upper, some n)

end IoData

/-- `CommEvTCPClient`: its configuration and its buffers. -/
structure CommEvTCPClient where
  selfSync : Bool
  tokenStr : List UInt8
  maxBufferSz : Int
  transform : List UInt8 → Option (List UInt8)
  io : IoData

/-- `CommEvTCPServerConn`. The token is a pointer here. -/
structure CommEvTCPServerConn where
  selfSync : Bool
  tokenStr : Option (List UInt8)
  maxBufferSz : Int
  transform : List UInt8 → Option (List UInt8)
  io : IoData

namespace CommEvTCPClient

/-- `CommEvTCPClientSelfSyncReadBuffer`. -/
def selfSyncReadBuffer (c : CommEvTCPClient) (io : IoData) (upper : Upper) : IoData :=
  match io.readBuffer with
  | none => io
  | some rb => if !c.selfSync then io else io.syncReadBuffer rb c.tokenStr c.maxBufferSz upper

/-- `CommEvTCPClientProcessBuffer`: the client after the read, and the size read. -/
def processBuffer (c : CommEvTCPClient) (e : Read × Upper) : CommEvTCPClient × Option Nat :=
  let (io, dataRead) := IoData.finishRead (c.io.absorb c.transform e.1) c.selfSync
    (c.selfSyncReadBuffer · e.2) e.2
  ({ c with io := io }, dataRead)

def run (c : CommEvTCPClient) (es : List (Read × Upper)) : CommEvTCPClient :=
  es.foldl (fun c e => (c.processBuffer e).1) c

end CommEvTCPClient

namespace CommEvTCPServerConn

/-- `CommEvTCPServerSelfSyncReadBuffer`. -/
def selfSyncReadBuffer (c : CommEvTCPServerConn) (io : IoData) (upper : Upper) : IoData :=
  match io.readBuffer, c.tokenStr with
  | some rb, some token =>
      if !c.selfSync then io else io.syncReadBuffer rb token c.maxBufferSz upper
  | _, _ => io

/-- `CommEvTCPServerEventProcessBuffer`. -/
def processBuffer (c : CommEvTCPServerConn) (e : Read × Upper) :
    CommEvTCPServerConn × Option Nat :=
  let (io, dataRead) := IoData.finishRead (c.io.absorb c.transform e.1) c.selfSync
    (c.selfSyncReadBuffer · e.2) e.2
  ({ c with io := io }, dataRead)

def run (c : CommEvTCPServerConn) (es : List (Read × Upper)) : CommEvTCPServerConn :=
  es.foldl (fun c e => (c.processBuffer e).1) c

end CommEvTCPServerConn

/-! ## The search -/

section Search

variable {request token : List UInt8} {i j k m : Nat}

open IoData

theorem findToken_some (h : findToken request token i j = some k) :
    k ≤ i ∧ token.length ≤ j + (i - k) ∧ tokenAt request token k = true ∧
      ∀ m, k < m → m ≤ i → token.length ≤ j + (i - m) → tokenAt request token m = false := by
  induction i generalizing j with
  | zero =>
      simp only [findToken] at h
      split at h
      · rename_i hat
        cases h
        rw [Bool.and_eq_true, decide_eq_true_eq] at hat
        exact ⟨le_rfl, by omega, hat.2, fun m _ _ _ => by omega⟩
      · cases h
  | succ i ih =>
      simp only [findToken] at h
      split at h
      · rename_i hat
        cases h
        rw [Bool.and_eq_true, decide_eq_true_eq] at hat
        exact ⟨le_rfl, by omega, hat.2, fun m _ _ _ => by omega⟩
      · rename_i hnot
        obtain ⟨hki, hpassed, hat, hlast⟩ := ih h
        refine ⟨by omega, by omega, hat, fun m hkm hmi hm => ?_⟩
        rcases Nat.lt_or_eq_of_le hmi with hlt | rfl
        · exact hlast m hkm (by omega) (by omega)
        · have hj : token.length ≤ j := by omega
          simpa [hj] using hnot

theorem tokenAt_iff (hne : token ≠ []) {b : List UInt8} (hb : b = request.take b.length)
    (hm : m + token.length ≤ b.length) :
    tokenAt request token m = true ↔ (b.drop m).take token.length = token := by
  have htake : (b.drop m).take token.length = (request.drop m).take token.length := by
    rw [hb, drop_take, take_take, Nat.min_eq_left (by omega)]
  have hpos : 0 < token.length := length_pos_iff.mpr hne
  rw [htake, tokenAt, Bool.and_eq_true, beq_iff_eq, beq_iff_eq]
  refine ⟨And.right, fun h => ⟨?_, h⟩⟩
  rw [← h, head?_take, if_neg (by omega), head?_drop]

theorem not_infix_drop (hne : token ≠ []) {b : List UInt8} (hb : b = request.take b.length)
    (h : findToken request token b.length 0 = some k) :
    ¬token <:+: b.drop (k + token.length) := by
  obtain ⟨-, -, -, hlast⟩ := findToken_some h
  have hpos : 0 < token.length := length_pos_iff.mpr hne
  rintro ⟨front, back, heq⟩
  have hlen := congrArg List.length heq
  simp only [length_append, length_drop] at hlen
  have hdrop : b.drop (k + token.length + front.length) = token ++ back := by
    rw [← drop_drop, ← heq, append_assoc, drop_left]
  have hat : tokenAt request token (k + token.length + front.length) = true := by
    rw [tokenAt_iff hne hb (by omega), hdrop, take_left]
  rw [hlast _ (by omega) (by omega) (by omega)] at hat
  cases hat

theorem suffix_take (hne : token ≠ []) {b : List UInt8} (hb : b = request.take b.length)
    (h : findToken request token b.length 0 = some k) :
    k + token.length ≤ b.length ∧ token <:+ b.take (k + token.length) := by
  obtain ⟨hk, hpassed, hat, -⟩ := findToken_some h
  have hin : k + token.length ≤ b.length := by omega
  refine ⟨hin, b.take k, ?_⟩
  rw [List.take_add, (tokenAt_iff hne hb hin).mp hat]

end Search

/-! ## Framing -/

def held (mb : Option MemBuffer) : List UInt8 := (mb.map MemBuffer.bytes).getD []

/-- Nothing that was received is lost, doubled or out of order; what was
dispatched ends with the token and what is carried over holds none. -/
structure Framed (token : List UInt8) (io : IoData) (received : List UInt8) : Prop where
  stream : io.dispatched.flatten ++ held io.readBuffer ++ held io.partialReadBuffer = received
  ended : ∀ d ∈ io.dispatched, token <:+ d
  noToken : ¬token <:+: held io.partialReadBuffer

def IoData.Plain (io : IoData) : Prop :=
  (∀ mb, io.readBuffer = some mb → mb.Plain) ∧ ∀ mb, io.partialReadBuffer = some mb → mb.Plain

section Framing

variable {token got : List UInt8} {io : IoData} {rb : MemBuffer}

@[simp] theorem held_some (mb : MemBuffer) : held (some mb) = mb.bytes := rfl

@[simp] theorem held_none : held none = [] := rfl

theorem not_infix_nil (hne : token ≠ []) : ¬token <:+: [] := fun h => hne (infix_nil.mp h)

theorem mergePartial_spec (hplain : io.Plain) (readSz : Nat) :
    (io.mergePartial readSz).1.Plain ∧
      (io.mergePartial readSz).1.bytes = held io.readBuffer ++ held io.partialReadBuffer ∧
      held (io.mergePartial readSz).2 = [] ∧
      ∀ mb, (io.mergePartial readSz).2 = some mb → mb.Plain := by
  obtain ⟨hread, hpart⟩ := hplain
  unfold IoData.mergePartial
  cases hrb : io.readBuffer with
  | none =>
      cases hpb : io.partialReadBuffer with
      | none => exact ⟨MemBuffer.plain_new _, by simp, rfl, by simp⟩
      | some part => exact ⟨hpart part hpb, by simp, rfl, by simp⟩
  | some rb =>
      cases hpb : io.partialReadBuffer with
      | none => exact ⟨hread rb hrb, by simp, rfl, by simp⟩
      | some part =>
          refine ⟨(hread rb hrb).add _, (hread rb hrb).bytes_add _, by simp, ?_⟩
          rintro mb ⟨⟩
          exact (hpart part hpb).clean

theorem absorb_framed (hne : token ≠ []) (hplain : io.Plain) (h : Framed token io got)
    (r : Read) :
    (io.absorb (fun _ => none) r).1.Plain ∧
      Framed token (io.absorb (fun _ => none) r).1 (got ++ r.absorbed) ∧
      held (io.absorb (fun _ => none) r).1.partialReadBuffer = [] := by
  obtain ⟨hrb, hbytes, hpart, hpartPlain⟩ := mergePartial_spec hplain r.readSz
  -- every branch leaves the read buffer with some bytes added
  have hadd (d : List UInt8) (rb' : MemBuffer) (hrb' : rb'.Plain)
      (hd : rb'.bytes = held io.readBuffer ++ held io.partialReadBuffer ++ d) :
      IoData.Plain { io with
        readBuffer := some rb', partialReadBuffer := (io.mergePartial r.readSz).2 } ∧
      Framed token { io with
        readBuffer := some rb', partialReadBuffer := (io.mergePartial r.readSz).2 }
        (got ++ d) ∧ held (io.mergePartial r.readSz).2 = [] := by
    refine ⟨⟨?_, hpartPlain⟩, ⟨?_, h.ended, ?_⟩, hpart⟩
    · rintro mb ⟨⟩
      exact hrb'
    · rw [hpart, held_some, hd, ← h.stream]
      simp only [append_assoc, append_nil]
    · rw [hpart]
      exact not_infix_nil hne
  unfold IoData.absorb Read.absorbed
  simp only
  split
  · exact hadd r.readBuf _ (hrb.add _) (by rw [hrb.bytes_add, hbytes]; rfl)
  · cases r.recv with
    | none => simpa using hadd [] _ hrb (by rw [hbytes, append_nil])
    | some data =>
        cases data with
        | nil => simpa using hadd [] _ hrb (by rw [hbytes, append_nil])
        | cons b data =>
            exact hadd (b :: data) _ (hrb.add _) (by rw [hrb.bytes_add, hbytes])

theorem absorb_readBuffer (io : IoData) (transform : List UInt8 → Option (List UInt8)) (r : Read) :
    ∃ rb, (io.absorb transform r).1.readBuffer = some rb := by
  unfold IoData.absorb
  simp only
  split
  · exact ⟨_, rfl⟩
  · cases r.recv with
    | none => exact ⟨_, rfl⟩
    | some data =>
        cases data with
        | nil => exact ⟨_, rfl⟩
        | cons b data => cases htransform : transform (b :: data) <;> simp [htransform]

theorem dispatch_framed (hplain : io.Plain) (h : Framed token io got)
    (hrb : io.readBuffer = some rb) (hend : token <:+ rb.bytes) (upper : Upper) :
    (io.dispatch upper).Plain ∧ Framed token (io.dispatch upper) got := by
  have hstream := h.stream
  rw [hrb, held_some] at hstream
  have hended (d : List UInt8) (hd : d ∈ io.dispatched ++ [rb.bytes]) : token <:+ d := by
    rcases mem_append.mp hd with hd | hd
    · exact h.ended d hd
    · exact mem_singleton.mp hd ▸ hend
  unfold IoData.dispatch
  rw [hrb]
  cases upper with
  | clean =>
      refine ⟨⟨?_, hplain.2⟩, ⟨?_, hended, h.noToken⟩⟩
      · rintro mb ⟨⟩
        exact (hplain.1 rb hrb).clean
      · simpa using hstream
  | destroy =>
      refine ⟨⟨by simp, hplain.2⟩, ⟨?_, hended, h.noToken⟩⟩
      simpa using hstream

theorem syncReadBuffer_framed (hne : token ≠ []) (hplain : io.Plain)
    (h : Framed token io got) (hrb : io.readBuffer = some rb)
    (hempty : held io.partialReadBuffer = []) {maxBufferSz : Int} (hmax : maxBufferSz ≤ 0)
    (upper : Upper) :
    (io.syncReadBuffer rb token maxBufferSz upper).Plain ∧
      Framed token (io.syncReadBuffer rb token maxBufferSz upper) got := by
  have hp := hplain.1 rb hrb
  have hp' := hp.putNULLTerminator
  have hstream := h.stream
  rw [hrb, held_some, hempty, append_nil] at hstream
  have hkept : IoData.Plain { io with readBuffer := some rb.putNULLTerminator } ∧
      Framed token { io with readBuffer := some rb.putNULLTerminator } got := by
    refine ⟨⟨?_, hplain.2⟩, ⟨?_, h.ended, h.noToken⟩⟩
    · rintro mb ⟨⟩
      exact hp'
    · rw [hempty, held_some, hp.bytes_putNULLTerminator, append_nil]
      exact hstream
  unfold IoData.syncReadBuffer
  simp only
  split
  · exact hkept
  have hsize : rb.putNULLTerminator.getSize = rb.putNULLTerminator.size := hp'.getSize
  have hlen : rb.putNULLTerminator.bytes.length = rb.putNULLTerminator.size := hp'.length_bytes
  have hb : rb.putNULLTerminator.bytes =
      (rb.putNULLTerminator.data.drop rb.putNULLTerminator.offset).take
        rb.putNULLTerminator.bytes.length := by
    rw [hlen, hp'.offset, drop_zero, ← hp'.bytes]
  split
  · rename_i k hfind
    rw [hsize, ← hlen] at hfind
    have hnone := not_infix_drop hne hb hfind
    obtain ⟨hin, hsuffix⟩ := suffix_take hne hb hfind
    rw [hlen] at hin
    rw [hsize]
    unfold IoData.splitAt
    split
    · rename_i hrest
      -- the tail is copied before the buffer is cut
      have hcut : rb.putNULLTerminator.size - (rb.putNULLTerminator.size - k - token.length) =
          k + token.length := by omega
      have hshrink := hp'.shrink (n := k + token.length) hin
      have hpart : (io.partialReadBuffer.getD
          (.new (rb.putNULLTerminator.size - k - token.length + 1))).Plain ∧
          (io.partialReadBuffer.getD
          (.new (rb.putNULLTerminator.size - k - token.length + 1))).bytes = [] := by
        cases hpart : io.partialReadBuffer with
        | none => exact ⟨MemBuffer.plain_new _, by simp⟩
        | some part => exact ⟨hplain.2 part hpart, by simpa [hpart] using hempty⟩
      have htail : rb.putNULLTerminator.offsetRead (k + token.length)
          (rb.putNULLTerminator.size - k - token.length) =
            rb.putNULLTerminator.bytes.drop (k + token.length) := by
        rw [hp'.offsetRead (by omega), take_of_length_le]
        rw [length_drop, hlen]
        omega
      simp only [hsize, hcut]
      refine dispatch_framed ⟨?_, ?_⟩ ⟨?_, ?_, ?_⟩ rfl ?_ upper
      · rintro mb ⟨⟩
        exact hshrink.putNULLTerminator
      · rintro mb ⟨⟩
        exact hpart.1.add _
      · rw [held_some, held_some, hshrink.bytes_putNULLTerminator, hp'.bytes_shrink hin,
          hpart.1.bytes_add, hpart.2, nil_append, htail, append_assoc,
          take_append_drop, hp.bytes_putNULLTerminator]
        exact hstream
      · exact h.ended
      · rw [held_some, hpart.1.bytes_add, hpart.2, nil_append, htail]
        exact hnone
      · rw [hshrink.bytes_putNULLTerminator, hp'.bytes_shrink hin]
        exact hsuffix
    · rename_i hrest
      have hall : k + token.length = rb.putNULLTerminator.bytes.length := by omega
      refine dispatch_framed hkept.1 hkept.2 rfl ?_ upper
      rw [hall, take_length] at hsuffix
      exact hsuffix
  · rw [if_neg (by omega)]
    exact hkept

/-- One read on a side that is set up for `token`. -/
def IoData.step (token : List UInt8) (io : IoData) (e : Read × Upper) : IoData :=
  (finishRead (io.absorb (fun _ => none) e.1) true (fun io =>
    match io.readBuffer with
    | none => io
    | some rb => io.syncReadBuffer rb token 0 e.2) e.2).1

theorem step_framed (hne : token ≠ []) (hplain : io.Plain) (h : Framed token io got)
    (e : Read × Upper) :
    (io.step token e).Plain ∧ Framed token (io.step token e) (got ++ e.1.absorbed) := by
  obtain ⟨hplain', hframed, hempty⟩ := absorb_framed hne hplain h e.1
  obtain ⟨rb, hrb⟩ := absorb_readBuffer io (fun _ => none) e.1
  unfold IoData.step IoData.finishRead
  split
  · exact ⟨hplain', hframed⟩
  · simp only [if_true, hrb]
    exact syncReadBuffer_framed hne hplain' hframed hrb hempty le_rfl e.2

def received (es : List (Read × Upper)) : List UInt8 := (es.map (·.1.absorbed)).flatten

theorem steps_framed (hne : token ≠ []) (hplain : io.Plain)
    (h : Framed token io got) (es : List (Read × Upper)) :
    Framed token (es.foldl (IoData.step token) io) (got ++ received es) := by
  induction es generalizing io got with
  | nil => simpa [received] using h
  | cons e es ih =>
      obtain ⟨hplain', hframed⟩ := step_framed hne hplain h e
      simpa [received] using ih hplain' hframed

theorem framed_empty (hne : token ≠ []) : IoData.Plain {} ∧ Framed token {} [] :=
  ⟨⟨by simp, by simp⟩, ⟨rfl, by simp, not_infix_nil hne⟩⟩

end Framing

/-- A client in self-sync mode, without transform or maximum. -/
def CommEvTCPClient.fresh (token : List UInt8) : CommEvTCPClient :=
  { selfSync := true, tokenStr := token, maxBufferSz := 0, transform := fun _ => none, io := {} }

/-- A connection in self-sync mode, without transform or maximum. -/
def CommEvTCPServerConn.fresh (token : List UInt8) : CommEvTCPServerConn :=
  { selfSync := true, tokenStr := some token, maxBufferSz := 0, transform := fun _ => none
    io := {} }

section Runs

variable (token : List UInt8)

theorem CommEvTCPClient.step_io (io : IoData) (e : Read × Upper) :
    ({ CommEvTCPClient.fresh token with io := io }.processBuffer e).1 =
      { CommEvTCPClient.fresh token with io := io.step token e } := by
  simp only [processBuffer, IoData.step, fresh]
  congr 3

theorem CommEvTCPServerConn.step_io (io : IoData) (e : Read × Upper) :
    ({ CommEvTCPServerConn.fresh token with io := io }.processBuffer e).1 =
      { CommEvTCPServerConn.fresh token with io := io.step token e } := by
  simp only [processBuffer, IoData.step, fresh]
  congr 3
  funext io
  cases hrb : io.readBuffer <;> simp [selfSyncReadBuffer, hrb]

theorem CommEvTCPClient.run_io (io : IoData) (es : List (Read × Upper)) :
    ({ CommEvTCPClient.fresh token with io := io }.run es).io =
      es.foldl (IoData.step token) io := by
  induction es generalizing io with
  | nil => rfl
  | cons e es ih =>
      rw [foldl_cons, ← ih (io.step token e), ← step_io]
      rfl

theorem CommEvTCPServerConn.run_io (io : IoData) (es : List (Read × Upper)) :
    ({ CommEvTCPServerConn.fresh token with io := io }.run es).io =
      es.foldl (IoData.step token) io := by
  induction es generalizing io with
  | nil => rfl
  | cons e es ih =>
      rw [foldl_cons, ← ih (io.step token e), ← step_io]
      rfl

/-- What is dispatched there, and what is carried over. -/
example :
    (((CommEvTCPClient.fresh [13, 10]).run
        [(⟨2, [], some [65, 13]⟩, .clean), (⟨2, [], some [10, 66]⟩, .destroy)]).io.dispatched,
      held ((CommEvTCPClient.fresh [13, 10]).run
        [(⟨2, [], some [65, 13]⟩, .clean), (⟨2, [], some [10, 66]⟩, .destroy)]).io.partialReadBuffer)
      = ([[65, 13, 10]], [66]) := by decide

end Runs

end Tcp
