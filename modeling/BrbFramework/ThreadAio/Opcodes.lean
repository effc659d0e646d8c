import BrbFramework.ThreadAio.Queue

/-!
# What a worker does with a request

The handlers of the opcodes run in a worker. They reach the world by calls, and what a
call answers is the environment's. The calls of one request are kept in order, so that one
can tell from them whether its operation was issued and how it ended.

A handler leaves the request what it is, but two of them may write its size.
-/

namespace ThreadAIO

open Handler

/-- What `waitpid` says about a child. -/
inductive WaitStatus
  | exited (code : UInt8)
  | signaled (sig : Nat) (core : Bool)
  | stopped (sig : Nat)
  | continued
  deriving DecidableEq, Repr

namespace WaitStatus

/-- `WIFEXITED` or `WIFSIGNALED`. -/
def isFinal : WaitStatus → Bool
  | exited _ | signaled _ _ => true
  | stopped _ | continued => false

/-- The status as an `int`. -/
def pstat : WaitStatus → Int
  | exited code => 256 * code.toNat
  | signaled sig core => sig + if core then 128 else 0
  | stopped sig => 256 * sig + 127
  | continued => 65535

def fine (status : WaitStatus) : Bool := status == exited 0

end WaitStatus

inductive Call
  | open (path : Option String) (flags : Int) (mode : Nat)
  | close (fd : Int)
  | stat (path : String)
  | fstat (fd : Int)
  | pread (fd size offset : Int)
  | pwrite (fd size offset : Int)
  | unlink (path : String)
  | rename (path dst : String)
  | truncate (path : String) (size : Int)
  | fork (command : String) (args : List String)
  | waitpid
  | mkdir (path : String) (mode : Nat)
  | chown (path : String) (uid gid : Nat)
  | mount (path dev : String) (flags : Int)
  | unmount (path : String) (flags : Int)
  | custom (readCb : Nat)
  deriving DecidableEq, Repr

structure Answer where
  ret : Int := 0
  /-- `errno` after the call. -/
  errno : Int := 0
  /-- `st_size`, of `stat` and `fstat`. -/
  stSize : Int := 0
  /-- What `pread` wrote into the buffer. -/
  bytes : List UInt8 := []
  /-- What `waitpid` wrote, if it did not fail. -/
  status : WaitStatus := .exited 0
  deriving DecidableEq, Repr

/-- `EINTR`. -/
abbrev eintr : Int := 4

/-- What a custom callback leaves in its request. -/
structure CustomResult where
  ret : Int := 0
  err : Int := 0
  data : EvAIOReqData := {}
  deriving DecidableEq, Repr

structure Env where
  /-- The code is compiled where `linux` is defined. -/
  linux : Bool := true
  /-- The answer to a call that comes after so many others. -/
  answer : Nat → Call → Answer := fun _ _ => {}
  custom : EvAIOReq → CustomResult := fun _ => {}
  /-- What is in the variable that `waitpid` has not written yet. -/
  garbage : WaitStatus := .continued
  /-- How often `waitpid` returns. -/
  waits : Nat := 1

structure Worker where
  req : EvAIOReq
  calls : List (Call × Answer) := []

abbrev WorkerM := EStateM Fault Worker

section Handlers

variable (env : Env)

def issue (call : Call) : WorkerM Answer :=
  modifyGet fun w =>
    (env.answer w.calls.length call,
      { w with calls := w.calls ++ [(call, env.answer w.calls.length call)] })

def modifyReq (f : EvAIOReq → EvAIOReq) : WorkerM PUnit :=
  modify fun w => { w with req := f w.req }

/-- A call whose result is the result of the request. -/
def issueRet (call : Call) : WorkerM PUnit := do
  let a ← issue env call
  modifyReq fun req => { req with ret := a.ret, err := a.errno }

/-- An early return that sets `err` only. -/
def giveUp (err : Int) : WorkerM PUnit := modifyReq fun req => { req with err := err }

/-- `ThreadAIOEngine_OpcodeOpen`. -/
def opcodeOpen : WorkerM PUnit := do
  let w ← get
  let a ← issue env (.open w.req.file.pathStr w.req.file.flags w.req.file.mode)
  modifyReq fun req => { req with ret := a.ret, fd := a.ret, err := a.errno }

/-- `ThreadAIOEngine_OpcodeClose`. -/
def opcodeClose : WorkerM PUnit := do
  let w ← get
  issueRet env (.close w.req.fd)

/-- The read of `ThreadAIOEngine_OpcodeReadToMemBuffer`, from the descriptor of the request
or from a file that was opened for it. What was read goes into a new `MemBuffer`. -/
def readToMemBuffer (fd : Int) : WorkerM PUnit := do
  let w ← get
  let a ← issue env (.pread fd w.req.data.size w.req.data.offset)
  modifyReq fun req => { req with ret := a.ret, err := a.errno }
  if a.ret > 0 then
    let dstMb := DataPtr.memBuffer (a.bytes.take a.ret.toNat)
    modifyReq fun req =>
      { req with data.ptr := some dstMb, destroyFunc := some 0, destroyCbdata := some dstMb }

/-- The tail of `ThreadAIOEngine_OpcodeReadToMemBuffer`, when the size is known. -/
def readKnownSize : WorkerM PUnit := do
  let w ← get
  if w.req.fd ≥ 0 then
    readToMemBuffer env w.req.fd
  else
    assertThat w.req.file.pathStr.isSome .assertion
    let file ← issue env (.open w.req.file.pathStr 0 0)
    if file.ret < 0 then
      modifyReq fun req => { req with err := file.errno, ret := -1 }
    else
      readToMemBuffer env file.ret
      let _ ← issue env (.close file.ret)

def statCall (req : EvAIOReq) : Call :=
  match req.file.pathStr with
  | some path => .stat path
  | none => .fstat req.fd

/-- `ThreadAIOEngine_OpcodeReadToMemBuffer`. -/
def opcodeReadToMemBuffer : WorkerM PUnit := do
  let w ← get
  assertThat (decide (w.req.data.offset ≥ 0)) .assertion
  if w.req.data.size < 0 then
    let a ← issue env (statCall w.req)
    modifyReq fun req => { req with ret := a.ret }
    if a.ret < 0 then
      modifyReq fun req => { req with err := a.errno }
    else
      modifyReq fun req => { req with data.size := a.stSize }
      readKnownSize env
  else
    readKnownSize env

/-- `ThreadAIOEngine_OpcodeRead`. -/
def opcodeRead : WorkerM PUnit := do
  let w ← get
  assertThat (decide (w.req.data.offset ≥ 0)) .assertion
  issueRet env (.pread w.req.fd w.req.data.size w.req.data.offset)

/-- `MemBufferGetSize` of what the data of the request lead to. -/
def srcSize (data : Option DataPtr) : Int :=
  match data with
  | some (.memBuffer bytes) => bytes.length
  | _ => 0

/-- `O_WRONLY | O_CREAT`. -/
abbrev writeCreate : Int := 65

/-- `ThreadAIOEngine_OpcodeWriteFromMemBuffer`. -/
def opcodeWriteFromMemBuffer : WorkerM PUnit := do
  let w ← get
  let dataSz := srcSize w.req.data.ptr
  assertThat (decide (w.req.data.offset ≥ 0)) .assertion
  if w.req.fd ≥ 0 then
    issueRet env (.pwrite w.req.fd dataSz w.req.data.offset)
  else
    assertThat w.req.file.pathStr.isSome .assertion
    let file ← issue env (.open w.req.file.pathStr writeCreate 0o644)
    if file.ret < 0 then
      modifyReq fun req => { req with ret := -1, err := file.errno }
    else
      issueRet env (.pwrite file.ret dataSz w.req.data.offset)
      let _ ← issue env (.close file.ret)

/-- `ThreadAIOEngine_OpcodeWrite`. -/
def opcodeWrite : WorkerM PUnit := do
  let w ← get
  if w.req.data.ptr = none ∨ w.req.data.size ≤ 0 then
    giveUp (-1)
  else
    assertThat (decide (w.req.data.offset ≥ 0)) .assertion
    issueRet env (.pwrite w.req.fd w.req.data.size w.req.data.offset)

/-- `ThreadAIOEngine_OpcodeStat`. -/
def opcodeStat : WorkerM PUnit := do
  let w ← get
  match w.req.file.pathStr with
  | none => giveUp (-1)
  | some path =>
      let a ← issue env (.stat path)
      modifyReq fun req => { req with ret := a.ret, err := a.errno, file.stSize := a.stSize }

/-- `ThreadAIOEngine_OpcodeUnlink`. -/
def opcodeUnlink : WorkerM PUnit := do
  let w ← get
  match w.req.file.pathStr with
  | none => giveUp (-1)
  | some path => issueRet env (.unlink path)

/-- The loop of `ThreadAIOEngine_system` around `waitpid`, which fails with -1. A wait that
is interrupted goes to the test of the loop, with what the variable holds. -/
def waitLoop (pstat : WaitStatus) : Nat → WorkerM Int
  | 0 => throw .waiting
  | waits + 1 => do
      let a ← issue env .waitpid
      if a.ret < 0 then
        if a.errno ≠ eintr then
          throw .exitFailure
        else if pstat.isFinal then
          return -2
        else
          waitLoop pstat waits
      else if a.status.isFinal then
        return a.status.pstat
      else
        waitLoop a.status waits

/-- `ThreadAIOEngine_system`, in the parent; its callers pass a command. -/
def system (command : String) (args : List String) : WorkerM Int := do
  let pid ← issue env (.fork command args)
  if pid.ret = -1 then
    return -1
  waitLoop env env.garbage env.waits

/-- `errno`, which the last call left. -/
def errno (calls : List (Call × Answer)) : Int :=
  match calls.getLast? with
  | none => 0
  | some (_, a) => a.errno

/-- The helper command whose result is the result of the request. -/
def runHelper (command : String) (args : List String) : WorkerM PUnit := do
  let ret ← system env command args
  let w ← get
  modifyReq fun req => { req with ret := ret, err := errno w.calls }

abbrev threadCommandRm : String := "/bin/rm"
abbrev threadCommandCp : String := "/bin/cp"
abbrev threadCommandMv : String := "/bin/mv"

/-- `ThreadAIOEngine_OpcodeRemove`. -/
def opcodeRemove : WorkerM PUnit := do
  let w ← get
  match w.req.file.pathStr with
  | none => giveUp (-1)
  | some path =>
      if path = "/" then giveUp (-2)
      else if path = "." then giveUp (-2)
      else runHelper env threadCommandRm [threadCommandRm, "-rf", path]

/-- A handler of `path_str` and `dev_str`, which gives up where one is missing. -/
def withBoth (f : String → String → WorkerM PUnit) : WorkerM PUnit := do
  let w ← get
  match w.req.file.pathStr, w.req.file.devStr with
  | some path, some dev => f path dev
  | _, _ => giveUp (-1)

/-- `ThreadAIOEngine_OpcodeRename`. -/
def opcodeRename : WorkerM PUnit :=
  withBoth fun path dev => issueRet env (.rename path dev)

/-- `ThreadAIOEngine_OpcodeTruncate`. -/
def opcodeTruncate : WorkerM PUnit := do
  let w ← get
  match w.req.file.pathStr with
  | none => giveUp (-1)
  | some path =>
      if w.req.data.size ≤ 0 then giveUp (-1)
      else issueRet env (.truncate path w.req.data.size)

/-- `ThreadAIOEngine_OpcodeCopy`. -/
def opcodeCopy : WorkerM PUnit :=
  withBoth fun path dev => runHelper env threadCommandCp [threadCommandCp, "-a", path, dev]

/-- `ThreadAIOEngine_OpcodeMove`. -/
def opcodeMove : WorkerM PUnit :=
  withBoth fun path dev => runHelper env threadCommandMv [threadCommandMv, path, dev]

/-- The loop of the handlers that try again after a failure: `retry_count-- >= 0`. -/
def retryLoop (call : Call) : Nat → WorkerM PUnit
  | 0 => return
  | tries + 1 => do
      let a ← issue env call
      modifyReq fun req => { req with ret := a.ret, err := a.errno }
      if a.ret < 0 then
        retryLoop call tries

/-- How often the test `retry_count-- >= 0` succeeds. -/
def tries (retryCount : Int) : Nat := (retryCount + 1).toNat

/-- `ThreadAIOEngine_OpcodeMount`, whose body is compiled where `linux` is not defined. -/
def opcodeMount : WorkerM PUnit := do
  if env.linux then
    return
  let w ← get
  match w.req.file.devStr, w.req.file.pathStr with
  | some dev, some path =>
      let _ ← issue env (.mkdir path 0o222)
      let _ ← issue env (.chown path 100 100)
      retryLoop env (.mount path dev w.req.file.flags) (tries w.req.retryCount)
  | _, _ => throw .assertion

/-- `ThreadAIOEngine_OpcodeUnMount`. -/
def opcodeUnMount : WorkerM PUnit := do
  if env.linux then
    return
  let w ← get
  match w.req.file.pathStr <|> w.req.file.devStr with
  | some path => retryLoop env (.unmount path w.req.file.flags) (tries w.req.retryCount)
  | none => throw .assertion

/-- `ThreadAIOEngine_OpcodeCustom`. -/
def opcodeCustom : WorkerM PUnit := do
  let w ← get
  match w.req.readCb with
  | none => throw .assertion
  | some readCb =>
      let _ ← issue env (.custom readCb)
      modifyReq fun req =>
        { req with
          ret := (env.custom req).ret, err := (env.custom req).err
          data := (env.custom req).data }

def opcodeHandler : EvAIOReqCode → WorkerM PUnit
  | .opOpen => opcodeOpen env
  | .opClose => opcodeClose env
  | .opReadMB => opcodeReadToMemBuffer env
  | .opRead => opcodeRead env
  | .opWriteMB => opcodeWriteFromMemBuffer env
  | .opWrite => opcodeWrite env
  | .opStat => opcodeStat env
  | .opUnlink => opcodeUnlink env
  | .opRemove => opcodeRemove env
  | .opTruncate => opcodeTruncate env
  | .opRename => opcodeRename env
  | .opCopy => opcodeCopy env
  | .opMove => opcodeMove env
  | .opMount => opcodeMount env
  | .opUnmount => opcodeUnMount env
  | .opCustom => opcodeCustom env
  | .opNone | .opTar | .opUntar | .opLastItem => throw .assertion

/-- The test by which `ThreadAIOEngine_JobFinish` tells success from failure. -/
def EvAIOReq.succeeded (req : EvAIOReq) : Bool := decide (req.ret > -1)

/-- `ThreadAIOEngine_OpcodeDispatch`. -/
def opcodeDispatch : WorkerM PUnit := do
  let w ← get
  opcodeHandler env w.req.aioOpcode
  let w ← get
  if w.req.ret < 0 then
    modifyReq fun req => { req with flags.aioFailed := true }

end Handlers

section Rules

variable {env : Env} {w : Worker}

@[simp] theorem ends_issue {Q : Answer → Worker → Prop} {E : Fault → Worker → Prop}
    (call : Call) :
    Ends (issue env call) w Q E ↔
      Q (env.answer w.calls.length call)
        { w with calls := w.calls ++ [(call, env.answer w.calls.length call)] } := Iff.rfl

@[simp] theorem ends_modifyReq {Q : PUnit → Worker → Prop} {E : Fault → Worker → Prop}
    (f : EvAIOReq → EvAIOReq) :
    Ends (modifyReq f) w Q E ↔ Q PUnit.unit { w with req := f w.req } := Iff.rfl

@[simp] theorem ends_issueRet {Q : PUnit → Worker → Prop} {E : Fault → Worker → Prop}
    (call : Call) :
    Ends (issueRet env call) w Q E ↔
      Q PUnit.unit
        { req := { w.req with
            ret := (env.answer w.calls.length call).ret
            err := (env.answer w.calls.length call).errno }
          calls := w.calls ++ [(call, env.answer w.calls.length call)] } := Iff.rfl

@[simp] theorem ends_giveUp {Q : PUnit → Worker → Prop} {E : Fault → Worker → Prop} (err : Int) :
    Ends (giveUp err) w Q E ↔ Q PUnit.unit { w with req.err := err } := Iff.rfl

end Rules

/-! ## What a handler leaves alone -/

structure Leaves (w t : Worker) : Prop where
  aioOpcode : t.req.aioOpcode = w.req.aioOpcode
  id : t.req.id = w.req.id
  inUse : t.req.flags.inUse = w.req.flags.inUse

structure LeavesSize (w t : Worker) : Prop extends Leaves w t where
  size : t.req.data.size = w.req.data.size

instance : IsPreorder Worker Leaves where
  refl _ := ⟨rfl, rfl, rfl⟩
  trans _ _ _ h h' :=
    ⟨h'.aioOpcode.trans h.aioOpcode, h'.id.trans h.id, h'.inUse.trans h.inUse⟩

instance : IsPreorder Worker LeavesSize where
  refl _ := ⟨⟨rfl, rfl, rfl⟩, rfl⟩
  trans _ _ _ h h' := ⟨trans_of Leaves h.toLeaves h'.toLeaves, h'.size.trans h.size⟩

/-- The worker does not rewrite the positive size of the request: a size that was to be found
out is not found to be positive, and a callback does not set another one. -/
def SizeKept (env : Env) (req : EvAIOReq) : Prop :=
  (req.aioOpcode = .opReadMB →
    0 ≤ req.data.size ∨ (env.answer 0 (statCall req)).ret < 0 ∨
      (env.answer 0 (statCall req)).stSize ≤ 0) ∧
  (req.aioOpcode = .opCustom → (env.custom req).data.size.toNat = req.data.size.toNat)

instance (env : Env) (req : EvAIOReq) : Decidable (SizeKept env req) :=
  inferInstanceAs (Decidable (_ ∧ _))

section Frame

variable {env : Env} {req : EvAIOReq}

theorem along_issue (call : Call) : Along LeavesSize (issue env call) :=
  fun _ => ⟨⟨rfl, rfl, rfl⟩, rfl⟩

theorem along_issueRet (call : Call) : Along LeavesSize (issueRet env call) :=
  fun _ => ⟨⟨rfl, rfl, rfl⟩, rfl⟩

theorem along_giveUp (err : Int) : Along LeavesSize (giveUp err) :=
  fun _ => ⟨⟨rfl, rfl, rfl⟩, rfl⟩

theorem along_modifyReq {f : EvAIOReq → EvAIOReq}
    (hf : ∀ w : Worker, LeavesSize w { w with req := f w.req }) : Along LeavesSize (modifyReq f) :=
  along_modify hf

theorem along_readToMemBuffer (fd : Int) : Along LeavesSize (readToMemBuffer env fd) := by
  refine along_get_bind fun w => (along_issue _).bind fun a => Along.bind ?_ fun _ => ?_
  · exact along_modifyReq fun _ => ⟨⟨rfl, rfl, rfl⟩, rfl⟩
  · refine Along.ite ?_ (along_pure _)
    exact along_modifyReq fun _ => ⟨⟨rfl, rfl, rfl⟩, rfl⟩

theorem along_readKnownSize : Along LeavesSize (readKnownSize env) := by
  refine along_get_bind fun w => Along.ite (along_readToMemBuffer _) ?_
  refine (along_assertThat _ _).bind fun _ => (along_issue _).bind fun file => Along.ite ?_ ?_
  · exact along_modifyReq fun _ => ⟨⟨rfl, rfl, rfl⟩, rfl⟩
  · exact (along_readToMemBuffer _).bind fun _ => (along_issue _).bind fun _ => along_pure _

theorem along_waitLoop (waits : Nat) (pstat : WaitStatus) :
    Along LeavesSize (waitLoop env pstat waits) := by
  induction waits generalizing pstat with
  | zero => exact along_throw _
  | succ waits ih =>
      refine (along_issue _).bind fun a => Along.ite ?_ ?_
      · exact Along.ite (along_throw _) (Along.ite (along_pure _) (ih _))
      · exact Along.ite (along_pure _) (ih _)

theorem along_runHelper (command : String) (args : List String) :
    Along LeavesSize (runHelper env command args) := by
  refine Along.bind ?_ fun ret => along_get_bind fun w =>
    along_modifyReq fun _ => ⟨⟨rfl, rfl, rfl⟩, rfl⟩
  exact (along_issue _).bind fun pid => Along.ite (along_pure _) (along_waitLoop _ _)

theorem along_withBoth {f : String → String → WorkerM PUnit}
    (hf : ∀ path dev, Along LeavesSize (f path dev)) : Along LeavesSize (withBoth f) := by
  refine along_get_bind fun w => ?_
  split
  · exact hf _ _
  · exact along_giveUp _

theorem along_retryLoop (call : Call) (tries : Nat) :
    Along LeavesSize (retryLoop env call tries) := by
  induction tries with
  | zero => exact along_pure _
  | succ tries ih =>
      refine (along_issue _).bind fun a => Along.bind ?_ fun _ => Along.ite ih (along_pure _)
      exact along_modifyReq fun _ => ⟨⟨rfl, rfl, rfl⟩, rfl⟩

theorem along_opcodeHandler (op : EvAIOReqCode) (hread : op ≠ .opReadMB)
    (hcustom : op ≠ .opCustom) : Along LeavesSize (opcodeHandler env op) := by
  cases op with
  | opReadMB => exact absurd rfl hread
  | opCustom => exact absurd rfl hcustom
  | opOpen =>
      refine along_get_bind fun w => (along_issue _).bind fun a => ?_
      exact along_modifyReq fun _ => ⟨⟨rfl, rfl, rfl⟩, rfl⟩
  | opClose => exact along_get_bind fun w => along_issueRet _
  | opRead => exact along_get_bind fun w => (along_assertThat _ _).bind fun _ => along_issueRet _
  | opWriteMB =>
      refine along_get_bind fun w => (along_assertThat _ _).bind fun _ =>
        Along.ite (along_issueRet _) ?_
      refine (along_assertThat _ _).bind fun _ => (along_issue _).bind fun file =>
        Along.ite ?_ ?_
      · exact along_modifyReq fun _ => ⟨⟨rfl, rfl, rfl⟩, rfl⟩
      · exact (along_issueRet _).bind fun _ => (along_issue _).bind fun _ => along_pure _
  | opWrite =>
      refine along_get_bind fun w => Along.ite (along_giveUp _) ?_
      exact (along_assertThat _ _).bind fun _ => along_issueRet _
  | opStat =>
      refine along_get_bind fun w => ?_
      split
      · exact along_giveUp _
      · refine (along_issue _).bind fun a => ?_
        exact along_modifyReq fun _ => ⟨⟨rfl, rfl, rfl⟩, rfl⟩
  | opUnlink =>
      refine along_get_bind fun w => ?_
      split
      · exact along_giveUp _
      · exact along_issueRet _
  | opRemove =>
      refine along_get_bind fun w => ?_
      split
      · exact along_giveUp _
      · exact Along.ite (along_giveUp _) (Along.ite (along_giveUp _) (along_runHelper _ _))
  | opTruncate =>
      refine along_get_bind fun w => ?_
      split
      · exact along_giveUp _
      · exact Along.ite (along_giveUp _) (along_issueRet _)
  | opRename => exact along_withBoth fun _ _ => along_issueRet _
  | opCopy => exact along_withBoth fun _ _ => along_runHelper _ _
  | opMove => exact along_withBoth fun _ _ => along_runHelper _ _
  | opMount =>
      refine Along.ite (along_pure _) (along_get_bind fun w => ?_)
      split
      · exact (along_issue _).bind fun _ => (along_issue _).bind fun _ => along_retryLoop _ _
      · exact along_throw _
  | opUnmount =>
      refine Along.ite (along_pure _) (along_get_bind fun w => ?_)
      split
      · exact along_retryLoop _ _
      · exact along_throw _
  | opNone | opTar | opUntar | opLastItem => exact along_throw _

theorem opcodeReadToMemBuffer_leaves :
    Ends (opcodeReadToMemBuffer env) ⟨req, []⟩
      (fun _ t => Leaves ⟨req, []⟩ t ∧
        (0 ≤ req.data.size ∨ (env.answer 0 (statCall req)).ret < 0 ∨
            (env.answer 0 (statCall req)).stSize ≤ 0 →
          t.req.data.size.toNat = req.data.size.toNat)) fun _ _ => True := by
  unfold opcodeReadToMemBuffer
  simp only [ends_bind, ends_get, ends_ite, ends_assertThat, ends_issue, ends_modifyReq,
    List.length_nil]
  refine ⟨fun _ => ⟨fun hneg => ⟨fun _ => ⟨⟨rfl, rfl, rfl⟩, fun _ => trivial⟩, fun hret => ?_⟩,
    fun _ => ?_⟩, fun _ => trivial⟩
  · refine (along_readKnownSize _).mono (fun _ t h => ⟨?_, fun hkept => ?_⟩) fun _ _ _ => trivial
    · exact ⟨h.aioOpcode, h.id, h.inUse⟩
    · rw [h.size]
      change (env.answer 0 (statCall req)).stSize.toNat = _
      omega
  · refine (along_readKnownSize _).mono (fun _ t h => ⟨?_, fun _ => ?_⟩) fun _ _ _ => trivial
    · exact h.toLeaves
    · rw [h.size]

theorem opcodeCustom_leaves :
    Ends (opcodeCustom env) ⟨req, []⟩
      (fun _ t => Leaves ⟨req, []⟩ t ∧
        ((env.custom req).data.size.toNat = req.data.size.toNat →
          t.req.data.size.toNat = req.data.size.toNat)) fun _ _ => True := by
  unfold opcodeCustom
  simp only [ends_bind, ends_get]
  cases req.readCb with
  | none => exact trivial
  | some readCb =>
      simp only [ends_bind, ends_issue, ends_modifyReq]
      exact ⟨⟨rfl, rfl, rfl⟩, fun h => h⟩

theorem opcodeDispatch_leaves :
    Ends (opcodeDispatch env) ⟨req, []⟩
      (fun _ t => Leaves ⟨req, []⟩ t ∧
        (SizeKept env req → t.req.data.size.toNat = req.data.size.toNat)) fun _ _ => True := by
  have hflag : ∀ w : Worker, Leaves ⟨req, []⟩ w ∧
      (SizeKept env req → w.req.data.size.toNat = req.data.size.toNat) →
      Ends (if w.req.ret < 0 then modifyReq fun req => { req with flags.aioFailed := true }
        else pure PUnit.unit) w (fun _ t => Leaves ⟨req, []⟩ t ∧
        (SizeKept env req → t.req.data.size.toNat = req.data.size.toNat)) fun _ _ => True := by
    intro w hw
    rw [ends_ite]
    exact ⟨fun _ => ⟨⟨hw.1.aioOpcode, hw.1.id, hw.1.inUse⟩, hw.2⟩, fun _ => hw⟩
  unfold opcodeDispatch
  simp only [ends_bind, ends_get]
  refine Ends.mono (?_ : Ends (opcodeHandler env req.aioOpcode) ⟨req, []⟩
    (fun _ t => Leaves ⟨req, []⟩ t ∧
      (SizeKept env req → t.req.data.size.toNat = req.data.size.toNat)) fun _ _ => True)
    (fun _ w hw => hflag w hw) fun _ _ _ => trivial
  by_cases hread : req.aioOpcode = .opReadMB
  · rw [hread]
    refine opcodeReadToMemBuffer_leaves.mono (fun _ t ht => ?_) fun _ _ => id
    exact ⟨ht.1, fun hkept => ht.2 (hkept.1 hread)⟩
  · by_cases hcustom : req.aioOpcode = .opCustom
    · rw [hcustom]
      refine opcodeCustom_leaves.mono (fun _ t ht => ?_) fun _ _ => id
      exact ⟨ht.1, fun hkept => ht.2 (hkept.2 hcustom)⟩
    · refine (along_opcodeHandler _ hread hcustom _).mono (fun _ t h => ?_) fun _ _ _ => trivial
      exact ⟨h.toLeaves, fun _ => by rw [h.size]⟩

end Frame

end ThreadAIO
