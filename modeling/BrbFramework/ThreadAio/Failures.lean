import BrbFramework.ThreadAio.Opcodes

/-!
# Failures of threaded requests

Success is read off `ret` alone, in the dispatcher and where the job is finished. What was
done can be told from the calls: the operation of the opcode was issued, and did not fail
the last time it was.
-/

namespace ThreadAIO

open Handler List

/-! ## What was done, as far as the calls show -/

/-- The calls by which an opcode does what it is for. -/
def isOperation : EvAIOReqCode → Call → Bool
  | .opOpen, .open .. | .opClose, .close _ | .opRead, .pread .. | .opReadMB, .pread ..
  | .opWrite, .pwrite .. | .opWriteMB, .pwrite .. | .opStat, .stat _ | .opUnlink, .unlink _
  | .opTruncate, .truncate .. | .opRename, .rename .. | .opMount, .mount ..
  | .opUnmount, .unmount .. | .opCustom, .custom _ => true
  | .opRemove, .fork .. | .opCopy, .fork .. | .opMove, .fork .. => true
  | .opRemove, .waitpid | .opCopy, .waitpid | .opMove, .waitpid => true
  | _, _ => false

/-- A call failed: its result is negative, or the helper it waited for exited with a
non-zero status or died by a signal. A callback has no result. -/
def failed : Call → Answer → Bool
  | .custom _, _ => false
  | .waitpid, a => decide (a.ret < 0) || !a.status.fine
  | _, a => decide (a.ret < 0)

/-- The operation was issued and did not fail the last time it was. -/
def happened (op : EvAIOReqCode) (calls : List (Call × Answer)) : Bool :=
  match (calls.filter fun x => isOperation op x.1).getLast? with
  | none => false
  | some (call, a) => !failed call a

/-- The failure of the operation can be told from the request. -/
structure Reported (req : EvAIOReq) : Prop where
  ret : req.ret < 0
  aioFailed : req.flags.aioFailed = true
  notCounted : req.succeeded = false

/-- A dispatch that comes to its end reports an operation that did not happen. -/
def FailuresReported (env : Env) (req : EvAIOReq) : Prop :=
  Ends (opcodeDispatch env) ⟨req, []⟩
    (fun _ w => happened req.aioOpcode w.calls = false → Reported w.req) fun _ _ => True

/-! ## When it is reported -/

/-- The handler of the request issues its operation, or does not return. -/
def Checked (env : Env) (req : EvAIOReq) : Prop :=
  match req.aioOpcode with
  | .opWrite => req.data.ptr ≠ none ∧ 0 < req.data.size
  | .opStat | .opUnlink => req.file.pathStr ≠ none
  | .opRemove =>
      req.file.pathStr ≠ none ∧ req.file.pathStr ≠ some "/" ∧ req.file.pathStr ≠ some "."
  | .opTruncate => req.file.pathStr ≠ none ∧ 0 < req.data.size
  | .opRename | .opCopy | .opMove => req.file.pathStr ≠ none ∧ req.file.devStr ≠ none
  | .opMount =>
      env.linux = false ∧
        (req.file.devStr = none ∨ req.file.pathStr = none ∨ 0 ≤ req.retryCount)
  | .opUnmount =>
      env.linux = false ∧
        (req.file.devStr = none ∧ req.file.pathStr = none ∨ 0 ≤ req.retryCount)
  | _ => True

/-- With which status the helper ends, as far as it is waited for: the first final status
among the answers of `waitpid`. -/
def helperStatus (env : Env) (k : Nat) (pstat : WaitStatus) : Nat → Option WaitStatus
  | 0 => none
  | waits + 1 =>
      let a := env.answer k .waitpid
      if a.ret < 0 then
        if a.errno = eintr ∧ pstat.isFinal = false then helperStatus env (k + 1) pstat waits
        else none
      else if a.status.isFinal then some a.status
      else helperStatus env (k + 1) a.status waits

/-- The helper command of an opcode, with its arguments. -/
def helperCommand (req : EvAIOReq) : Option (String × List String) :=
  match req.aioOpcode, req.file.pathStr, req.file.devStr with
  | .opRemove, some path, _ => some (threadCommandRm, [threadCommandRm, "-rf", path])
  | .opCopy, some path, some dev => some (threadCommandCp, [threadCommandCp, "-a", path, dev])
  | .opMove, some path, some dev => some (threadCommandMv, [threadCommandMv, path, dev])
  | _, _, _ => none

/-- A helper that is started for the request does not fail. -/
def HelperFine (env : Env) (req : EvAIOReq) : Prop :=
  ∀ command args, helperCommand req = some (command, args) → Checked env req →
    (env.answer 0 (.fork command args)).ret ≠ -1 →
      ∀ status, helperStatus env 1 env.garbage env.waits = some status → status.fine = true

section Handlers

variable {env : Env} {op : EvAIOReqCode} {req : EvAIOReq} {w : Worker} {C : Prop}

@[simp] theorem happened_nil : happened op [] = false := rfl

@[simp] theorem happened_append (calls : List (Call × Answer)) (call : Call) (a : Answer) :
    happened op (calls ++ [(call, a)]) =
      if isOperation op call then !failed call a else happened op calls := by
  unfold happened
  cases hop : isOperation op call with
  | true => simp [hop]
  | false => simp [hop]

/-- What the handler `x` of `op` does to the request: the failures can be told from `ret` if
and only if `C` holds. -/
def Tells (op : EvAIOReqCode) (x : WorkerM PUnit) (req : EvAIOReq) (C : Prop) : Prop :=
  Ends x ⟨req, []⟩ (fun _ w => (happened op w.calls = false → w.req.ret < 0) ↔ C) fun _ _ => C

theorem Tells.congr {x : WorkerM PUnit} {D : Prop} (h : Tells op x req C) (hiff : C ↔ D) :
    Tells op x req D := propext hiff ▸ h

theorem failuresReported_iff_of_tells
    (h : Tells req.aioOpcode (opcodeHandler env req.aioOpcode) req C) :
    FailuresReported env req ↔ C := by
  unfold FailuresReported opcodeDispatch
  simp only [ends_bind, ends_get]
  apply ends_partial_iff
  refine Ends.mono h (fun _ w hw => ?_) fun _ _ hC => hC
  rw [← hw, ends_ite]
  simp only [ends_modifyReq, ends_pure]
  by_cases hret : w.req.ret < 0
  · refine iff_of_true ⟨fun _ _ => ⟨hret, rfl, ?_⟩, fun hnot => absurd hret hnot⟩ fun _ => hret
    exact decide_eq_false fun h : -1 < w.req.ret => by omega
  · constructor
    · intro hall hnot
      exact (hall.2 hret hnot).ret
    · intro hall
      refine ⟨fun h => absurd h hret, fun _ hnot => ?_⟩
      exact absurd (hall hnot) hret

/-! ## The handlers -/

theorem tells_issueRet {call : Call} (hop : isOperation op call = true)
    (hfailed : ∀ a, failed call a = decide (a.ret < 0)) :
    Tells op (issueRet env call) req True := by
  unfold Tells
  simp only [ends_issueRet, happened_append, hop, hfailed]
  simp

theorem tells_giveUp (err : Int) : Tells op (giveUp err) req (req.ret < 0) := by
  unfold Tells
  simp

theorem tells_throw {f : Fault} (hC : C) : Tells op (throw f) req C := hC

theorem Tells.checked {D : Prop} {x : WorkerM PUnit} (hyes : D → Tells op x req True)
    (hno : ¬D → Tells op x req (req.ret < 0)) : Tells op x req (D ∨ req.ret < 0) := by
  by_cases hD : D
  · exact (hyes hD).congr (iff_of_true trivial (.inl hD))
  · exact (hno hD).congr (or_iff_right hD).symm

theorem tells_open : Tells .opOpen (opcodeOpen env) req True := by
  unfold Tells opcodeOpen
  simp only [ends_bind, ends_get, ends_issue, ends_modifyReq, happened_append]
  simp [isOperation, failed]

theorem tells_close : Tells .opClose (opcodeClose env) req True :=
  tells_issueRet rfl fun _ => rfl

theorem tells_read : Tells .opRead (opcodeRead env) req True := by
  unfold Tells opcodeRead
  simp only [ends_bind, ends_get, ends_assertThat]
  exact ⟨fun _ => tells_issueRet rfl fun _ => rfl, fun _ => trivial⟩

theorem readToMemBuffer_ends (fd : Int) :
    Ends (readToMemBuffer env fd) w
      (fun _ t => (happened .opReadMB t.calls = false → t.req.ret < 0) ∧
        ∀ a, happened .opReadMB (t.calls ++ [(.close fd, a)]) = happened .opReadMB t.calls)
      fun _ _ => False := by
  unfold readToMemBuffer
  simp only [ends_bind, ends_get, ends_issue, ends_modifyReq, ends_ite, ends_pure, happened_append]
  simp [isOperation, failed]

theorem readKnownSize_ends :
    Ends (readKnownSize env) w
      (fun _ t => happened .opReadMB t.calls = false → t.req.ret < 0) fun _ _ => True := by
  unfold readKnownSize
  simp only [ends_bind, ends_get, ends_ite, ends_assertThat, ends_issue, ends_modifyReq, ends_pure]
  refine ⟨fun _ => ?_, fun _ => ⟨fun _ => ⟨fun _ _ => by decide, fun _ => ?_⟩, fun _ => trivial⟩⟩
  · exact (readToMemBuffer_ends _).mono (fun _ _ h => h.1) fun _ _ => False.elim
  · refine (readToMemBuffer_ends _).mono (fun _ t h => ?_) fun _ _ => False.elim
    rw [h.2]
    exact h.1

theorem tells_readMB : Tells .opReadMB (opcodeReadToMemBuffer env) req True := by
  unfold Tells opcodeReadToMemBuffer
  simp only [ends_bind, ends_get, ends_ite, ends_assertThat, ends_issue, ends_modifyReq, iff_true]
  refine ⟨fun _ => ⟨fun _ => ⟨fun hret _ => hret, fun _ => ?_⟩, fun _ => ?_⟩, fun _ => trivial⟩
  · exact readKnownSize_ends
  · exact readKnownSize_ends

theorem tells_writeMB : Tells .opWriteMB (opcodeWriteFromMemBuffer env) req True := by
  unfold Tells opcodeWriteFromMemBuffer
  simp only [ends_bind, ends_get, ends_ite, ends_assertThat, ends_issue, ends_issueRet,
    ends_modifyReq, ends_pure, happened_append, iff_true]
  simp [isOperation, failed]

theorem tells_write :
    Tells .opWrite (opcodeWrite env) req
      ((req.data.ptr ≠ none ∧ 0 < req.data.size) ∨ req.ret < 0) := by
  refine Tells.checked (fun hD => ?_) fun hD => ?_
  · unfold Tells opcodeWrite
    have hpass : ¬(req.data.ptr = none ∨ req.data.size ≤ 0) := by
      rintro (hnone | hle)
      · exact hD.1 hnone
      · omega
    simp only [ends_bind, ends_get, if_neg hpass, ends_assertThat]
    exact ⟨fun _ => tells_issueRet rfl fun _ => rfl, fun _ => trivial⟩
  · unfold Tells opcodeWrite
    have hstop : req.data.ptr = none ∨ req.data.size ≤ 0 := by
      by_cases hnone : req.data.ptr = none
      · exact .inl hnone
      · exact .inr (Int.not_lt.mp fun hpos => hD ⟨hnone, hpos⟩)
    simp only [ends_bind, ends_get, if_pos hstop]
    exact tells_giveUp _

theorem tells_stat :
    Tells .opStat (opcodeStat env) req (req.file.pathStr ≠ none ∨ req.ret < 0) := by
  unfold Tells opcodeStat
  simp only [ends_bind, ends_get]
  cases req.file.pathStr with
  | none => exact (tells_giveUp _).congr (by simp)
  | some path =>
      simp only [ends_bind, ends_issue, ends_modifyReq, happened_append]
      simp [isOperation, failed]

theorem tells_unlink :
    Tells .opUnlink (opcodeUnlink env) req (req.file.pathStr ≠ none ∨ req.ret < 0) := by
  unfold Tells opcodeUnlink
  simp only [ends_bind, ends_get]
  cases req.file.pathStr with
  | none => exact (tells_giveUp _).congr (by simp)
  | some path => exact (tells_issueRet rfl fun _ => rfl).congr (by simp)

theorem tells_truncate :
    Tells .opTruncate (opcodeTruncate env) req
      ((req.file.pathStr ≠ none ∧ 0 < req.data.size) ∨ req.ret < 0) := by
  unfold Tells opcodeTruncate
  simp only [ends_bind, ends_get]
  cases req.file.pathStr with
  | none => exact (tells_giveUp _).congr (by simp)
  | some path =>
      simp only []
      by_cases hle : req.data.size ≤ 0
      · rw [if_pos hle]
        exact (tells_giveUp _).congr (by simp; omega)
      · rw [if_neg hle]
        exact (tells_issueRet rfl fun _ => rfl).congr (by simp; omega)

theorem tells_withBoth {f : String → String → WorkerM PUnit}
    (hf : ∀ path dev, req.file.pathStr = some path → req.file.devStr = some dev →
      Tells op (f path dev) req C) :
    Tells op (withBoth f) req
      (((req.file.pathStr ≠ none ∧ req.file.devStr ≠ none) ∨ req.ret < 0) ∧
        (req.file.pathStr ≠ none ∧ req.file.devStr ≠ none → C)) := by
  unfold Tells withBoth
  simp only [ends_bind, ends_get]
  cases hpath : req.file.pathStr with
  | none => exact (tells_giveUp _).congr (by simp)
  | some path =>
      cases hdev : req.file.devStr with
      | none => exact (tells_giveUp _).congr (by simp)
      | some dev => exact (hf path dev hpath hdev).congr (by simp)

theorem tells_rename :
    Tells .opRename (opcodeRename env) req
      ((req.file.pathStr ≠ none ∧ req.file.devStr ≠ none) ∨ req.ret < 0) :=
  (tells_withBoth fun _ _ _ _ => tells_issueRet rfl fun _ => rfl).congr (by simp)

theorem waitLoop_ends (hop : isOperation op .waitpid = true) (waits : Nat) (pstat : WaitStatus)
    (w : Worker) :
    Ends (waitLoop env pstat waits) w
      (fun ret t => t.req = w.req ∧ ((happened op t.calls = false → ret < 0) ↔
        ∀ status, helperStatus env w.calls.length pstat waits = some status →
          status.fine = true))
      fun _ _ => helperStatus env w.calls.length pstat waits = none := by
  induction waits generalizing w pstat with
  | zero => exact rfl
  | succ waits ih =>
      unfold waitLoop helperStatus
      simp only [ends_bind, ends_issue, ends_ite, ends_throw, ends_pure, happened_append, hop]
      refine ⟨fun hret => ⟨fun herrno => ?_, fun herrno => ⟨fun hfinal => ?_, fun hfinal => ?_⟩⟩,
        fun hret => ⟨fun hfinal => ?_, fun hfinal => ?_⟩⟩
      · rw [if_pos hret, if_neg fun h => herrno h.1]
      · have hstop : ¬((env.answer w.calls.length .waitpid).errno = eintr ∧
            pstat.isFinal = false) := by simp [hfinal]
        rw [if_pos hret, if_neg hstop]
        exact ⟨trivial, iff_of_true (fun _ => by decide) (by simp)⟩
      · rw [if_pos hret, if_pos ⟨not_not.mp herrno, Bool.eq_false_iff.mpr hfinal⟩]
        have h := ih pstat { w with
          calls := w.calls ++ [(.waitpid, env.answer w.calls.length .waitpid)] }
        simpa only [length_append, length_singleton] using h
      · rw [if_neg hret, if_pos hfinal]
        refine ⟨trivial, ?_⟩
        have hpos : ¬(env.answer w.calls.length .waitpid).status.pstat < 0 := by
          cases (env.answer w.calls.length .waitpid).status with
          | exited code => simp only [WaitStatus.pstat]; omega
          | signaled sig core => simp only [WaitStatus.pstat]; split <;> omega
          | stopped sig => simp only [WaitStatus.pstat]; omega
          | continued => decide
        simp [failed, hpos, hret]
      · rw [if_neg hret, if_neg hfinal]
        have h := ih (env.answer w.calls.length .waitpid).status { w with
          calls := w.calls ++ [(.waitpid, env.answer w.calls.length .waitpid)] }
        simpa only [length_append, length_singleton] using h

theorem tells_runHelper {command : String} {args : List String}
    (hfork : isOperation op (.fork command args) = true)
    (hop : isOperation op .waitpid = true) :
    Tells op (runHelper env command args) req
      ((env.answer 0 (.fork command args)).ret ≠ -1 →
        ∀ status, helperStatus env 1 env.garbage env.waits = some status →
          status.fine = true) := by
  unfold Tells runHelper system
  simp only [ends_bind, ends_issue, ends_ite, ends_pure, ends_get, ends_modifyReq, happened_append,
    hfork, length_nil]
  refine ⟨fun hret => ?_, fun hret => ?_⟩
  · exact iff_of_true (fun _ => by decide) fun h => absurd hret h
  · refine (waitLoop_ends hop _ _ _).mono (fun ret t h => ?_) fun _ _ h _ status hstatus => ?_
    · rw [h.2]
      exact ⟨fun h _ => h, fun h => h hret⟩
    · rw [nil_append, length_singleton] at h
      rw [h] at hstatus
      cases hstatus

theorem retryLoop_ends {call : Call} (hop : isOperation op call = true)
    (hfailed : ∀ a, failed call a = decide (a.ret < 0)) (tries : Nat) (w : Worker)
    (hw : 0 < tries ∨ (happened op w.calls = false → w.req.ret < 0)) :
    Ends (retryLoop env call tries) w
      (fun _ t => happened op t.calls = false → t.req.ret < 0) fun _ _ => False := by
  induction tries generalizing w with
  | zero => exact hw.resolve_left (Nat.lt_irrefl 0)
  | succ tries ih =>
      unfold retryLoop
      simp only [ends_bind, ends_issue, ends_modifyReq, ends_ite, ends_pure, happened_append, hop,
        hfailed]
      refine ⟨fun hret => ih _ (.inr fun _ => hret), fun hret hnot => ?_⟩
      simp [hret] at hnot

theorem tells_remove (hop : req.aioOpcode = .opRemove) :
    Tells .opRemove (opcodeRemove env) req
      ((Checked env req ∨ req.ret < 0) ∧ HelperFine env req) := by
  unfold Tells opcodeRemove
  simp only [ends_bind, ends_get, Checked, HelperFine, helperCommand, hop]
  cases req.file.pathStr with
  | none => exact (tells_giveUp _).congr (by simp)
  | some path =>
      simp only []
      by_cases hroot : path = "/"
      · rw [if_pos hroot]
        exact (tells_giveUp _).congr (by simp [hroot])
      · rw [if_neg hroot]
        by_cases hdot : path = "."
        · rw [if_pos hdot]
          exact (tells_giveUp _).congr (by simp [hdot])
        · rw [if_neg hdot]
          exact (tells_runHelper rfl rfl).congr (by simp [hroot, hdot])

theorem tells_helperOfBoth {command : String} {args : String → String → List String}
    (hchecked : Checked env req ↔ req.file.pathStr ≠ none ∧ req.file.devStr ≠ none)
    (hcommand : ∀ path dev, req.file.pathStr = some path → req.file.devStr = some dev →
      helperCommand req = some (command, args path dev))
    (hfork : ∀ path dev, isOperation op (.fork command (args path dev)) = true)
    (hop : isOperation op .waitpid = true) :
    Tells op (withBoth fun path dev => runHelper env command (args path dev)) req
      ((Checked env req ∨ req.ret < 0) ∧ HelperFine env req) := by
  have hboth : Tells op (withBoth fun path dev => runHelper env command (args path dev)) req _ :=
    tells_withBoth (C := Checked env req → HelperFine env req) fun path dev hpath hdev => by
      refine (tells_runHelper (hfork path dev) hop).congr ?_
      constructor
      · intro h hc command' args' hcommand' _
        rw [hcommand path dev hpath hdev] at hcommand'
        obtain ⟨rfl, rfl⟩ := Prod.mk.inj (Option.some.inj hcommand')
        exact h
      · intro h
        have hc : Checked env req := hchecked.mpr ⟨by simp [hpath], by simp [hdev]⟩
        exact h hc _ _ (hcommand _ _ hpath hdev) hc
  refine hboth.congr ?_
  rw [← hchecked]
  refine and_congr_right fun _ => ⟨fun h command' args' hcommand' hc => ?_, fun h _ _ => h⟩
  exact h hc hc command' args' hcommand' hc

theorem tells_copy (hop : req.aioOpcode = .opCopy) :
    Tells .opCopy (opcodeCopy env) req
      ((Checked env req ∨ req.ret < 0) ∧ HelperFine env req) := by
  refine tells_helperOfBoth (by simp only [Checked, hop]) (fun path dev hpath hdev => ?_)
    (fun _ _ => rfl) rfl
  simp only [helperCommand, hop, hpath, hdev]

theorem tells_move (hop : req.aioOpcode = .opMove) :
    Tells .opMove (opcodeMove env) req
      ((Checked env req ∨ req.ret < 0) ∧ HelperFine env req) := by
  refine tells_helperOfBoth (by simp only [Checked, hop]) (fun path dev hpath hdev => ?_)
    (fun _ _ => rfl) rfl
  simp only [helperCommand, hop, hpath, hdev]

theorem tells_retryLoop (op : EvAIOReqCode) {call : Call} (hop : isOperation op call = true)
    (hfailed : ∀ a, failed call a = decide (a.ret < 0)) (hreq : w.req = req)
    (hcalls : happened op w.calls = false) :
    Ends (retryLoop env call (tries req.retryCount)) w
      (fun _ t => (happened op t.calls = false → t.req.ret < 0) ↔
        0 ≤ req.retryCount ∨ req.ret < 0) fun _ _ => False := by
  by_cases hret : 0 ≤ req.retryCount ∨ req.ret < 0
  · refine (retryLoop_ends hop hfailed _ _ ?_).mono (fun _ t h => iff_of_true h hret)
      fun _ _ => id
    rcases hret with hcount | hneg
    · left
      unfold tries
      omega
    · exact .inr fun _ => hreq ▸ hneg
  · have hzero : tries req.retryCount = 0 := by
      unfold tries
      omega
    rw [hzero]
    refine iff_of_false (fun h => ?_) hret
    exact hret (.inr (hreq ▸ h hcalls))

theorem tells_mount (hop : req.aioOpcode = .opMount) :
    Tells .opMount (opcodeMount env) req (Checked env req ∨ req.ret < 0) := by
  unfold Tells opcodeMount
  simp only [Checked, hop, ends_ite, ends_bind, ends_pure, ends_get]
  refine ⟨fun hlinux => ?_, fun hlinux => ?_⟩
  · simp [hlinux]
  · cases hdev : req.file.devStr with
    | none => exact .inl ⟨by simpa using hlinux, .inl rfl⟩
    | some dev =>
        cases hpath : req.file.pathStr with
        | none => exact .inl ⟨by simpa using hlinux, .inr (.inl rfl)⟩
        | some path =>
            simp only [ends_bind, ends_issue]
            refine Ends.mono (tells_retryLoop .opMount rfl (fun _ => rfl) rfl rfl) (fun _ t h => ?_)
              fun _ _ => False.elim
            rw [h]
            simp [hlinux]

theorem tells_unMount (hop : req.aioOpcode = .opUnmount) :
    Tells .opUnmount (opcodeUnMount env) req (Checked env req ∨ req.ret < 0) := by
  unfold Tells opcodeUnMount
  simp only [Checked, hop, ends_ite, ends_bind, ends_pure, ends_get]
  refine ⟨fun hlinux => ?_, fun hlinux => ?_⟩
  · simp [hlinux]
  · cases hpath : (req.file.pathStr <|> req.file.devStr) with
    | none =>
        have hnone : req.file.pathStr = none ∧ req.file.devStr = none := by
          simpa using hpath
        exact .inl ⟨by simpa using hlinux, .inl ⟨hnone.2, hnone.1⟩⟩
    | some path =>
        have hsome : ¬(req.file.devStr = none ∧ req.file.pathStr = none) := by
          rintro ⟨hdev, hno⟩
          simp [hdev, hno] at hpath
        simp only []
        refine Ends.mono (tells_retryLoop .opUnmount rfl (fun _ => rfl) rfl rfl) (fun _ t h => ?_)
          fun _ _ => False.elim
        rw [h]
        simp [hlinux, hsome]

theorem tells_custom : Tells .opCustom (opcodeCustom env) req True := by
  unfold Tells opcodeCustom
  simp only [ends_bind, ends_get]
  cases req.readCb with
  | none => exact trivial
  | some readCb =>
      simp only [ends_bind, ends_issue, ends_modifyReq, happened_append]
      simp [isOperation, failed]

/-- **Failures of threaded requests.**  An operation that did not happen is reported if and
only if the handler did not give up before it, or found `ret` negative, and no helper that it
started ended with a bad status. -/
theorem failures_reported_iff (env : Env) (req : EvAIOReq) :
    FailuresReported env req ↔ (Checked env req ∨ req.ret < 0) ∧ HelperFine env req := by
  apply failuresReported_iff_of_tells
  cases hop : req.aioOpcode with
  | opOpen => exact tells_open.congr (by simp [Checked, HelperFine, helperCommand, hop])
  | opClose => exact tells_close.congr (by simp [Checked, HelperFine, helperCommand, hop])
  | opReadMB => exact tells_readMB.congr (by simp [Checked, HelperFine, helperCommand, hop])
  | opRead => exact tells_read.congr (by simp [Checked, HelperFine, helperCommand, hop])
  | opWriteMB => exact tells_writeMB.congr (by simp [Checked, HelperFine, helperCommand, hop])
  | opWrite => exact tells_write.congr (by simp [Checked, HelperFine, helperCommand, hop])
  | opStat => exact tells_stat.congr (by simp [Checked, HelperFine, helperCommand, hop])
  | opUnlink => exact tells_unlink.congr (by simp [Checked, HelperFine, helperCommand, hop])
  | opRemove => exact tells_remove hop
  | opTruncate => exact tells_truncate.congr (by simp [Checked, HelperFine, helperCommand, hop])
  | opRename => exact tells_rename.congr (by simp [Checked, HelperFine, helperCommand, hop])
  | opCopy => exact tells_copy hop
  | opMove => exact tells_move hop
  | opMount =>
      exact (tells_mount hop).congr (by simp [HelperFine, helperCommand, hop])
  | opUnmount =>
      exact (tells_unMount hop).congr (by simp [HelperFine, helperCommand, hop])
  | opCustom => exact tells_custom.congr (by simp [Checked, HelperFine, helperCommand, hop])
  | opNone | opTar | opUntar | opLastItem =>
      exact tells_throw (by simp [Checked, HelperFine, helperCommand, hop])

/-- The root is not removed, a copy fails with status 1, and both requests are counted as
successes. -/
theorem silent_failures :
    ¬FailuresReported {} { aioOpcode := .opRemove, file.pathStr := some "/" } ∧
      ¬FailuresReported { answer := fun _ _ => { status := .exited 1 } }
        { aioOpcode := .opCopy, file.pathStr := some "a", file.devStr := some "b" } := by
  constructor
  · intro h
    have hreported : Reported _ := h rfl
    exact absurd hreported.ret (by decide)
  · intro h
    have hreported : Reported _ := h rfl
    exact absurd hreported.ret (by decide)

end Handlers

end ThreadAIO
