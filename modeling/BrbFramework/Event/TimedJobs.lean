import BrbFramework.Lib.Machine
import Mathlib.Data.List.Induction

/-!
# Timed jobs

A timed job runs at a time of day, on one weekday, from Monday to Friday or every
day. A timer of one second walks the timed jobs; whether a job runs is decided
from the weekday and the time, a number `hhmmss` that has to be less than 60 behind
the job's own, and from the weekday and the second of its last run.

The clock is the list of the seconds at which the timer fires. `localtime` breaks
them down with the offset that a time zone has at that second. The walk is modelled
for callbacks that leave the jobs alone, and a job that is in the list is active.
-/

namespace EvKQJobs.Timed

open Machine List

/-- `EvKQBaseJobWeekDays`. -/
inductive WeekDays
  | sunday | monday | tuesday | wednesday | thursday | friday | saturday
  | mondayFriday | everyday
  deriving DecidableEq, Repr

def WeekDays.code : WeekDays → Int
  | sunday => 0 | monday => 1 | tuesday => 2 | wednesday => 3 | thursday => 4 | friday => 5
  | saturday => 6 | mondayFriday => 7 | everyday => 8

structure EvKQQueuedJob where
  id : Nat
  targetDay : WeekDays
  /-- `hhmmss`. -/
  mask : Int
  invokeTs : Int := 0
  invokeDay : Int := -1
  enabled : Bool := true
  persist : Bool
  canceled : Bool := false
  deriving DecidableEq, Repr

structure Call where
  id : Nat
  ts : Int
  deriving DecidableEq, Repr

structure EvKQBase where
  curInvokeTsSec : Int := 0
  timedJobs : List EvKQQueuedJob := []
  /-- The callbacks so far, which no function of the source reads. -/
  log : List Call := []
  deriving DecidableEq, Repr

/-- `EvKQJobsTimedParse` of three numbers. -/
def timedParse (hour min sec : Int) : Option Int :=
  if hour < 0 ∨ hour > 24 ∨ min < 0 ∨ min > 60 ∨ sec < 0 ∨ sec > 60 then none
  else some (hour * 10000 + min * 100 + sec)

/-- `EvKQJobsAddTimed` in the slot `id`. -/
def addTimed (s : EvKQBase) (id : Nat) (persist : Bool) (day : WeekDays) (hour min sec : Int) :
    EvKQBase × Int :=
  match timedParse hour min sec with
  | none => (s, -1)
  | some mask =>
      ({ s with timedJobs := { id, targetDay := day, mask, persist } :: s.timedJobs }, id)

/-! ## The clock -/

structure Tm where
  wday : Int
  hour : Int
  min : Int
  sec : Int
  deriving DecidableEq, Repr

/-- The day at the second `ts`, where the clock is `zone ts` seconds ahead. -/
def localDay (zone : Int → Int) (ts : Int) : Int := (ts + zone ts) / 86400

/-- `localtime`. The day 0 was a Thursday. -/
def localtime (zone : Int → Int) (ts : Int) : Tm :=
  let rem := (ts + zone ts) % 86400
  { wday := (localDay zone ts + 4) % 7
    hour := rem / 3600
    min := rem % 3600 / 60
    sec := rem % 60 }

def Tm.mask (tm : Tm) : Int := tm.hour * 10000 + tm.min * 100 + tm.sec

/-! ## The walk -/

/-- `EvKQJobsTimedWillDispatch`. -/
def timedWillDispatch (curInvokeTsSec : Int) (job : EvKQQueuedJob) (timeMask weekDay : Int) :
    Bool :=
  let timeDelta := timeMask - job.mask
  let invokeDelta := if job.invokeTs > 0 then int32 (curInvokeTsSec - job.invokeTs) else -1
  if !job.enabled then false
  else if job.targetDay = .mondayFriday ∧
      (weekDay < WeekDays.monday.code ∨ weekDay > WeekDays.friday.code) then false
  else if job.targetDay ≠ .everyday ∧ weekDay ≠ job.targetDay.code then false
  else if timeDelta ≥ 0 ∧ timeDelta < 60 then
    if job.invokeDay = weekDay then false
    else if invokeDelta > -1 ∧ invokeDelta < 120 then false
    else true
  else false

/-- What the walk of `EvKQJobsDispatchTimed` makes of one job. -/
def dispatchJob (curInvokeTsSec timeMask weekDay : Int) (job : EvKQQueuedJob) :
    Option EvKQQueuedJob × List Call :=
  if timedWillDispatch curInvokeTsSec job timeMask weekDay then
    (if job.persist then some { job with invokeTs := curInvokeTsSec, invokeDay := weekDay }
      else none,
      if job.canceled then [] else [⟨job.id, curInvokeTsSec⟩])
  else (some job, [])

/-- `EvKQJobsDispatchTimed`. -/
def dispatchTimed (zone : Int → Int) (s : EvKQBase) : EvKQBase :=
  let tm := localtime zone s.curInvokeTsSec
  let dispatch := dispatchJob s.curInvokeTsSec tm.mask tm.wday
  { s with
    timedJobs := s.timedJobs.filterMap fun job => (dispatch job).1
    log := s.log ++ s.timedJobs.flatMap fun job => (dispatch job).2 }

/-- `EvKQJobsTimerEvent` at the second `ts`. -/
def timerEvent (zone : Int → Int) (s : EvKQBase) (ts : Int) : EvKQBase :=
  dispatchTimed zone { s with curInvokeTsSec := ts }

def run (zone : Int → Int) (s : EvKQBase) (ticks : List Int) : EvKQBase :=
  ticks.foldl (timerEvent zone) s

/-! ## When a job is due -/

def WeekDays.Matches (day : WeekDays) (wday : Int) : Prop :=
  day = .everyday ∨ (day = .mondayFriday ∧ monday.code ≤ wday ∧ wday ≤ friday.code) ∨
    wday = day.code

instance (day : WeekDays) (wday : Int) : Decidable (day.Matches wday) :=
  inferInstanceAs (Decidable (_ ∨ _))

/-- The day matches and the time is in the window. -/
def Due (zone : Int → Int) (job : EvKQQueuedJob) (ts : Int) : Prop :=
  job.targetDay.Matches (localtime zone ts).wday ∧
    0 ≤ (localtime zone ts).mask - job.mask ∧ (localtime zone ts).mask - job.mask < 60

instance (zone : Int → Int) (job : EvKQQueuedJob) (ts : Int) : Decidable (Due zone job ts) :=
  inferInstanceAs (Decidable (_ ∧ _))

/-- How often the job `id` ran on `day`. -/
def runsOn (zone : Int → Int) (log : List Call) (id : Nat) (day : Int) : Nat :=
  log.countP fun c => c.id = id ∧ localDay zone c.ts = day

/-- The job ran once on each day on which it was due, and on no other day. -/
def ExactlyOnce (zone : Int → Int) (job : EvKQQueuedJob) (ticks : List Int) (log : List Call) :
    Prop :=
  ∀ day, runsOn zone log job.id day =
    if ∃ ts ∈ ticks, Due zone job ts ∧ localDay zone ts = day then 1 else 0

/-- A clock that goes forward, and whose date does not go back. -/
def Increasing (zone : Int → Int) (ticks : List Int) : Prop :=
  ticks.Pairwise fun a b => a < b ∧ localDay zone a ≤ localDay zone b

/-- Two ticks at which the job is due, the later one on the next day on which it is. -/
structure NextDue (zone : Int → Int) (job : EvKQQueuedJob) (ticks : List Int) (a b : Int) :
    Prop where
  left : a ∈ ticks ∧ Due zone job a
  right : b ∈ ticks ∧ Due zone job b
  later : localDay zone a < localDay zone b
  next : ∀ c ∈ ticks, Due zone job c →
    ¬ (localDay zone a < localDay zone c ∧ localDay zone c < localDay zone b)

/-- The ticks on which the code does what it is for. -/
structure Regular (zone : Int → Int) (job : EvKQQueuedJob) (ticks : List Int) : Prop where
  /-- The Monday-to-Friday setting is never due. -/
  week : job.targetDay = .mondayFriday → ∀ ts ∈ ticks, ¬ Due zone job ts
  /-- The next day the job is due on is another weekday. -/
  weekday : ∀ a b, NextDue zone job ticks a b →
    (localtime zone a).wday ≠ (localtime zone b).wday
  /-- It is not two minutes later, as an `int` has it. -/
  apart : ∀ a b, NextDue zone job ticks a b → ¬ (0 ≤ int32 (b - a) ∧ int32 (b - a) < 120)

/-- A persistent job as `EvKQJobsAddTimed` leaves it. -/
structure Fresh (job : EvKQQueuedJob) : Prop where
  invokeTs : job.invokeTs = 0
  invokeDay : job.invokeDay = -1
  enabled : job.enabled = true
  persist : job.persist = true
  canceled : job.canceled = false

/-! ## One tick -/

section Tick

variable {zone : Int → Int} {s : EvKQBase} {job : EvKQQueuedJob} {ts : Int}

theorem wday_range (zone : Int → Int) (ts : Int) :
    0 ≤ (localtime zone ts).wday ∧ (localtime zone ts).wday < 7 := by
  simp only [localtime]
  omega

theorem wday_of_localDay {a b : Int} (h : localDay zone a = localDay zone b) :
    (localtime zone a).wday = (localtime zone b).wday := by
  simp only [localtime, h]

/-- A job is run if it is due, did not run on this weekday the last time, and did not run two
minutes ago; but not with the Monday-to-Friday setting. -/
theorem timedWillDispatch_iff (zone : Int → Int) (ts : Int) (henabled : job.enabled = true) :
    timedWillDispatch ts job (localtime zone ts).mask (localtime zone ts).wday = true ↔
      Due zone job ts ∧ job.targetDay ≠ .mondayFriday ∧
        job.invokeDay ≠ (localtime zone ts).wday ∧
          ¬ (0 < job.invokeTs ∧ 0 ≤ int32 (ts - job.invokeTs) ∧
            int32 (ts - job.invokeTs) < 120) := by
  have hrange := wday_range zone ts
  unfold timedWillDispatch Due WeekDays.Matches
  rw [henabled]
  generalize int32 (ts - job.invokeTs) = delta
  generalize (localtime zone ts).mask = mask
  generalize (localtime zone ts).wday = wday at hrange ⊢
  simp only [Bool.not_true, Bool.false_eq_true, if_false]
  by_cases hweek : job.targetDay = .mondayFriday
  · -- its own code is compared with the weekday, too
    have hcode : job.targetDay.code = 7 := by rw [hweek]; rfl
    grind
  · have hmatch : (job.targetDay ≠ .everyday ∧ wday ≠ job.targetDay.code) ↔
        ¬ (job.targetDay = .everyday ∨ wday = job.targetDay.code) := by grind
    grind

/-- The calls of the job `id`. -/
def callsOf (id : Nat) (log : List Call) : List Call := log.filter (·.id = id)

theorem dispatchJob_id {mask wday : Int} {job' : EvKQQueuedJob}
    (h : (dispatchJob ts mask wday job).1 = some job') : job'.id = job.id := by
  unfold dispatchJob at h
  split at h
  · split at h <;> cases h
    rfl
  · cases h
    rfl

theorem dispatchJob_calls {mask wday : Int} {c : Call}
    (h : c ∈ (dispatchJob ts mask wday job).2) : c.id = job.id := by
  unfold dispatchJob at h
  split at h
  · simp only at h
    split at h
    · cases h
    · rw [mem_singleton.1 h]
  · cases h

theorem ids_dispatch (mask wday : Int) (jobs : List EvKQQueuedJob) :
    ((jobs.filterMap fun job => (dispatchJob ts mask wday job).1).map (·.id)).Sublist
      (jobs.map (·.id)) := by
  induction jobs with
  | nil => exact List.Sublist.refl _
  | cons job jobs ih =>
      rw [filterMap_cons, map_cons]
      cases hkept : (dispatchJob ts mask wday job).1 with
      | none => exact ih.cons _
      | some job' =>
          rw [map_cons, dispatchJob_id hkept]
          exact ih.cons_cons _

theorem callsOf_dispatch (ts mask wday : Int) {jobs : List EvKQQueuedJob}
    (hnodup : (jobs.map (·.id)).Nodup) (hjob : job ∈ jobs) :
    callsOf job.id (jobs.flatMap fun job => (dispatchJob ts mask wday job).2) =
      (dispatchJob ts mask wday job).2 := by
  induction jobs with
  | nil => cases hjob
  | cons other jobs ih =>
      rw [map_cons, nodup_cons] at hnodup
      rw [flatMap_cons, callsOf, filter_append]
      rcases mem_cons.1 hjob with rfl | hjob
      · have hrest : (jobs.flatMap fun job => (dispatchJob ts mask wday job).2).filter
            (·.id = job.id) = [] := by
          rw [filter_eq_nil_iff]
          intro c hc
          obtain ⟨other, hother, hc⟩ := mem_flatMap.1 hc
          have hne : c.id ≠ job.id := fun heq => hnodup.1 (mem_map.2
            ⟨other, hother, (dispatchJob_calls hc).symm.trans heq⟩)
          simpa using hne
        rw [hrest, append_nil, filter_eq_self]
        intro c hc
        simpa using dispatchJob_calls hc
      · have hne : job.id ≠ other.id := fun heq => hnodup.1 (heq ▸ mem_map_of_mem hjob)
        have hfirst : (dispatchJob ts mask wday other).2.filter (·.id = job.id) = [] := by
          rw [filter_eq_nil_iff]
          intro c hc
          have hc := dispatchJob_calls hc
          simpa [hc] using hne.symm
        rw [hfirst, nil_append]
        exact ih hnodup.2 hjob

theorem timerEvent_job (zone : Int → Int) (ts : Int)
    (hnodup : (s.timedJobs.map (·.id)).Nodup) (hjob : job ∈ s.timedJobs) :
    ((timerEvent zone s ts).timedJobs.map (·.id)).Nodup ∧
    (∀ job', (dispatchJob ts (localtime zone ts).mask (localtime zone ts).wday job).1 = some job' →
      job' ∈ (timerEvent zone s ts).timedJobs) ∧
    callsOf job.id (timerEvent zone s ts).log = callsOf job.id s.log ++
      (dispatchJob ts (localtime zone ts).mask (localtime zone ts).wday job).2 := by
  refine ⟨?_, fun job' hkept => ?_, ?_⟩
  · exact (ids_dispatch _ _ _).nodup hnodup
  · exact mem_filterMap.2 ⟨job, hjob, hkept⟩
  · have hcalls := callsOf_dispatch ts (localtime zone ts).mask (localtime zone ts).wday
      hnodup hjob
    simp only [timerEvent, dispatchTimed, callsOf, filter_append] at hcalls ⊢
    rw [hcalls]

theorem runsOn_callsOf (log : List Call) (id : Nat) (day : Int) :
    runsOn zone log id day = (callsOf id log).countP fun c => localDay zone c.ts = day := by
  rw [runsOn, callsOf, countP_filter]
  refine countP_congr fun c _ => ?_
  simp [and_comm]

end Tick

/-! ## Every day once -/

section Days

variable {zone : Int → Int} {job : EvKQQueuedJob} {ticks : List Int}

theorem Increasing.init {b : Int} (h : Increasing zone (ticks ++ [b])) :
    Increasing zone ticks := (pairwise_append.1 h).1

theorem Increasing.last {a b : Int} (h : Increasing zone (ticks ++ [b])) (ha : a ∈ ticks) :
    a < b ∧ localDay zone a ≤ localDay zone b :=
  (pairwise_append.1 h).2.2 a ha b (mem_singleton_self b)

theorem NextDue.append {a b c : Int} (h : NextDue zone job ticks a b)
    (hinc : Increasing zone (ticks ++ [c])) : NextDue zone job (ticks ++ [c]) a b := by
  refine ⟨⟨mem_append_left _ h.left.1, h.left.2⟩,
    ⟨mem_append_left _ h.right.1, h.right.2⟩, h.later, fun d hd hdue => ?_⟩
  rcases mem_append.1 hd with hd | hd
  · exact h.next d hd hdue
  · rw [mem_singleton.1 hd]
    intro hbetween
    have hlast := (hinc.last h.right.1).2
    omega

theorem Regular.init {c : Int} (h : Regular zone job (ticks ++ [c]))
    (hinc : Increasing zone (ticks ++ [c])) : Regular zone job ticks where
  week hweek ts hts := h.week hweek ts (mem_append_left _ hts)
  weekday a b hnext := h.weekday a b (hnext.append hinc)
  apart a b hnext := h.apart a b (hnext.append hinc)

/-- What the stored day and second of a job say about the ticks so far. -/
inductive Stored (zone : Int → Int) (job : EvKQQueuedJob) (ticks : List Int) : Int → Int → Prop
  /-- It was not due. -/
  | never (h : ∀ ts ∈ ticks, ¬ Due zone job ts) : Stored zone job ticks 0 (-1)
  /-- It ran at `f`, on the last day on which it was due. -/
  | ran (f : Int) (hmem : f ∈ ticks) (hdue : Due zone job f)
      (hlast : ∀ ts ∈ ticks, Due zone job ts → localDay zone ts ≤ localDay zone f) :
      Stored zone job ticks f (localtime zone f).wday

/-- The state of the engine and the job's calls after the ticks. -/
structure Inv (zone : Int → Int) (job : EvKQQueuedJob) (ticks : List Int) (s : EvKQBase) :
    Prop where
  nodup : (s.timedJobs.map (·.id)).Nodup
  stored : ∃ ts day, Stored zone job ticks ts day ∧
    { job with invokeTs := ts, invokeDay := day } ∈ s.timedJobs
  once : ExactlyOnce zone job ticks s.log

theorem Stored.skip {ts day b : Int} (h : Stored zone job ticks ts day)
    (hb : ¬ Due zone job b) : Stored zone job (ticks ++ [b]) ts day := by
  cases h with
  | never hnone =>
      refine .never fun ts hts => ?_
      rcases mem_append.1 hts with hts | hts
      · exact hnone ts hts
      · rw [mem_singleton.1 hts]
        exact hb
  | ran _ hmem hdue hlast =>
      refine .ran ts (mem_append_left _ hmem) hdue fun c hc hcdue => ?_
      rcases mem_append.1 hc with hc | hc
      · exact hlast c hc hcdue
      · rw [mem_singleton.1 hc] at hcdue
        exact absurd hcdue hb

theorem Stored.decide {ts day b : Int} (h : Stored zone job ticks ts day) (hfresh : Fresh job)
    (hinc : Increasing zone (ticks ++ [b])) (hreg : Regular zone job (ticks ++ [b])) :
    (timedWillDispatch b { job with invokeTs := ts, invokeDay := day } (localtime zone b).mask
        (localtime zone b).wday = true ∧ Due zone job b ∧
      ∀ c ∈ ticks, Due zone job c → localDay zone c ≠ localDay zone b) ∨
    (timedWillDispatch b { job with invokeTs := ts, invokeDay := day } (localtime zone b).mask
        (localtime zone b).wday = false ∧ Stored zone job (ticks ++ [b]) ts day ∧
      (Due zone job b → ∃ c ∈ ticks, Due zone job c ∧ localDay zone c = localDay zone b)) := by
  have hiff := timedWillDispatch_iff zone b
    (show ({ job with invokeTs := ts, invokeDay := day } : EvKQQueuedJob).enabled = true from
      hfresh.enabled)
  have hin : b ∈ ticks ++ [b] := mem_append_right _ (mem_singleton_self b)
  by_cases hdue : Due zone job b
  · have hweek : job.targetDay ≠ .mondayFriday := fun hweek => hreg.week hweek b hin hdue
    cases h with
    | never hnone =>
        have hrange := wday_range zone b
        refine .inl ⟨hiff.2 ⟨hdue, hweek, ?_, fun hts => Int.lt_irrefl _ hts.1⟩, hdue,
          fun c hc hcdue => absurd hcdue (hnone c hc)⟩
        change (-1 : Int) ≠ _
        omega
    | ran _ hmem hfdue hlast =>
        by_cases hsame : localDay zone ts = localDay zone b
        · refine .inr ⟨?_, .ran ts (mem_append_left _ hmem) hfdue fun c hc hcdue => ?_,
            fun _ => ⟨ts, hmem, hfdue, hsame⟩⟩
          · rw [Bool.eq_false_iff]
            intro hrun
            exact (hiff.1 hrun).2.2.1 (wday_of_localDay hsame)
          · rcases mem_append.1 hc with hc | hc
            · exact hlast c hc hcdue
            · rw [mem_singleton.1 hc]
              omega
        · have hday := (hinc.last hmem).2
          have hnext : NextDue zone job (ticks ++ [b]) ts b := by
            refine ⟨⟨mem_append_left _ hmem, hfdue⟩, ⟨hin, hdue⟩, by omega, fun c hc hcdue => ?_⟩
            rcases mem_append.1 hc with hc | hc
            · have := hlast c hc hcdue
              omega
            · rw [mem_singleton.1 hc]
              omega
          refine .inl ⟨hiff.2 ⟨hdue, hweek, hreg.weekday _ _ hnext,
            fun hclose => hreg.apart _ _ hnext hclose.2⟩, hdue, fun c hc hcdue => ?_⟩
          have := hlast c hc hcdue
          omega
  · refine .inr ⟨?_, h.skip hdue, fun hb => absurd hb hdue⟩
    rw [Bool.eq_false_iff]
    intro hrun
    exact hdue (hiff.1 hrun).1

theorem Inv.tick {s : EvKQBase} {b : Int} (h : Inv zone job ticks s) (hfresh : Fresh job)
    (hinc : Increasing zone (ticks ++ [b])) (hreg : Regular zone job (ticks ++ [b])) :
    Inv zone job (ticks ++ [b]) (timerEvent zone s b) := by
  obtain ⟨ts, day, hstored, hjob⟩ := h.stored
  obtain ⟨hnodup, hkept, hcalls⟩ := timerEvent_job zone b h.nodup hjob
  have hin : b ∈ ticks ++ [b] := mem_append_right _ (mem_singleton_self b)
  have honce : ∀ d, runsOn zone (timerEvent zone s b).log job.id d =
      runsOn zone s.log job.id d + (dispatchJob b (localtime zone b).mask (localtime zone b).wday
        { job with invokeTs := ts, invokeDay := day }).2.countP
          fun c => localDay zone c.ts = d := by
    intro d
    rw [runsOn_callsOf, runsOn_callsOf, hcalls, countP_append]
  rcases hstored.decide hfresh hinc hreg with ⟨hrun, hdue, hnew⟩ | ⟨hrun, hstored', hold⟩
  · have hdispatch : dispatchJob b (localtime zone b).mask (localtime zone b).wday
        { job with invokeTs := ts, invokeDay := day } =
        (some { job with invokeTs := b, invokeDay := (localtime zone b).wday },
          [⟨job.id, b⟩]) := by
      rw [dispatchJob, if_pos hrun]
      simp only [hfresh.persist, hfresh.canceled, if_true, Bool.false_eq_true, if_false]
    rw [hdispatch] at hkept honce
    refine ⟨hnodup, ⟨b, _, .ran b hin hdue fun c hc _ => ?_, hkept _ rfl⟩, fun d => ?_⟩
    · rcases mem_append.1 hc with hc | hc
      · exact (hinc.last hc).2
      · rw [mem_singleton.1 hc]
    · rw [honce, h.once d]
      by_cases hd : localDay zone b = d
      · rw [if_neg fun ⟨c, hc, hcdue, hcd⟩ => hnew c hc hcdue (hcd.trans hd.symm),
          if_pos ⟨b, hin, hdue, hd⟩]
        simp [hd]
      · have hiff : (∃ c ∈ ticks ++ [b], Due zone job c ∧ localDay zone c = d) ↔
            ∃ c ∈ ticks, Due zone job c ∧ localDay zone c = d := by
          simp [hd]
        rw [if_congr hiff rfl rfl]
        simp [hd]
  · have hdispatch : dispatchJob b (localtime zone b).mask (localtime zone b).wday
        { job with invokeTs := ts, invokeDay := day } =
        (some { job with invokeTs := ts, invokeDay := day }, []) := by
      simp only [dispatchJob, hrun, Bool.false_eq_true, if_false]
    rw [hdispatch] at hkept honce
    refine ⟨hnodup, ⟨ts, day, hstored', hkept _ rfl⟩, fun d => ?_⟩
    rw [honce, h.once d, countP_nil, Nat.add_zero]
    refine if_congr ⟨fun ⟨c, hc, hrest⟩ => ⟨c, mem_append_left _ hc, hrest⟩, ?_⟩ rfl rfl
    rintro ⟨c, hc, hcdue, hcd⟩
    rcases mem_append.1 hc with hc | hc
    · exact ⟨c, hc, hcdue, hcd⟩
    · rw [mem_singleton.1 hc] at hcdue hcd
      obtain ⟨e, he, hedue, hed⟩ := hold hcdue
      exact ⟨e, he, hedue, hed.trans hcd⟩

/-- **Every due day once.**  On an increasing clock a persistent job runs once on each day on
which it is due, and on no other, if it has no Monday-to-Friday setting, and if no two due
days that follow each other are the same weekday or come within two minutes. -/
theorem runs_once_each_day {s : EvKQBase} (hnodup : (s.timedJobs.map (·.id)).Nodup)
    (hjob : job ∈ s.timedJobs) (hfresh : Fresh job) (hlog : callsOf job.id s.log = [])
    (hinc : Increasing zone ticks) (hreg : Regular zone job ticks) :
    ExactlyOnce zone job ticks (run zone s ticks).log := by
  suffices h : Inv zone job ticks (run zone s ticks) from h.once
  induction ticks using List.reverseRecOn with
  | nil =>
      have hsame : { job with invokeTs := 0, invokeDay := -1 } = job := by
        rw [← hfresh.invokeTs, ← hfresh.invokeDay]
      refine ⟨hnodup, ⟨0, -1, .never nofun, ?_⟩, fun d => ?_⟩
      · rw [hsame]
        exact hjob
      · rw [runsOn_callsOf]
        change (callsOf job.id s.log).countP _ = _
        rw [hlog]
        simp
  | append_singleton ticks b ih =>
      have hstep := (ih hinc.init (hreg.init hinc)).tick hfresh hinc hreg
      rw [run, foldl_append]
      exact hstep

end Days

def jobAt (day : WeekDays) : EvKQQueuedJob :=
  { id := 0, targetDay := day, mask := 70520, persist := true }

def withJob (day : WeekDays) : EvKQBase := (addTimed {} 0 true day 7 5 20).1

example (day : WeekDays) : (withJob day).timedJobs = [jobAt day] := rfl

/-- Ticks of the first days at 07:05:20 and 07:05:21, and at 12:00:00. -/
def firstTicks : List Int := [25520, 25521, 111920, 111921, 216000]

theorem runs_once_each_day_daily :
    ExactlyOnce (fun _ => 0) (jobAt .everyday) firstTicks
      (run (fun _ => 0) (withJob .everyday) firstTicks).log := by
  have hpairs : ∀ a ∈ firstTicks, ∀ b ∈ firstTicks,
      localDay (fun _ => 0) a < localDay (fun _ => 0) b →
        (localtime (fun _ => 0) a).wday ≠ (localtime (fun _ => 0) b).wday ∧
          ¬ (0 ≤ int32 (b - a) ∧ int32 (b - a) < 120) := by decide +kernel
  have hinc : Increasing (fun _ => 0) firstTicks := by
    unfold Increasing
    decide
  refine runs_once_each_day (by decide) (mem_singleton_self _) ⟨rfl, rfl, rfl, rfl, rfl⟩ rfl
    hinc ⟨nofun, fun a b h => ?_, fun a b h => ?_⟩
  · exact (hpairs a h.left.1 b h.right.1 h.later).1
  · exact (hpairs a h.left.1 b h.right.1 h.later).2

/-- A job for Mondays runs on the first Monday, but not on the second one. -/
theorem monday_job_runs_once_only :
    ¬ ExactlyOnce (fun _ => 0) (jobAt .monday) [371120, 975920]
      (run (fun _ => 0) (withJob .monday) [371120, 975920]).log := by
  intro honce
  have hsecond := honce 11
  have hruns : runsOn (fun _ => 0) (run (fun _ => 0) (withJob .monday) [371120, 975920]).log
      (jobAt .monday).id 11 = 0 := by decide
  rw [hruns, if_pos (by decide)] at hsecond
  cases hsecond

end EvKQJobs.Timed
