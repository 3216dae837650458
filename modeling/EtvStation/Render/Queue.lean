import EtvStation.Config
import EtvStation.Tz
import Mathlib.Data.Rat.Floor

/-! The render queue: a directory with a plan file and a state file for each job, the calls that
put plans on it, and the sidecar that renders them. Every file is read and replaced whole, one at
a time, and anybody's step may fall between two steps of anybody else. -/
namespace EtvStation.Render

inductive Status
  | queued
  | running
  | done
  | failed
  /-- Rendered, then removed from the cache to stay under its size cap. -/
  | evicted
  deriving DecidableEq, Repr

structure Timings where
  stemsS : ℚ
  audioS : ℚ
  videoS : ℚ
  totalS : ℚ
  deriving DecidableEq

structure Rendered where
  timings : Timings
  stems : List String
  deriving DecidableEq

structure RenderError where
  layer : String
  message : String
  deriving DecidableEq

def RenderError.toString (e : RenderError) : String := e.layer ++ ": " ++ e.message

structure JobState where
  id : String
  status : Status
  output : String
  durationS : ℚ
  enqueuedAt : ℤ
  /-- A job without one is never evicted. -/
  airAt : Option ℤ := none
  startedAt : Option ℤ := none
  finishedAt : Option ℤ := none
  failedLayer : Option String := none
  lastError : Option String := none
  timings : Option Timings := none
  stems : List String := []
  outputBytes : Option ℕ := none
  attempts : ℕ
  deriving DecidableEq

/-- What the queue reads of a plan: the hash that is its job's id, what `validate` says of it, and
what it renders. -/
structure Document where
  jobId : String
  invalid : Option String := none
  output : String
  durationS : ℚ
  deriving DecidableEq

def freshState (id : String) (plan : Document) (airAt : Option ℤ) (now : ℤ) (attempts : ℕ) :
    JobState where
  id := id
  status := .queued
  output := plan.output
  durationS := plan.durationS
  enqueuedAt := now
  airAt := airAt
  attempts := attempts

namespace JobState

/-- A job left `running` by a sidecar that died goes back to `queued`. -/
def recover (job : JobState) : JobState := { job with status := .queued, startedAt := none }

def start (job : JobState) (now : ℤ) : JobState :=
  { job with
    status := .running
    startedAt := some now
    attempts := job.attempts + 1
    lastError := none
    failedLayer := none }

def finish (job : JobState) (now : ℤ) (outputBytes : Option ℕ) :
    Except RenderError Rendered → JobState
  | .ok done =>
    { job with
      finishedAt := some now
      status := .done
      timings := some done.timings
      stems := done.stems
      outputBytes := outputBytes }
  | .error e =>
    { job with
      finishedAt := some now
      status := .failed
      failedLayer := some e.layer
      lastError := some e.toString }

def evict (job : JobState) : JobState := { job with status := .evicted, outputBytes := none }

end JobState

/-- How long before air a chapter is off limits to eviction. -/
def PROTECT_BEFORE_AIR : ℤ := 30 * 60 * SECOND

/-- Whole nanoseconds, the nearest, and of two as near the even one. -/
def secondsF64 (s : ℚ) : ℤ :=
  let ns := s * SECOND
  let below := ns.floor
  if ns - below < 1 / 2 then below
  else if 1 / 2 < ns - below then below + 1
  else if 2 ∣ below then below
  else below + 1

/-- Whether `job` may not be removed at `now`. -/
def isProtected (job : JobState) (now : ℤ) : Bool :=
  match job.airAt with
  | none => true
  | some air =>
    let from_ := air - PROTECT_BEFORE_AIR
    let until_ := air + secondsF64 job.durationS
    now ≥ from_ && now < until_

/-- A job with no air time has not aired. -/
def hasAired (job : JobState) (now : ℤ) : Bool :=
  match job.airAt with
  | none => false
  | some air => !isProtected job now && now ≥ air

/-- Oldest enqueue first. -/
def inOrder (jobs : List JobState) : List JobState :=
  jobs.insertionSort fun a b =>
    a.enqueuedAt < b.enqueuedAt ∨ a.enqueuedAt = b.enqueuedAt ∧ a.id ≤ b.id

/-- The chapters that may go, the one that aired first in front. -/
def candidates (jobs : List JobState) (now : ℤ) : List JobState :=
  (jobs.filter fun j => j.status = .done && hasAired j now).insertionSort
    fun a b => a.airAt.getD 0 ≤ b.airAt.getD 0

structure Queue where
  plans : BTreeMap String Document := []
  states : BTreeMap String JobState := []

/-- What calls and sidecar say of a job as they change its state file. -/
inductive Event
  | queued (id : String)
  | rendered (id : String)
  | aired (id : String) (air : ℤ)
  deriving DecidableEq, Repr

/-- One file to be replaced. A state is written by somebody who read the file before or wrote it:
`held` is the copy they have of it, `none` when they found no file. -/
inductive Write
  | plan (plan : Document)
  | state (held : Option JobState) (job : JobState) (events : List Event)

def Queue.apply (q : Queue) : Write → Queue × List Event
  | .plan plan => ({ q with plans := q.plans.put plan.jobId plan }, [])
  | .state _ job events => ({ q with states := q.states.put job.id job }, events)

def airing (id : String) : Option ℤ → List Event
  | some air => [.aired id air]
  | none => []

/-- How far one `enqueue` has come. -/
inductive Call
  | reading (plan : Document) (airAt : Option ℤ) (now : ℤ)
  | updating (existing : JobState) (air : ℤ)
  | planning (plan : Document) (airAt : Option ℤ) (now : ℤ) (existing : Option JobState)
  | storing (plan : Document) (airAt : Option ℤ) (now : ℤ) (existing : Option JobState)
  | returned

/-- A plan already queued, running or done is left as it is, its air time updated when given; one
that failed or was evicted is queued again. -/
def Call.next (q : Queue) : Call → Call × Option Write
  | .reading plan airAt now =>
    match q.states.get plan.jobId with
    | some existing =>
      match existing.status with
      | .queued | .running | .done =>
        match airAt with
        | some air =>
          if existing.airAt ≠ some air then (.updating existing air, none) else (.returned, none)
        | none => (.returned, none)
      | .failed | .evicted => (.planning plan airAt now (some existing), none)
    | none => (.planning plan airAt now none, none)
  | .updating existing air =>
    (.returned, some (.state (some existing) { existing with airAt := some air }
      [.aired existing.id air]))
  | .planning plan airAt now existing =>
    (.storing plan airAt now existing, some (.plan plan))
  | .storing plan airAt now existing =>
    let attempts := (existing.map (·.attempts)).getD 0
    (.returned, some (.state existing (freshState plan.jobId plan airAt now attempts)
      (airing plan.jobId airAt ++ [.queued plan.jobId])))
  | .returned => (.returned, none)

def Call.fail (c : Call) (q : Queue) : Call × Option Write :=
  match c.next q with
  | (_, some _) => (.returned, none)
  | (c', none) => (c', none)

/-- What the sidecar lists the directory for. -/
inductive Purpose
  | recover
  | cap (now : ℤ)
  | pick (now : ℤ)

/-- Where the sidecar is. `got` are the files it has read of a listing, `todo` those it has not. -/
inductive Sidecar
  | down
  | listing (purpose : Purpose) (todo : List String) (got : List JobState)
  | recovering (jobs : List JobState)
  | capping
  | evicting (jobs : List JobState)
  | idle
  | starting (job : JobState) (now : ℤ)
  | rendering (job : JobState)
  | finishing (job : JobState) (now : ℤ) (outputBytes : Option ℕ)
    (outcome : Except RenderError Rendered)

inductive SidecarAct
  /-- The names a directory read gives: those there when it begins, and perhaps some that appear
  before it ends. -/
  | readDir (names : List String) (now : ℤ)
  | proceed
  /-- The write the sidecar is at fails. -/
  | fail
  /-- A file that should leave the cache is still there. -/
  | keep
  /-- The cache is under its cap. -/
  | rest
  | render (now : ℤ) (outputBytes : Option ℕ) (outcome : Except RenderError Rendered)

def Purpose.listed (jobs : List JobState) : Purpose → Sidecar
  | .recover => .recovering (jobs.filter fun j => j.status = .running)
  | .cap now => .evicting (candidates jobs now)
  | .pick now =>
    match jobs.find? fun j => j.status = .queued with
    | some job => .starting job now
    | none => .idle

/-- `recover_interrupted` and `enforce_cap` when the sidecar comes up, then `process_next`, which
ends with `enforce_cap`, again and again. -/
def Sidecar.next (q : Queue) : Sidecar → SidecarAct → Option (Sidecar × Option Write)
  | .down, .readDir names _ => readDir names .recover
  | .capping, .readDir names now => readDir names (.cap now)
  | .idle, .readDir names now => readDir names (.pick now)
  | .listing purpose (id :: todo) got, .proceed =>
    some (.listing purpose todo (got ++ (q.states.get id).toList), none)
  | .listing purpose [] got, .proceed => some (purpose.listed (inOrder got), none)
  | .recovering (job :: jobs), .proceed =>
    some (.recovering jobs, some (.state (some job) job.recover [.queued job.id]))
  | .recovering (_ :: jobs), .fail => some (.recovering jobs, none)
  | .recovering [], .proceed => some (.capping, none)
  | .evicting (job :: jobs), .proceed =>
    some (.evicting jobs, some (.state (some job) job.evict []))
  | .evicting (_ :: jobs), .fail => some (.evicting jobs, none)
  | .evicting (_ :: jobs), .keep => some (.evicting jobs, none)
  | .evicting _, .rest => some (.idle, none)
  | .starting job now, .proceed =>
    some (.rendering (job.start now),
      some (.state (some job) (job.start now) [.rendered job.id]))
  | .starting _ _, .fail => some (.idle, none)
  | .rendering job, .render now outputBytes outcome =>
    match q.plans.get job.id, outcome with
    | none, .ok _ => none
    | _, _ => some (.finishing job now outputBytes outcome, none)
  | .finishing job now outputBytes outcome, .proceed =>
    some (.capping, some (.state (some job) (job.finish now outputBytes outcome) []))
  | .finishing _ _ _ _, .fail => some (.capping, none)
  | _, _ => none
where
  readDir (names : List String) (purpose : Purpose) : Option (Sidecar × Option Write) :=
    if names.Nodup ∧ ∀ id ∈ q.states.map Prod.fst, id ∈ names then
      some (.listing purpose names [], none)
    else none

structure World where
  queue : Queue := {}
  calls : List Call := []
  sidecar : Sidecar := .down

inductive Act
  | enqueue (plan : Document) (airAt : Option ℤ) (now : ℤ)
  | call (i : ℕ) (fails : Bool)
  | sidecar (act : SidecarAct)
  | die

/-- What an act does to the one who acts, and the file it replaces. -/
def World.move (w : World) : Act → Option (World × Option Write)
  | .enqueue plan airAt now =>
    if plan.invalid.isSome then none
    else some ({ w with calls := w.calls ++ [.reading plan airAt now] }, none)
  | .call i fails =>
    (w.calls[i]?).map fun c =>
      let moved := if fails then c.fail w.queue else c.next w.queue
      ({ w with calls := w.calls.set i moved.1 }, moved.2)
  | .sidecar act =>
    (w.sidecar.next w.queue act).map fun moved => ({ w with sidecar := moved.1 }, moved.2)
  | .die => some ({ w with sidecar := .down }, none)

def World.step (w : World) (a : Act) : Option (World × List Event) :=
  match w.move a with
  | none => none
  | some (w', none) => some (w', [])
  | some (w', some write) =>
    some ({ w' with queue := (w'.queue.apply write).1 }, (w'.queue.apply write).2)

end EtvStation.Render
