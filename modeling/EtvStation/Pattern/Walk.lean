import EtvStation.Pattern.Runtime
import Mathlib.Data.Finset.Sort
import Mathlib.Order.Basic
import Mathlib.Data.String.Basic

/-! The walk of a pattern block: visit after visit through the repeating template, until the
budget is laid or the cycles run out, and the state each drawn item would resume from. -/
namespace EtvStation

/-- One block: its pools and the template of steps that draws from them. -/
structure Block where
  pools : List Pool
  groups : List ShowGroup := []
  pattern : List PatternStep
  cycles : Option ℕ := none
  constraints : Option Constraints := none

structure ChannelRule where
  gap : NoRepeatWithin
  /-- Oldest first. -/
  aired : List EntryId := []
  nominal : ℕ := 0

def ChannelRule.limits (rule : ChannelRule) : Limits where
  noRepeat := match rule.gap with
    | .positions n => .positions n
    | .duration d => .duration d

def ChannelHistory.new (cat : Catalog) : Option ChannelRule → ChannelHistory
  | none => {}
  | some rule =>
    ChannelHistory.remember cat { limits := rule.limits, nominal := rule.nominal } rule.aired

/-- What stays fixed while a block is walked. -/
structure Walk where
  cat : Catalog
  variety : Variety
  env : ScoreEnv := {}
  block : Block
  state : GenerationState
  windowStart : ℤ := 0
  measure : Bool := false
  patternId : String
  firstCycle : ℕ := 0
  firstStep : ℕ := 0
  firstDone : ℕ := 0

structure WalkState where
  runtimes : List PoolRuntime
  channel : ChannelHistory := {}
  out : List EntryId := []
  /-- Pool state entering each drawn id. -/
  progress : List (BTreeMap String PoolResume) := []
  laid : ℕ := 0
  src : SourceState := {}

/-- The record a pool leaves: one inside a cycle names the pattern it counts steps of. -/
def PoolRuntime.record (rt : PoolRuntime) (cycle step done : ℕ) (patternId : String) :
    PoolResume :=
  let resume := rt.toResume cycle step done
  if resume.step > 0 || resume.done > 0 then { resume with pattern := some patternId } else resume

def poolsResume (runtimes : List PoolRuntime) (cycle step done : ℕ) (patternId : String) :
    BTreeMap String PoolResume :=
  BTreeMap.collect (runtimes.map fun rt => (rt.cfg.name, rt.record cycle step done patternId))

/-- A pool's items per cycle at the fewest a cycle can draw, and its `all` steps. -/
def cycleDraws (pattern : List PatternStep) (pool : String) : ℕ × ℕ :=
  let takes := (pattern.filter fun step => step.pool == pool).map (·.take)
  ((takes.map fun
    | .count n => n
    | .range min _ => min
    | .all => 0).sum,
   (takes.filter fun take => take == .all).length)

def divCeil (a b : ℕ) : ℕ := (a + b - 1) / b

def deriveCycles (runtimes : List PoolRuntime) (pattern : List PatternStep) : ℕ :=
  (runtimes.map fun rt =>
    let (perCycle, allSteps) := cycleDraws pattern rt.cfg.name
    let remaining := (rt.series.map (·.remaining)).sum
    let want := if remaining > 0 then remaining else rt.totalIds
    max (if perCycle > 0 then divCeil want perCycle else 0)
      (if allSteps > 0 then divCeil rt.series.length allSteps else 0)).foldl max 0

def MAX_REFILLS : ℕ := 8

def REFILL_STEP : ℕ := 32

namespace Walk

/-- The window may end at any visit only where every pool resumes. -/
def stopAtVisit (w : Walk) : Bool := w.block.pools.all fun p => p.advance = .resume

/-- Ask a drained plugin pool's source for content the pool has not used. -/
def refillPool (w : Walk) (cfg : Pool) (rt : PoolRuntime) (dice : Dice) (src : SourceState) :
    Except String (ℕ × PoolRuntime × SourceState) :=
  if cfg.plugin.isNone || MAX_REFILLS ≤ rt.refills then .ok (0, rt, src)
  else do
    let rt := { rt with refills := rt.refills + 1 }
    let recent := w.env.recent ++ rt.drawn.sort (· ≤ ·)
    let picked ← (w.env.pick cfg dice recent (rt.totalIds + REFILL_STEP)).mapError
      fun m => s!"pool {cfg.name.quote}: {m}"
    let src := src.recordPicked cfg.name picked
    let have_ := rt.series.flatMap (·.ids)
    let fresh := (picked.map (·.id)).filter fun id => !have_.contains id
    if fresh.isEmpty then return (0, rt, src)
    else
      let src := src.growFrozenList cfg.name rt.listKey picked fresh
      let seam := w.state.tail.filter fresh.contains
      let r ← resolvePoolSeries w.cat cfg fresh w.block.constraints seam w.measure dice.seed
      let (added, rt) := rt.extendWith r.series r.keys r.runtimes
      return (added, rt, src)

/-- Rank a pool's list again under changed dice and carry on from the rebuilt list. -/
def rollover (w : Walk) (cfg : Pool) (rt : PoolRuntime) (dice : Dice) (src : SourceState)
    (aired : List EntryId) : Except String (PoolRuntime × SourceState) := do
  let env := { w.env with recent := w.env.recent ++ aired }
  let (lists, src) ←
    resolvePoolSources w.cat w.variety env w.block.groups [(cfg, dice)] src
  let ids := lists.getLast?.getD []
  let prev := rt.toResume 0 0 0
  let fresh ← poolRuntime w.cat w.variety cfg ids w.block.constraints w.state (some prev) dice
    w.measure src.extras
  return (rt.carryInto fresh, src)

/-- A pool whose dice changed by the time a visit airs is rolled over. -/
def rolled (w : Walk) (cfg : Pool) (rt : PoolRuntime) (dice : Dice) (src : SourceState)
    (aired : List EntryId) : Except String (PoolRuntime × SourceState) :=
  if w.variety.listKey dice cfg = rt.listKey then .ok (rt, src)
  else w.rollover cfg rt dice src aired

/-- A drained pool asks for more before it repeats, until its source has nothing to give. -/
def replenished (w : Walk) (cfg : Pool) (rt : PoolRuntime) (dice : Dice) (src : SourceState) :
    Except String (PoolRuntime × SourceState) :=
  if rt.isDrained && !rt.exhausted then do
    let (added, rt, src) ← w.refillPool cfg rt dice src
    return (if added = 0 then { rt with exhausted := true } else rt, src)
  else .ok (rt, src)

/-- How far into this visit the previous generation was cut. -/
def resumed (w : Walk) (cycle step : ℕ) : ℕ :=
  if cycle = w.firstCycle ∧ step = w.firstStep then w.firstDone else 0

/-- The states of a visit's items: one stop per item where the visit can be resumed. -/
def itemProgress (w : Walk) (before : BTreeMap String PoolResume) (resumable : Bool)
    (resumed drawn : ℕ) : List (BTreeMap String PoolResume) :=
  (List.range drawn).map fun n =>
    if resumable && n > 0 then
      before.mapValues ({ · with done := resumed + n, pattern := some w.patternId })
    else before

/-- The pools' state entering a visit; a block that stops only between cycles resumes at the
next one. -/
def entering (w : Walk) (cycle step : ℕ) (runtimes : List PoolRuntime) :
    BTreeMap String PoolResume :=
  let (atCycle, atStep) := if w.stopAtVisit || step == 0 then (cycle, step) else (cycle + 1, 0)
  poolsResume runtimes atCycle atStep (w.resumed cycle step) w.patternId

/-- The walk once a visit to the pool at `idx` has drawn. -/
def visited (w : Walk) (s : WalkState) (idx : ℕ) (before : BTreeMap String PoolResume)
    (resumed : ℕ) (drawn : List EntryId) (rt : PoolRuntime) (channel : ChannelHistory) :
    WalkState :=
  let resumable := rt.visitResumable && w.stopAtVisit
  { s with
    runtimes := s.runtimes.set idx rt
    channel
    out := s.out ++ drawn
    progress := s.progress ++ w.itemProgress before resumable resumed drawn.length
    laid := if w.measure then s.laid + rt.runtimeOf drawn else s.laid }

/-- The visit at a position: rolled over if its dice changed, skipped on its chance, refilled
if drained, then drawn. -/
def visitAt (w : Walk) (cycle step : ℕ) (s : WalkState) : Except String WalkState :=
  match w.block.pattern[step]? with
  | none => .ok s
  | some st =>
    match w.block.pools.findIdx? (·.name == st.pool) with
    | none => .error s!"pattern step names unknown pool {st.pool.quote}"
    | some idx =>
      match w.block.pools[idx]?, s.runtimes[idx]? with
      | some cfg, some rt => do
        let airsAt := w.variety.airsAt w.windowStart s.laid
        let dice := w.variety.dice airsAt cfg
        let (rt, src) ← w.rolled cfg rt dice s.src s.out
        let rt := { rt with period := cfg.rotate.span?.map (w.variety.spanPeriod airsAt) }
        let s := { s with runtimes := s.runtimes.set idx rt, src }
        let roll : RollKey := ⟨dice.seed, UInt64.ofNat cycle, UInt64.ofNat step⟩
        if st.isSkipped roll then return s
        else
          let (rt, src) ← w.replenished cfg rt dice s.src
          let s := { s with runtimes := s.runtimes.set idx rt, src }
          let resumed := w.resumed cycle step
          let before := w.entering cycle step s.runtimes
          let (drawn, rt, channel) ← rt.visit w.cat st.take st.from_ roll resumed s.channel
          return w.visited s idx before resumed drawn rt channel
      | _, _ => .ok s

/-- Whether the walk ends before the visit at `step`: the budget is laid, and the block may
stop there. -/
def isOver (w : Walk) (budget : Option ℕ) (step : ℕ) (s : WalkState) : Bool :=
  (step == 0 || w.stopAtVisit) && budget.any fun fill => fill ≤ s.laid

/-- Visit the positions in order; the position stopped before, or `end_` past the last. -/
def run (w : Walk) (budget : Option ℕ) (end_ : ℕ × ℕ) :
    List (ℕ × ℕ) → WalkState → Except String (WalkState × (ℕ × ℕ))
  | [], s => .ok (s, end_)
  | (cycle, step) :: rest, s =>
    if w.isOver budget step s then .ok (s, (cycle, step))
    else do
      let s ← w.visitAt cycle step s
      run w budget end_ rest s

/-- Every position of `cycles` cycles, the first one entered at the step resumed at. -/
def positions (w : Walk) (cycles : ℕ) : List (ℕ × ℕ) :=
  (List.range cycles).flatMap fun c =>
    ((List.range w.block.pattern.length).drop (if c = 0 then w.firstStep else 0)).map
      fun step => (w.firstCycle + c, step)

def endOf (w : Walk) (cycles : ℕ) : ℕ × ℕ :=
  if cycles = 0 then (w.firstCycle, w.firstStep) else (w.firstCycle + cycles, 0)

end Walk

def resumeRecords (pools : List Pool) (state : GenerationState) : List PoolResume :=
  (pools.filter fun p => p.advance = .resume).filterMap fun p => state.resume.pool p.name

def firstCycle (pools : List Pool) (state : GenerationState) : ℕ :=
  ((resumeRecords pools state).map (·.cycle)).foldl max 0

/-- The step of `firstCycle` stopped before; one recorded under another pattern is not
honoured. -/
def firstStep (pools : List Pool) (state : GenerationState) (patternId : String) : ℕ :=
  if pools.all fun p => p.advance = .resume then
    (((resumeRecords pools state).filter fun r =>
      r.cycle == firstCycle pools state && r.pattern == some patternId).map (·.step)).foldl max 0
  else 0

/-- How far into that step's visit the state sits. -/
def firstDone (pools : List Pool) (state : GenerationState) (patternId : String) : ℕ :=
  if pools.all fun p => p.advance = .resume then
    (((resumeRecords pools state).filter fun r =>
      r.cycle == firstCycle pools state && r.step == firstStep pools state patternId &&
        r.pattern == some patternId).map (·.done)).foldl max 0
  else 0

/-- The program around one block: what its walk calls and never changes. -/
structure Station where
  cat : Catalog
  variety : Variety
  env : ScoreEnv := {}
  /-- The identity of a pattern as written, a hash of its steps. -/
  patternId : List PatternStep → String := fun _ => ""

/-- Each pool's seed and temperature as the generation opens. -/
def Station.opening (st : Station) (block : Block) (windowStart : ℤ) : List Dice :=
  block.pools.map (st.variety.dice windowStart)

/-- An authored `cycles` is not argued with: only a derived count is bounded. -/
def Block.budget (block : Block) (fill : Option ℕ) : Option ℕ :=
  if block.cycles.isNone then fill else none

def Station.measures (st : Station) (block : Block) (windowStart : ℤ) (fill : Option ℕ) : Bool :=
  (block.budget fill).isSome || (st.opening block windowStart).any (·.rotates) ||
    block.pools.any fun p => p.rotate.span?.isSome

def Station.walk (st : Station) (block : Block) (state : GenerationState) (windowStart : ℤ)
    (fill : Option ℕ) : Walk where
  cat := st.cat
  variety := st.variety
  env := st.env
  block
  state
  windowStart
  measure := st.measures block windowStart fill
  patternId := st.patternId block.pattern
  firstCycle := firstCycle block.pools state
  firstStep := firstStep block.pools state (st.patternId block.pattern)
  firstDone := firstDone block.pools state (st.patternId block.pattern)

/-- One runtime per pool, each turned from its ids. -/
def Walk.openPools (w : Walk) (extras : HashMap (String × EntryId) (Option ℕ))
    (pools : List (Pool × List EntryId × Dice)) : Except String (List PoolRuntime) :=
  pools.mapM fun (cfg, ids, dice) =>
    poolRuntime w.cat w.variety cfg ids w.block.constraints w.state
      (w.state.resume.pool cfg.name) dice w.measure extras

def Station.openWalk (st : Station) (block : Block) (w : Walk) (rule : Option ChannelRule) :
    Except String WalkState := do
  let opening := st.opening block w.windowStart
  let (lists, src) ← resolvePoolSources st.cat st.variety st.env block.groups
    (block.pools.zip opening) { lists := w.state.resume.lists }
  let runtimes ← w.openPools src.extras (block.pools.zip (lists.zip opening))
  return { runtimes, channel := ChannelHistory.new st.cat rule, src }

/-- The number of cycles to walk; a derived count spends one on a partial first cycle. -/
def Walk.cycles (w : Walk) (runtimes : List PoolRuntime) : Except String ℕ :=
  match w.block.cycles with
  | some n =>
    if n > MAX_CYCLES then .error s!"cycles = {n} exceeds the maximum of {MAX_CYCLES}"
    else .ok n
  | none =>
    let n := deriveCycles runtimes w.block.pattern
    .ok (if w.firstStep > 0 then n + 1 else n)

structure BlockBuild where
  ids : List EntryId
  resume : BTreeMap String PoolResume
  /-- `progress[k]` is the resume state had only the first `k` ids aired. -/
  progress : List (BTreeMap String PoolResume)
  lists : BTreeMap String (List FrozenList) := []

def Walk.result (w : Walk) (s : WalkState) (stoppedAt : ℕ × ℕ) : BlockBuild :=
  let resume := poolsResume s.runtimes stoppedAt.1 stoppedAt.2 0 w.patternId
  { ids := s.out
    resume
    progress := s.progress ++ [resume]
    lists := s.src.lists.filter fun (name, _) => w.block.pools.any (·.name == name) }

def Station.build (st : Station) (block : Block) (state : GenerationState) (windowStart : ℤ)
    (fill : Option ℕ) (rule : Option ChannelRule) : Except String BlockBuild := do
  let w := st.walk block state windowStart fill
  let s ← st.openWalk block w rule
  let cycles ← w.cycles s.runtimes
  let (s, stoppedAt) ← w.run (block.budget fill) (w.endOf cycles) (w.positions cycles) s
  return w.result s stoppedAt

end EtvStation
