import EtvStation.Resolve.Sequence
import EtvStation.Rule

/-! Resolving a generation: the blocks on air laid one after another, the entries list seated where
it left off and cut to the window, the adjacency pass over the whole, and the state entering each
item. -/
namespace EtvStation.Resolve

variable {β : Type}

inductive Mode where
  | all
  | count (n : ℕ)
  deriving DecidableEq, Repr

/-- What a block airs. An entries block's list is drawn with the channel's seed. -/
inductive Body (β : Type) where
  | pattern (block : Block)
  | sequencer (block : SequencerBlock)
  | entries (resolve : UInt64 → Except String (List (ResolvedItem β)))

structure BlockInclude (β : Type) where
  body : Body β
  mode : Mode := .all
  constraints : Constraints := {}
  /-- Whether an entries block has an `order: random` anywhere. -/
  random : Bool := false
  isRotation : Bool := false

namespace BlockInclude

variable (b : BlockInclude β)

def pools : List Pool :=
  match b.body with
  | .pattern block => block.pools
  | .sequencer block => block.pools
  | .entries _ => []

/-- A block whose pools keep what it airs apart, a pattern or a sequencer. -/
def isPattern : Bool :=
  match b.body with
  | .pattern _ | .sequencer _ => true
  | .entries _ => false

/-- Whether the block lays a list the channel's seed shapes in one pass. -/
def laysSeededList : Bool :=
  match b.body with
  | .pattern _ => false
  | .sequencer _ => true
  | .entries _ => b.random

end BlockInclude

inductive OnAir where
  | anyTime
  | slot (slot : String) (index : ℕ) (placement : Option ℤ)
  deriving DecidableEq, Repr

def OnAir.sameBlock : OnAir → OnAir → Bool
  | .anyTime, .anyTime => true
  | .slot _ a pa, .slot _ b pb => a == b && pa == pb
  | _, _ => false

/-- What the channel's schedules answer, a rotation drawn down to the member that airs. -/
structure Calendar where
  onAir : ℤ → OnAir
  onAirDrawn : ℤ → BTreeMap String RotationResume → OnAir × BTreeMap String RotationResume

def MINUTE : ℤ := 60000000000

/-- The first of the minutes from `t`, before `until`, at which another block is on air. -/
def Calendar.changeFrom (c : Calendar) (now : OnAir) (until_ : ℤ) : (fuel : ℕ) → ℤ → Option ℤ
  | 0, _ => none
  | fuel + 1, t =>
    if t < until_ then
      if !(c.onAir t).sameBlock now then some t else c.changeFrom now until_ fuel (t + MINUTE)
    else none

/-- The first whole minute after `from_` and before `until` at which another block is on air. -/
def Calendar.nextChange (c : Calendar) (from_ until_ : ℤ) : Option ℤ :=
  c.changeFrom (c.onAir from_) until_ (until_ - from_).toNat (from_ / MINUTE * MINUTE + MINUTE)

structure RuleConfig (β : Type) where
  blocks : List (BlockInclude β)
  slots : BTreeMap String (BlockInclude β) := []
  noRepeatWithin : Option NoRepeatWithin := none
  /-- Absent on a channel with no schedules. -/
  calendar : Option Calendar := none

def RuleConfig.allBlocks (rule : RuleConfig β) : List (BlockInclude β) :=
  rule.blocks ++ rule.slots.map Prod.snd

/-- What resolving reads beside the rule: the walk's catalog and dice, the catalog's row for a
drawn id (none when it cannot be played), the length on record of an item or of the ids of the
tail, and the nominal one. -/
structure Env (β : Type) where
  station : Station
  seed : ℤ → UInt64
  nextRollover : ℤ → List Pool → Option ℤ
  catalogItem : ℕ → EntryId → Except String (Option (ResolvedItem β))
  known : ResolvedItem β → Option ℕ
  tailLengths : List EntryId → List ℕ
  nominal : ℕ

inductive Step where
  | pool (block seq : ℕ)
  | entry (offset : ℕ)
  deriving DecidableEq, Repr

structure BlockItems (β : Type) where
  items : List (ResolvedItem β)
  steps : List Step
  poolProgress : List (BTreeMap String PoolResume)

/-- An item with its block's limits and where it sits in its block's progress. -/
structure Row (β : Type) where
  item : ResolvedItem β
  limits : Limits
  separateField : Option String
  step : Step

/-- Where the entries list was seated: `start` into `total`, with `laid` items from there. -/
structure EntriesSeat where
  start : ℕ
  total : ℕ
  laid : ℕ
  deriving DecidableEq, Repr

/-- The list position once `aired` of the laid items have aired. -/
def EntriesSeat.position (s : EntriesSeat) (aired : ℕ) : ℕ := (s.start + aired) % s.total

/-- How many items from the top it takes to cover `fill`, the one that crosses it included. -/
def itemsCovering (fill : ℕ) : (laid count : ℕ) → List ℕ → ℕ
  | _, count, [] => max count 1
  | laid, count, d :: ds =>
    if laid + d ≥ fill then count + 1 else itemsCovering fill (laid + d) (count + 1) ds

/-- A drawn list's items: an id the catalog cannot play is skipped, then `count` cuts. -/
def resolvePoolBlockItems (catalogItem : EntryId → Except String (Option (ResolvedItem β)))
    (build : BlockBuild) (mode : Mode) (idx : ℕ) : Except String (BlockItems β) := do
  let found ← build.ids.mapM catalogItem
  let playable := found.zipIdx.filterMap fun (item, seq) =>
    item.map fun item => (item, Step.pool idx seq)
  let kept := match mode with
    | .all => playable
    | .count n => playable.take n
  return ⟨kept.map Prod.fst, kept.map Prod.snd, build.progress⟩

/-- The keys the adjacency pass compares, an item's group read only where it is separated. -/
def adjacencyKeys (cat : Catalog) (ids : List EntryId) (fields : List (Option String))
    (durations : List ℕ) : Except String (List ItemKeys) :=
  (ids.zip fields).zipIdx.mapM fun ((id, field), i) =>
    match field with
    | none => .ok { id, duration := durations.getD i 0 }
    | some field => do
      let ns ← cat.tagNs field
      let group ← (cat.tagsFor id ns).mapError fun e => s!"reading {field.quote} for {id}: {e}"
      return { id, group, duration := durations.getD i 0 }

/-- Later entries replace earlier ones. -/
def extend {ν : Type} (m entries : BTreeMap String ν) : BTreeMap String ν :=
  entries.foldl (fun m e => m.put e.1 e.2) m

namespace Env

variable (env : Env β)

/-- Each item's length; one not on record counts at the mean of those that are. -/
def estimatedRuntimes (items : List (ResolvedItem β)) : List ℕ :=
  let known := items.map env.known
  let measured := known.filterMap id
  let standIn := if measured.isEmpty then env.nominal else measured.sum / measured.length
  known.map (·.getD standIn)

def entriesWindow (span : List (ResolvedItem β)) (position : ℕ) (fill : Option ℕ) : ℕ × ℕ :=
  let start := position % span.length
  (start, match fill with
    | some fill => itemsCovering fill 0 0 ((env.estimatedRuntimes span).rotate start)
    | none => span.length)

/-- Seat one span of the rows where the last generation left off and cut it to the airtime still
wanted. -/
def cutEntriesWindow (rows : List (Row β)) (lo hi position : ℕ) (fill : Option ℕ) :
    List (Row β) × Option EntriesSeat :=
  let span := (rows.drop lo).take (hi - lo)
  if span.isEmpty then (rows, none)
  else
    let (start, laid) := env.entriesWindow (span.map (·.item)) position fill
    let seated := ((span.rotate start).take laid).zipIdx.map fun (row, offset) =>
      { row with step := .entry offset }
    (rows.take lo ++ seated ++ rows.drop hi, some ⟨start, span.length, laid⟩)

end Env

/-- The state entering each item: each block stands just past the furthest of its own items
before it. -/
def progressPerItem (poolProgress : List (List (BTreeMap String PoolResume)))
    (seat : Option EntriesSeat) (position : ℕ) :
    (poolAired : List ℕ) → (entriesAired : ℕ) → List Step → List Progress
  | _, _, [] => []
  | poolAired, entriesAired, step :: steps =>
    let pools := (poolProgress.zip poolAired).foldl (fun pools (progress, aired) =>
      extend pools (progress[aired]?.getD [])) []
    { pools, position := (seat.map (·.position entriesAired)).getD position } ::
      match step with
      | .pool block seq =>
        progressPerItem poolProgress seat position (poolAired.modify block (max · (seq + 1)))
          entriesAired steps
      | .entry offset =>
        progressPerItem poolProgress seat position poolAired (max entriesAired (offset + 1)) steps

section Carry

variable (rule : RuleConfig β)

def poolNames : List String := rule.allBlocks.flatMap fun b => b.pools.map (·.name)

/-- The slot whose entries list aired. -/
def entriesSlot : OnAir → Option String
  | .anyTime => none
  | .slot slot index _ => (rule.allBlocks[index]?.filter fun b => !b.isPattern).map fun _ => slot

/-- The position counted for the list that aired, put under its slot's name, with the position of
the any-time list put back. -/
def place (onAir : OnAir) (before : ResumeMap) (p : Progress) : Progress :=
  let carried := before.slotPositions.filter fun (name, _) => (rule.slots.get name).isSome
  { p with
    slotPositions := match entriesSlot rule onAir with
      | some slot => BTreeMap.put carried slot p.position
      | none => carried
    position := match onAir with
      | .slot _ _ _ => before.position
      | .anyTime => p.position }

def carry (onAir : OnAir) (before : ResumeMap) (rotations : BTreeMap String RotationResume)
    (p : Progress) : Progress :=
  place rule onAir before
    { p with
      pools := extend (before.pools.filter fun (name, _) => name ∈ poolNames rule) p.pools
      rotations := rotations.filter fun (name, _) => (rule.slots.get name).any (·.isRotation) }

/-- A generation airs one slot or the any-time blocks; the state of every other block passes
through its end state and every per-item state. -/
def carryUnairedState (onAir : OnAir) (before : ResumeMap)
    (rotations : BTreeMap String RotationResume) (resumeOut : ResumeMap)
    (progress : List Progress) : ResumeMap × List Progress :=
  let kept := before.lists.filter fun (name, _) =>
    name ∈ poolNames rule ∧ (resumeOut.lists.get name).isNone
  ({ resumeOut with
      toProgress := carry rule onAir before rotations resumeOut.toProgress
      lists := extend resumeOut.lists kept },
    progress.map (carry rule onAir before rotations))

end Carry

/-- What the blocks laid so far come to. -/
structure Laying (β : Type) where
  rows : List (Row β) := []
  pools : BTreeMap String PoolResume := []
  lists : BTreeMap String (List FrozenList) := []
  spans : List (ℕ × ℕ × Bool) := []
  poolProgress : List (List (BTreeMap String PoolResume)) := []

namespace Env

variable (env : Env β)

/-- What a pattern block's channel-wide repeat rule reads as aired before it. -/
def channelAired (state : GenerationState) (fill : Option ℕ) (l : Laying β) : List EntryId :=
  state.tail ++ l.spans.flatMap fun (lo, hi, isPattern) =>
    let span := ((l.rows.drop lo).take (hi - lo)).map (·.item)
    if isPattern || span.isEmpty then span.map (·.id)
    else
      let (start, laid) := env.entriesWindow span state.resume.position fill
      ((span.rotate start).take laid).map (·.id)

def resolvePool (include_ : BlockInclude β) (idx : ℕ) (build : Except String BlockBuild) :
    Except String (BlockItems β × BTreeMap String PoolResume ×
      BTreeMap String (List FrozenList)) := do
  let build ← build.mapError fun m => s!"block #{idx}: {m}"
  let items ← (resolvePoolBlockItems (env.catalogItem idx) build include_.mode idx).mapError
    fun m => s!"block #{idx}: {m}"
  return (items, build.resume, build.lists)

def resolveBlock (include_ : BlockInclude β) (idx : ℕ) (seed : UInt64) (state : GenerationState)
    (fill : Option ℕ) (blockStart : ℤ) (rule : Option ChannelRule) :
    Except String (BlockItems β × BTreeMap String PoolResume ×
      BTreeMap String (List FrozenList)) :=
  match include_.body with
  | .pattern block => env.resolvePool include_ idx
      (env.station.build block state blockStart fill rule)
  | .sequencer block => env.resolvePool include_ idx
      (block.build env.station state blockStart fill)
  | .entries resolve => do
    let items ← (resolve seed).mapError fun m => s!"block #{idx}: {m}"
    let items := match include_.mode with
      | .all => items
      | .count n => items.take n
    return (⟨items, (List.range items.length).map .entry, []⟩, [], [])

/-- A block's step names the block by its place in this generation. -/
def Step.placed (pos : ℕ) : Step → Step
  | .pool _ seq => .pool pos seq
  | .entry offset => .entry offset

def layBlock (rule : RuleConfig β) (state : GenerationState) (seed : UInt64) (fill : Option ℕ)
    (windowStart : ℤ) (l : Laying β) (pos idx : ℕ) (include_ : BlockInclude β) :
    Except String (Laying β) := do
  let blockStart := if l.rows.isEmpty then windowStart
    else windowStart + ((env.estimatedRuntimes (l.rows.map (·.item))).sum : ℕ)
  let channelRule := rule.noRepeatWithin.map fun gap => (
    { gap
      aired := match include_.body with
        | .pattern _ => env.channelAired state fill l
        | _ => []
      nominal := env.nominal } : ChannelRule)
  let (block, pools, lists) ← env.resolveBlock include_ idx seed state fill blockStart channelRule
  let c := if include_.isPattern then {} else include_.constraints
  let rows := (block.items.zip block.steps).map fun (item, step) =>
    Row.mk { item with block := idx } c.limits c.separateBy (Step.placed pos step)
  return {
    rows := l.rows ++ rows
    pools := extend l.pools pools
    lists := extend l.lists lists
    spans := l.spans ++ [(l.rows.length, l.rows.length + rows.length, include_.isPattern)]
    poolProgress := l.poolProgress ++ [block.poolProgress] }

def layBlocks (rule : RuleConfig β) (state : GenerationState) (seed : UInt64) (fill : Option ℕ)
    (windowStart : ℤ) : (pos : ℕ) → List (ℕ × BlockInclude β) → Laying β →
    Except String (Laying β)
  | _, [], l => .ok l
  | pos, (idx, include_) :: rest, l => do
    let l ← env.layBlock rule state seed fill windowStart l pos idx include_
    layBlocks rule state seed fill windowStart (pos + 1) rest l

/-- Seat and cut the entries list, one list when no pool block shares the channel. -/
def seatEntries (state : GenerationState) (fill : Option ℕ) (l : Laying β) :
    Except String (List (Row β) × Option EntriesSeat) :=
  let entriesSpans := l.spans.filter fun (_, _, isPattern) => !isPattern
  if entriesSpans.isEmpty then .ok (l.rows, none)
  else if entriesSpans.length = l.spans.length then
    .ok (env.cutEntriesWindow l.rows 0 l.rows.length state.resume.position fill)
  else match entriesSpans with
    | [(lo, hi, _)] => .ok (env.cutEntriesWindow l.rows lo hi state.resume.position fill)
    | _ => .error s!"channel mixes a pattern block with {entriesSpans.length} entries blocks: cutting several entries blocks to the window is only supported today when no pattern block shares the channel (see #190 on resume-position semantics for a fused multi-block cursor)"

/-- The adjacency pass over the rows, run only where something is limited. -/
def constrainRows (state : GenerationState) (rows : List (Row β)) :
    Except String (List (Row β)) :=
  if rows.all (·.limits.isUnconstrained) then .ok rows
  else do
    let needDurations := rows.any (·.limits.isTemporal)
    let items := rows.map (·.item)
    let keys ← adjacencyKeys env.station.cat (items.map (·.id)) (rows.map (·.separateField))
      (if needDurations then env.estimatedRuntimes items else [])
    let tailField := rows.findSome? (·.separateField)
    let preceding ← adjacencyKeys env.station.cat state.tail (state.tail.map fun _ => tailField)
      (if needDurations then env.tailLengths state.tail else [])
    return (orderConstrained keys (rows.map (·.limits)) preceding).order.filterMap (rows[·]?)

/-- The fill after the cut at the next rollover, where a block lays a seeded list in one pass. -/
def rolloverFill (rule : RuleConfig β) (fill : Option ℕ) (windowStart : ℤ) : Option ℕ :=
  fill.map fun span =>
    if rule.allBlocks.any (·.laysSeededList) then
      match env.nextRollover windowStart (rule.allBlocks.flatMap (·.pools)) with
      | some boundary => min span (boundary - windowStart).natAbs
      | none => span
    else span

/-- The fill after the cut at the calendar's next change. -/
def calendarFill (rule : RuleConfig β) (fill : Option ℕ) (windowStart : ℤ) : Option ℕ :=
  match rule.calendar with
  | none => fill
  | some cal =>
    match fill.bind fun f => cal.nextChange windowStart (windowStart + f) with
    | some cut => some (cut - windowStart).natAbs
    | none => fill

/-- The blocks an answer airs, each with its index among all of them. -/
def selected (rule : RuleConfig β) : Option OnAir → List (ℕ × BlockInclude β)
  | some (.slot _ index _) => (rule.allBlocks[index]?.map fun b => (index, b)).toList
  | _ => rule.blocks.zipIdx.map Prod.swap

/-- A slot's entries list continues from its own position. -/
def slotState (state : GenerationState) : Option OnAir → GenerationState
  | some (.slot slot _ _) =>
    { state with
      resume := { state.resume with position := (state.resume.slotPositions.get slot).getD 0 } }
  | _ => state

/-- One generation of a channel from `windowStart`: its items, its end state and the state
entering each item. -/
def resolveChannel (rule : RuleConfig β) (state : GenerationState) (fill : Option ℕ)
    (windowStart : ℤ) : Except String (List (ResolvedItem β) × ResumeMap × List Progress) := do
  let seed := env.seed windowStart
  let answer := rule.calendar.map fun cal => cal.onAirDrawn windowStart state.resume.rotations
  let onAir := answer.map Prod.fst
  let fill := calendarFill rule (env.rolloverFill rule fill windowStart) windowStart
  let airing := slotState state onAir
  let l ← env.layBlocks rule airing seed fill windowStart 0 (selected rule onAir) {}
  let (rows, seat) ← env.seatEntries airing fill l
  if rows.isEmpty then .error "channel resolved to zero items"
  else
    let position := if l.spans.all fun (_, _, isPattern) => isPattern then 0
      else (seat.map fun s => s.position s.laid).getD airing.resume.position
    let rows ← env.constrainRows airing rows
    let progress := progressPerItem l.poolProgress seat position
      (l.poolProgress.map fun _ => 0) 0 (rows.map (·.step))
    let resumeOut : ResumeMap := { pools := l.pools, lists := l.lists, position }
    let (resumeOut, progress) := match answer with
      | some (onAir, rotations) =>
        carryUnairedState rule onAir state.resume rotations resumeOut progress
      | none => (resumeOut, progress)
    return (rows.map (·.item), resumeOut, progress)

end Env

end EtvStation.Resolve
