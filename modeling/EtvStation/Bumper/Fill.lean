import EtvStation.Bumper.Timeline
import EtvStation.Rotation
import EtvStation.Resume
import EtvStation.Rule
import EtvStation.SwapTicks
import Mathlib.Logic.Function.Basic

/-! The align/fill pass. Programmes of an aligned block end on arbitrary nanoseconds; the gap to
the next grid line is filled with bumper timelines, whole pool items and black. -/
namespace EtvStation.Bumper

def FILL_FPS : ℚ := 30

/-- Longest a chain of draws may run before the rest of a gap is black. -/
def MAX_DRAWS_PER_GAP : ℕ := 400

inductive CandidateSource where
  | script (script : String)
  | pool (name : String)
  deriving DecidableEq, Repr

structure FillCandidate where
  source : CandidateSource
  weight : ℕ
  condition : Option String := none
  minGapMs : ℕ := 0
  maxGapMs : Option ℕ := none
  deriving DecidableEq, Repr

structure FillPlan where
  every : ℕ
  minFill : ℕ
  entries : List FillCandidate
  deriving DecidableEq, Repr

variable {β : Type}

abbrev Piece (β : Type) := ResolvedItem β × ℕ

/-- The programmes a draw sits between, and the line the one after it is to start on. -/
structure Around (β : Type) where
  prev : Option (ResolvedItem β)
  ahead : List (ResolvedItem β)
  boundary : ℤ
  airDate : String

/-- What the pass needs that is not the schedule: the channel, its clock and plans, the items of
its fill pools, what the bumper scripts and `when:` expressions answer, and the media files. -/
structure FillEnv (β : Type) where
  channel : String
  idPrefix : String
  zone : Zone
  plans : List (Option FillPlan)
  pools : ℕ × String → Option (List (Piece β))
  evaluates : String → ℕ → Around β → Bool
  build : String → ℕ → ℕ → Around β → List BumperRow → Except String (List Segment)
  lenMs : String → Option ℕ
  stillGraph : ResolvedSegment → String
  dress : ResolvedSegment → β
  blank : β
  airDate : ℤ → String

/-- What the pass accumulates: the ledger rows of the bumpers it placed, and which items of each
pool it has aired. -/
structure PassState where
  records : List BumperRow := []
  used : ℕ × String → List ℕ := fun _ => []

/-- The first grid line at or after `t`: lines every `every` from local midnight. -/
def boundaryAtOrAfter (zone : Zone) (t : ℤ) (every : ℕ) : ℤ :=
  let midnight := zone.localMidnightAtOrBefore t
  let stepNs : ℤ := max every 1
  let lines := (t - midnight + stepNs - 1).tdiv stepNs
  midnight + every * lines

def roundMs (d : ℤ) : ℕ := ((max d 0 + 500000) / MILLISECOND).toNat

def totalNs (pieces : List (Piece β)) : ℤ := ((pieces.map Prod.snd).sum : ℕ)

def rngSeed (channel : String) (nextEntryId : Option String) (airDate : String) : UInt64 :=
  mixSeed (mixSeed (fnv1a channel) (fnv1a (nextEntryId.getD ""))) (fnv1a airDate)

/-- Where among `entries` a weighted pick falls, the first when past them all. -/
def weightedIndex : ℕ → List FillCandidate → ℕ → ℕ
  | _, [], _ => 0
  | i, e :: es, pick =>
    if pick < max e.weight 1 then i else weightedIndex (i + 1) es (pick - max e.weight 1)

def weightedOrder (seed : UInt64) : ℕ → ℕ → List FillCandidate → List FillCandidate
  | 0, _, _ => []
  | fuel + 1, n, left =>
    let total := (left.map fun e => max e.weight 1).sum
    let index := weightedIndex 0 left ((mixSeed seed (UInt64.ofNat n)).toNat % total)
    match left[index]? with
    | some e => e :: weightedOrder seed fuel (n + 1) (left.eraseIdx index)
    | none => []

/-- Whether a timeline covers the gap without a filler. -/
def canReach (timeline : List Segment) (gapMs : ℕ) : Bool :=
  timeline.any (fun s => s.loop) ||
    gapMs ≤ (timeline.map fun s =>
      match s.duration with
      | .fixed ms => ms
      | .flex _ maxMs _ => maxMs).sum

/-- The items of one segment: its file, or what stands for it, over the segment's length. -/
def FillEnv.segmentSpans (env : FillEnv β) (idBase : String) (seg : ResolvedSegment) (begin : ℤ) :
    List Span :=
  let finish := begin + seg.durationMs * MILLISECOND
  match seg.segment.source with
  | .clip path inMs outMs =>
    let window := outMs - inMs
    let window := if seg.segment.loop then min window ((env.lenMs path).elim window (· - inMs))
      else window
    pushLocalSpan env.lenMs idBase path inMs window seg.segment.loop begin seg.durationMs
  | .render path => pushLocalPadded env.lenMs idBase path 0 begin seg.durationMs
  | .pending _ standIn => pushLocalPadded env.lenMs idBase standIn 0 begin seg.durationMs
  | .http url _ _ => [⟨idBase, begin, finish, .http url⟩]
  | .lavfi params => [⟨idBase, begin, finish, .lavfi params⟩]
  | .still _ => [⟨idBase, begin, finish, .lavfi (env.stillGraph seg)⟩]

def pendingOf (s : Segment) : Option Pending :=
  match s.source with
  | .pending path _ => some ⟨path, s.loop⟩
  | _ => none

def FillEnv.emitTimeline (env : FillEnv β) (segments : List ResolvedSegment) (start : ℤ) :
    List (PlayoutItem β) :=
  segments.zipIdx.flatMap fun (seg, index) =>
    (env.segmentSpans s!"{env.idPrefix}{env.channel}:{start / MILLISECOND}:{index}" seg
        (start + seg.startMs * MILLISECOND)).map fun span =>
      { id := span.id, start := span.start, finish := span.finish, source := some span.source,
        pending := pendingOf seg.segment, segment := some seg.segment.name, rest := env.dress seg }

def FillEnv.pieceFrom (env : FillEnv β) (item : PlayoutItem β) (block : ℕ) : Piece β :=
  ({ id := item.id, block, bumper := some (some item), errorCard := false, rest := env.blank
     source :=
      match item.source with
      | some (.local_ path lo hi) => .local_ path lo hi
      | some (.lavfi params) => .lavfi params
      | _ => .lavfi "color=c=black" },
    (item.finish - item.start).toNat)

def FillEnv.blackPiece (env : FillEnv β) (block : ℕ) (at_ length : ℤ) : Piece β :=
  env.pieceFrom
    { id := s!"{env.idPrefix}{env.channel}:{at_ / MILLISECOND}:black", start := at_,
      finish := at_ + length, source := some (.lavfi "color=c=black"), segment := some "black",
      rest := env.blank } block

/-- What a segment's ledger row names. -/
def SegmentSource.location : SegmentSource → String
  | .clip path _ _ => path
  | .http url _ _ => url
  | .lavfi params => params
  | .still imagePath => imagePath
  | .render path => path
  | .pending _ standIn => standIn

def bumperRecords (segments : List ResolvedSegment) (gapStart : ℤ) : List BumperRow :=
  segments.map fun seg =>
    ⟨seg.segment.name, gapStart + seg.startMs * MILLISECOND, seg.segment.source.location⟩

/-- The items of a pool from the `i`-th on that fit in `left` one after another, each leaving
`minFill`, with their places in the pool. -/
def scanPool (minFill : ℕ) (skip : ℕ → Bool) : ℕ → List (Piece β) → ℤ → List (ℕ × Piece β)
  | _, [], _ => []
  | i, (item, length) :: rest, left =>
    if !skip i && 0 < length && length + minFill ≤ left then
      (i, item, length) :: scanPool minFill skip (i + 1) rest (left - length)
    else scanPool minFill skip (i + 1) rest left

/-- The pool items an entry airs in a gap of `remaining`, and whether the pool starts over to
find them. -/
def FillEnv.poolPicks (env : FillEnv β) (plan : FillPlan) (block : ℕ) (name : String)
    (remaining : ℤ) (used : ℕ × String → List ℕ) : List (ℕ × Piece β) × Bool :=
  match env.pools (block, name) with
  | none => ([], false)
  | some items =>
    let aired := used (block, name)
    let fresh := scanPool plan.minFill (fun i => aired.contains i) 0 items remaining
    if !fresh.isEmpty || aired.isEmpty then (fresh, false)
    else (scanPool plan.minFill (fun _ => false) 0 items remaining, true)

/-- One script's built and fitted timeline. -/
structure Drawn where
  timeline : List Segment
  resolved : Option (List ResolvedSegment)
  failed : Bool

/-- Draw from a script; one that fails is replaced by black over the gap. -/
def FillEnv.drawOne (env : FillEnv β) (script : String) (gapMs draw : ℕ) (around : Around β)
    (pass : List BumperRow) : Drawn :=
  match env.build script gapMs draw around pass with
  | .ok timeline => ⟨timeline, (fit timeline gapMs FILL_FPS).toOption, false⟩
  | .error _ =>
    let timeline : List Segment := [⟨"black", .black, .fixed gapMs, false, false, 0⟩]
    ⟨timeline, (fit timeline gapMs FILL_FPS).toOption, true⟩

/-- One gap: its plan and block, what it lies between, and the line it runs to. -/
structure GapEnv (β : Type) where
  env : FillEnv β
  plan : FillPlan
  block : ℕ
  around : Around β
  seed : UInt64

namespace GapEnv

variable (g : GapEnv β)

def candidate (remaining : ℤ) (used : ℕ × String → List ℕ) (e : FillCandidate) : Bool :=
  e.minGapMs ≤ roundMs remaining &&
    e.condition.all (fun src => g.env.evaluates src (roundMs remaining) g.around) &&
    match e.source with
    | .script _ => true
    | .pool name => !(g.env.poolPicks g.plan g.block name remaining used).1.isEmpty

/-- The entries of a draw in the order they are tried, and whether it is to be the last. -/
def order (draw : ℕ) (remaining : ℤ) (used : ℕ × String → List ℕ) :
    List FillCandidate × Bool :=
  let admitted := g.plan.entries.filter (g.candidate remaining used)
  let covering := admitted.filter fun e => e.maxGapMs.all (roundMs remaining ≤ ·)
  let pool := if covering.isEmpty then admitted else covering
  (weightedOrder (mixSeed g.seed (UInt64.ofNat draw)) pool.length 0 pool, !covering.isEmpty)

/-- Try scripts until one draws well; the first is kept when none does. -/
def choose (draw remainingMs : ℕ) (lastDraw : Bool) (records : List BumperRow) :
    List FillCandidate → Option Drawn → Option Drawn
  | [], chosen => chosen
  | cand :: rest, chosen =>
    match cand.source with
    | .pool _ => choose draw remainingMs lastDraw records rest chosen
    | .script script =>
      let drawMs := if lastDraw then remainingMs
        else min (cand.maxGapMs.getD remainingMs) remainingMs
      let drawn := g.env.drawOne script drawMs draw g.around records
      if !drawn.failed && (!lastDraw || canReach drawn.timeline drawMs) then some drawn
      else choose draw remainingMs lastDraw records rest (some (chosen.getD drawn))

/-- The pieces of one draw, the state after it, and whether the gap ends with it. -/
structure Draw (β : Type) where
  pieces : List (Piece β)
  state : PassState
  stop : Bool

/-- End the gap in black when the pieces drawn take no time. -/
def orBlack (cursor : ℤ) (pieces : List (Piece β)) (state : PassState) : Draw β :=
  if totalNs pieces ≤ 0 then
    ⟨pieces ++ [g.env.blackPiece g.block cursor (g.around.boundary - cursor)], state, true⟩
  else ⟨pieces, state, false⟩

/-- One draw from a gap with `cursor` to its line left. -/
def drawAt (draw : ℕ) (cursor : ℤ) (state : PassState) : Draw β :=
  let remaining := g.around.boundary - cursor
  let black := g.env.blackPiece g.block cursor remaining
  let (order, lastDraw) := g.order draw remaining state.used
  match order with
  | [] => ⟨[black], state, true⟩
  | first :: _ =>
    match first.source with
    | .pool name =>
      let (picks, wrapped) := g.env.poolPicks g.plan g.block name remaining state.used
      let aired := if wrapped then [] else state.used (g.block, name)
      g.orBlack cursor (picks.map Prod.snd) { state with
        used := Function.update state.used (g.block, name) (aired ++ picks.map Prod.fst) }
    | .script _ =>
      match (g.choose draw (roundMs remaining) lastDraw state.records order none).bind
          Drawn.resolved with
      | none => ⟨[black], state, true⟩
      | some segments =>
        g.orBlack cursor ((g.env.emitTimeline segments cursor).map (g.env.pieceFrom · g.block))
          { state with records := state.records ++ bumperRecords segments cursor }

/-- Where a gap is done without a draw: at its line, a rounding short of it, or too short or too
often drawn from for anything but black. -/
def rest (cursor : ℤ) (capped : Bool) : Option (List (Piece β)) :=
  let remaining := g.around.boundary - cursor
  if remaining ≤ 0 ∨ roundMs remaining = 0 then some []
  else if remaining < g.plan.minFill ∨ capped then some [g.env.blackPiece g.block cursor remaining]
  else none

/-- Draw until the gap is done; `left` draws remain. -/
def fillLoop : (left : ℕ) → ℤ → PassState → List (Piece β) × PassState
  | 0, cursor, state => ((g.rest cursor true).getD [], state)
  | left + 1, cursor, state =>
    match g.rest cursor false with
    | some pieces => (pieces, state)
    | none =>
      let d := g.drawAt (MAX_DRAWS_PER_GAP - (left + 1)) cursor state
      if d.stop then (d.pieces, d.state)
      else
        let (more, state) := fillLoop left (cursor + totalNs d.pieces) d.state
        (d.pieces ++ more, state)

end GapEnv

/-- Nudge the last piece's length so that the pieces end on `boundary`. -/
def landOn (at_ boundary : ℤ) : ℕ → List (Piece β) → List (Piece β)
  | 0, pieces => pieces
  | n + 1, pieces =>
    let miss := boundary - (at_ + totalNs pieces)
    if miss = 0 then pieces
    else
      match pieces.getLast? with
      | none => pieces
      | some (item, length) =>
        landOn at_ boundary n (pieces.dropLast ++ [(item, (length + miss).toNat)])

/-- Whether a gap that ends on `boundary` is no gap: its start is on a line, or just past one. -/
def onGrid (every : ℕ) (at_ boundary : ℤ) : Bool :=
  boundary ≤ at_ || every - MILLISECOND < boundary - at_

def FillEnv.gap (env : FillEnv β) (plan : FillPlan) (at_ : ℤ) (prev : Option (ResolvedItem β))
    (ahead : List (ResolvedItem β)) (block : ℕ) : GapEnv β where
  env := env
  plan := plan
  block := block
  around := ⟨prev, ahead, boundaryAtOrAfter env.zone at_ plan.every, env.airDate at_⟩
  seed := rngSeed env.channel (ahead.head?.map (·.id)) (env.airDate at_)

def FillEnv.fillGap (env : FillEnv β) (plan : FillPlan) (at_ : ℤ) (prev : Option (ResolvedItem β))
    (ahead : List (ResolvedItem β)) (block : ℕ) (state : PassState) :
    List (Piece β) × PassState :=
  let boundary := boundaryAtOrAfter env.zone at_ plan.every
  if onGrid plan.every at_ boundary then ([], state)
  else
    let (pieces, state) :=
      (env.gap plan at_ prev ahead block).fillLoop MAX_DRAWS_PER_GAP at_ state
    (landOn at_ boundary 8 pieces, state)

def FillEnv.planFor (env : FillEnv β) (item : ResolvedItem β) : Option FillPlan :=
  (env.plans[item.block]?).join

structure Laid (β : Type) where
  items : List (ResolvedItem β)
  durations : List ℕ
  progress : List Progress
  bumperRecords : List BumperRow := []

/-- The pieces after an item that ends at `at_`, none when its block does not align. -/
def FillEnv.after (env : FillEnv β) (item : ResolvedItem β) (at_ : ℤ)
    (ahead : List (ResolvedItem β)) (state : PassState) : List (Piece β) × PassState :=
  match env.planFor item with
  | some plan => env.fillGap plan at_ (some item) ahead item.block state
  | none => ([], state)

/-- The pieces that follow each item, laid from `at_`. -/
def FillEnv.fillAfter (env : FillEnv β) :
    List (Piece β) → ℤ → PassState → List (List (Piece β)) × PassState
  | [], _, state => ([], state)
  | (item, duration) :: rest, at_, state =>
    let (pieces, state) := env.after item (at_ + duration) (rest.map Prod.fst) state
    let (gaps, state) := fillAfter env rest (at_ + duration + totalNs pieces) state
    (pieces :: gaps, state)

def FillEnv.fillLead (env : FillEnv β) (items : List (Piece β)) (start : ℤ) (leading : Bool)
    (state : PassState) : List (Piece β) × PassState :=
  match items.head? with
  | some (first, _) =>
    match env.planFor first with
    | some plan =>
      if leading then env.fillGap plan start none (items.map Prod.fst) first.block state
      else ([], state)
    | none => ([], state)
  | none => ([], state)

def carry (progress : Progress) (pieces : List (Piece β)) : List (Piece β × Progress) :=
  pieces.map fun piece => (piece, progress)

/-- Move the items into a new schedule with the pieces between, each piece with the state
entering the item after it. -/
def weave (endProgress : Progress) :
    List (Piece β × Progress) → List (List (Piece β)) → List (Piece β × Progress)
  | [], _ => []
  | entry :: rest, gaps =>
    entry :: carry ((rest.head?.map Prod.snd).getD endProgress) (gaps.headD []) ++
      weave endProgress rest gaps.tail

/-- Insert bumpers into every gap the aligned blocks leave, from item `skip` on. -/
def fillGaps (env : FillEnv β) (laid : Laid β) (skip : ℕ) (start : ℤ) (fillLeading : Bool)
    (endProgress : Progress) : Laid β :=
  if env.plans.all Option.isNone || laid.items.length ≤ skip then laid
  else
    let entries := (laid.items.zip laid.durations).zip laid.progress
    let aired := (laid.items.zip laid.durations).drop skip
    let (lead, state) := env.fillLead aired start fillLeading {}
    let (gaps, state) := env.fillAfter aired (start + totalNs lead) state
    let entering := ((entries.drop skip).head?.map Prod.snd).getD endProgress
    let out := entries.take skip ++ carry entering lead ++
      weave endProgress (entries.drop skip) gaps
    ⟨out.map (·.1.1), out.map (·.1.2), out.map Prod.snd, state.records⟩

end EtvStation.Bumper
