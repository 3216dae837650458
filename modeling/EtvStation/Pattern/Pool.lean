import EtvStation.Constrain
import EtvStation.Resume
import EtvStation.Pattern.Catalog
import EtvStation.Pattern.Roll
import Mathlib.Data.Finset.Card

/-! A pool mid-walk: which series a visit opens on, what it draws, and where the rotation is
parked after it. State is passed through; an index into `series` is always in range. -/
namespace EtvStation

structure Series where
  key : String
  /-- What the ledger files this series' airings under: the show, never the season. -/
  showKey : String
  ids : List EntryId
  cursor : ℕ := 0
  finished : Bool := false
  deriving DecidableEq, Repr

/-- A cursor past the last item wraps to the top and marks the series finished. -/
def Series.advanceTo (s : Series) (target : ℕ) : Series :=
  { s with
    finished := s.ids.length ≤ target
    cursor := if s.ids.length ≤ target then 0 else target }

def Series.remaining (s : Series) : ℕ := s.ids.length - s.cursor

structure PoolKeys where
  groups : HashMap EntryId (List String) := ∅
  durations : HashMap EntryId ℕ := ∅
  meanDuration : ℕ := 0

def PoolKeys.of (k : PoolKeys) (id : EntryId) : ItemKeys where
  id
  group := k.groups.getD id []
  duration := k.durations.getD id k.meanDuration

def PoolKeys.many (k : PoolKeys) (ids : List EntryId) : List ItemKeys := ids.map k.of

/-- What the channel rule checks a draw against: everything aired, by every pool. -/
structure ChannelHistory where
  limits : Limits := {}
  recent : List ItemKeys := []
  durations : HashMap EntryId ℕ := ∅
  asked : Finset EntryId := ∅
  mean : ℕ := 0
  nominal : ℕ := 0
  blocked : ℕ := 0
  forced : ℕ := 0

namespace ChannelHistory

def isUnconstrained (ch : ChannelHistory) : Bool := ch.limits.isUnconstrained

def allows (ch : ChannelHistory) (id : EntryId) : Bool :=
  !conflictsWithRecent ch.recent { id } ch.limits

/-- Ask the catalog for the ids it has not been asked about; a failed read leaves them
measured at the mean. -/
def measure (cat : Catalog) (ch : ChannelHistory) (ids : List EntryId) : ChannelHistory :=
  let missing := (ids.filter fun id => id ∉ ch.asked).eraseDups
  if missing.isEmpty then ch
  else
    let asked := ch.asked ∪ missing.toFinset
    match poolRuntimes cat missing with
    | .error _ => { ch with asked }
    | .ok (found, _) =>
      let durations := ch.durations.extend found.toList
      { ch with
        asked, durations
        mean := if durations.values.isEmpty then ch.mean else meanOf durations }

/-- What an id counts for: its own length, the mean, or the channel's nominal. -/
def lengthOf (ch : ChannelHistory) (id : EntryId) : ℕ :=
  ch.durations.getD id (if ch.mean = 0 then ch.nominal else ch.mean)

def remember (cat : Catalog) (ch : ChannelHistory) (ids : List EntryId) : ChannelHistory :=
  if ch.isUnconstrained || ids.isEmpty then ch
  else
    let ch := match ch.limits.noRepeat with
      | .duration _ => ch.measure cat ids
      | .positions _ => ch
    let fresh := ids.map fun id => ({ id, duration := ch.lengthOf id } : ItemKeys)
    { ch with recent := trimRecent (ch.recent ++ fresh) ch.limits }

end ChannelHistory

structure PoolRuntime where
  cfg : Pool
  series : List Series
  rotation : ℕ := 0
  limits : Limits := {}
  keys : PoolKeys := {}
  recent : List ItemKeys := []
  forced : ℕ := 0
  runtimes : HashMap EntryId ℕ := ∅
  meanRuntime : ℕ := 0
  takeOverrides : HashMap EntryId ℕ := ∅
  drawn : Finset EntryId := ∅
  exhausted : Bool := false
  refills : ℕ := 0
  listKey : Option String := none
  lap : Finset String := ∅
  visitResumable : Bool := false
  hold : Option Hold := none
  seriesTitles : HashMap String String := ∅
  /-- The span period the next visit airs in. -/
  period : Option (ℤ × ℤ) := none

namespace PoolRuntime

/-- `self.series[si]`. -/
def nth (rt : PoolRuntime) (si : ℕ) : Series := rt.series.getD si ⟨"", "", [], 0, false⟩

def modifyNth (rt : PoolRuntime) (si : ℕ) (f : Series → Series) : PoolRuntime :=
  { rt with series := rt.series.modify si f }

/-- An unmeasured item counts at the pool's mean. -/
def runtimeOf (rt : PoolRuntime) (ids : List EntryId) : ℕ :=
  (ids.map fun id => rt.runtimes.getD id rt.meanRuntime).sum

def isDry (rt : PoolRuntime) : Bool := rt.series.isEmpty

def seriesAt (rt : PoolRuntime) (i : ℕ) : Option ℕ :=
  if rt.series.isEmpty then none else some (i % rt.series.length)

def seriesAfter (rt : PoolRuntime) (si : ℕ) : Option ℕ := rt.seriesAt (si + 1)

def pick (rt : PoolRuntime) (roll : RollKey) (nonce : UInt64) : Option ℕ :=
  match rt.cfg.select with
  | .roundRobin => rt.seriesAt rt.rotation
  | .random => rt.seriesAt (roll.u64At nonce).toNat

def nextId (rt : PoolRuntime) (si : ℕ) : Option EntryId :=
  (rt.nth si).ids[(rt.nth si).cursor]? <|> (rt.nth si).ids.head?

def ownAllows (rt : PoolRuntime) (si : ℕ) : Bool :=
  match rt.nextId si with
  | some id => !conflictsWithRecent rt.recent (rt.keys.of id) rt.limits
  | none => true

def channelAllows (rt : PoolRuntime) (si : ℕ) (ch : ChannelHistory) : Bool :=
  match rt.nextId si with
  | some id => ch.allows id
  | none => true

/-- Played through and sitting out the rest of the lap; a film never rests. -/
def rested (rt : PoolRuntime) (si : ℕ) : Bool :=
  rt.cfg.advance = .resume && (rt.nth si).ids.length > 1 && (rt.nth si).finished &&
    (rt.nth si).key ∈ rt.lap

def admits (rt : PoolRuntime) (si : ℕ) (ch : ChannelHistory) : Bool :=
  !rt.rested si && rt.ownAllows si && rt.channelAllows si ch

/-- Count a draw the channel rule alone turned away. -/
def noteBlocked (rt : PoolRuntime) (si : ℕ) (ch : ChannelHistory) : ChannelHistory :=
  if rt.ownAllows si && !rt.channelAllows si ch then { ch with blocked := ch.blocked + 1 } else ch

def isUnconstrained (rt : PoolRuntime) (ch : ChannelHistory) : Bool :=
  rt.limits.isUnconstrained && ch.isUnconstrained &&
    !(List.range rt.series.length).any rt.rested

/-- Every series once, in rotation order from `start`. -/
def turnsFrom (rt : PoolRuntime) (start : ℕ) : List ℕ :=
  (List.range rt.series.length).map fun step => (start + step) % rt.series.length

/-- The first series the pool's own rule lets serve; `start`, counted, when none does. -/
def ownEligibleFrom (rt : PoolRuntime) (start : ℕ) : ℕ × PoolRuntime :=
  match (rt.turnsFrom start).find? fun si => !rt.rested si && rt.ownAllows si with
  | some si => (si, rt)
  | none =>
    if rt.limits.isUnconstrained then (start, rt)
    else
      match (rt.turnsFrom start).find? rt.ownAllows with
      | some si => (si, rt)
      | none => (start, { rt with forced := rt.forced + 1 })

def scanFrom (rt : PoolRuntime) (start : ℕ) (ch : ChannelHistory) :
    ℕ × PoolRuntime × ChannelHistory :=
  match (rt.turnsFrom start).find? fun si => rt.admits si ch with
  | some si => (si, rt, ch)
  | none =>
    let (si, rt) := rt.ownEligibleFrom start
    (si, rt, if rt.channelAllows si ch then ch else { ch with forced := ch.forced + 1 })

/-- `start`, or the first series after it that may serve. -/
def eligibleFrom (rt : PoolRuntime) (start : ℕ) (ch : ChannelHistory) :
    Option ℕ × PoolRuntime × ChannelHistory :=
  if rt.isUnconstrained ch then (some start, rt, ch)
  else if rt.series.isEmpty then (none, rt, ch)
  else
    let (si, rt, ch) := rt.scanFrom start (rt.noteBlocked start ch)
    (some si, rt, ch)

/-- The rerolls of a blocked random draw, up to `RANDOM_REROLLS`. -/
def reroll (rt : PoolRuntime) (roll : RollKey) (nonce : UInt64) (ch : ChannelHistory) :
    Option ℕ :=
  (List.range RANDOM_REROLLS).findSome? fun k =>
    let attempt := UInt64.ofNat (k + 1)
    match rt.seriesAt (roll.u64At (nonce + attempt * REROLL_STRIDE)).toNat with
    | some si => if rt.admits si ch then some si else none
    | none => none

/-- Which series opens a visit, honouring `select` and the limits. -/
def eligiblePick (rt : PoolRuntime) (roll : RollKey) (nonce : UInt64) (ch : ChannelHistory) :
    Option ℕ × PoolRuntime × ChannelHistory :=
  match rt.pick roll nonce with
  | none => (none, rt, ch)
  | some first =>
    if rt.isUnconstrained ch || rt.admits first ch then (some first, rt, ch)
    else
      let ch := rt.noteBlocked first ch
      let rolled := if rt.cfg.select = .random then rt.reroll roll nonce ch else none
      match rolled with
      | some si => (some si, rt, ch)
      | none =>
        let (si, rt, ch) := rt.scanFrom first ch
        (some si, rt, ch)

/-- A hold from another period, or on a series that ran out or left, moves a round-robin pool
to the series after the one it held. -/
def endHold (rt : PoolRuntime) : PoolRuntime :=
  match rt.hold with
  | none => rt
  | some hold =>
    match rt.cfg.select, rt.series.findIdx? (·.key == hold.series) with
    | .roundRobin, some si => { rt with rotation := (rt.seriesAfter si).getD si }
    | _, _ => rt

/-- The series held for the period that starts at `periodStart`, if its hold still stands. -/
def heldSeries (rt : PoolRuntime) (hold : Hold) (periodStart : ℤ) : Option ℕ :=
  match rt.series.findIdx? (·.key == hold.series) with
  | some si =>
    if hold.periodStart = periodStart && !(rt.nth si).finished then some si else none
  | none => none

/-- The series that opens a visit: the held one while its period lasts, else a pick. -/
def firstSeries (rt : PoolRuntime) (roll : RollKey) (nonce : UInt64) (ch : ChannelHistory) :
    Option ℕ × PoolRuntime × ChannelHistory :=
  match rt.period with
  | none => rt.eligiblePick roll nonce ch
  | some (periodStart, periodEnd) =>
    match rt.hold.bind fun hold => (rt.heldSeries hold periodStart).map fun si => (hold, si) with
    | some (hold, si) =>
      (some si, { rt with hold := some { hold with title := rt.seriesTitles.lookup hold.series } },
        ch)
    | none =>
      match rt.endHold.eligiblePick roll nonce ch with
      | (none, rt, ch) => (none, rt, ch)
      | (some si, rt, ch) =>
        let key := (rt.nth si).key
        (some si,
          { rt with hold := some ⟨key, rt.seriesTitles.lookup key, periodStart, periodEnd⟩ }, ch)

def isFilmsOnly (rt : PoolRuntime) : Bool :=
  !rt.series.isEmpty && rt.series.all fun s => s.ids == [s.key]

def remember (rt : PoolRuntime) (ids : List EntryId) : PoolRuntime :=
  if rt.limits.isUnconstrained || ids.isEmpty then rt
  else { rt with recent := trimRecent (rt.recent ++ rt.keys.many ids) rt.limits }

def takeFrom (rt : PoolRuntime) (si want : ℕ) : List EntryId × PoolRuntime :=
  let s := rt.nth si
  let n := min want s.remaining
  let out := (s.ids.drop s.cursor).take n
  (out, { rt.modifyNth si (·.advanceTo (s.cursor + n)) with drawn := rt.drawn ∪ out.toFinset })

def totalIds (rt : PoolRuntime) : ℕ := (rt.series.map (·.ids.length)).sum

def isDrained (rt : PoolRuntime) : Bool :=
  !rt.series.isEmpty && rt.totalIds ≤ rt.drawn.card

/-- Append the series the pool does not have, and serve them next. -/
def extendWith (rt : PoolRuntime) (series : List Series) (keys : PoolKeys)
    (runtimes : HashMap EntryId ℕ) : ℕ × PoolRuntime :=
  let arrivals := series.filter fun s => !(rt.series.map (·.key)).contains s.key
  let added := (arrivals.map (·.ids.length)).sum
  let rt' := { rt with series := rt.series ++ arrivals }
  if added = 0 then (0, rt')
  else
    let durations := rt.keys.durations.extend keys.durations.toList
    let measured := rt.runtimes.extend runtimes.toList
    let mean := if measured.values.isEmpty then rt.meanRuntime else meanOf measured
    (added,
      { rt' with
        rotation := rt.series.length
        keys := {
          groups := rt.keys.groups.extend keys.groups.toList
          durations
          meanDuration := if measured.values.isEmpty then rt.keys.meanDuration else mean }
        runtimes := measured
        meanRuntime := mean })

def takeOverrideFor (rt : PoolRuntime) (si : ℕ) : Option ℕ :=
  (rt.nth si).ids.findSome? rt.takeOverrides.lookup

/-- The override that stands in for a visit's `take`; a slot draw never asks for one. -/
def overrideTake (rt : PoolRuntime) (first : Option ℕ) : Option ℕ :=
  match rt.cfg.rotate with
  | .visit | .span _ => first.bind rt.takeOverrideFor
  | .slot => none

/-- How many items a visit opened on `first` draws; `none` when `all` has no series to empty.
A resumed visit draws only what had not aired. -/
def serveTake (rt : PoolRuntime) (want : Draw) (first : Option ℕ) (done : ℕ) : Option ℕ :=
  match rt.overrideTake first, want, first with
  | some n, _, _ => some (n - done)
  | none, .count n, _ => some (n - done)
  | none, .all, some si => some (rt.nth si).remaining
  | none, .all, none => none

/-- The authored or scripted count a draw rests on, the one `MAX_TAKE` bounds. -/
def authoredTake (rt : PoolRuntime) (want : Draw) (first : Option ℕ) : Option ℕ :=
  match rt.overrideTake first, want with
  | some n, _ => some n
  | none, .count n => some n
  | none, .all => none

def takeError (n : ℕ) : String := s!"take = {n} exceeds the maximum of {MAX_TAKE}"

/-- `end` and `random` set the cursor absolutely, before the first draw. -/
def placeCursor (rt : PoolRuntime) (from_ : TakeFrom) (si take : ℕ) (roll : RollKey)
    (nonce : UInt64) : PoolRuntime :=
  let lastStart := (rt.nth si).ids.length - take
  match from_ with
  | .start => rt
  | .atEnd => rt.modifyNth si ({ · with cursor := lastStart })
  | .random =>
    rt.modifyNth si
      ({ · with cursor := (roll.u64At (nonce + FROM_STRIDE)).toNat % (lastStart + 1) })

structure Serving where
  rt : PoolRuntime
  channel : ChannelHistory
  out : List EntryId := []
  contributed : HashMap ℕ ℕ := ∅
  last : Option ℕ := none

/-- Who fills the rest of a visit that `si` left short. -/
def shortTurn (rt : PoolRuntime) (si : ℕ) (ch : ChannelHistory) :
    Option ℕ × PoolRuntime × ChannelHistory :=
  match rt.cfg.onShort with
  | .next =>
    match rt.seriesAfter si with
    | some next => rt.eligibleFrom next ch
    | none => (none, rt, ch)
  | .wrap =>
    (some si,
      if !rt.limits.isUnconstrained && !rt.ownAllows si then { rt with forced := rt.forced + 1 }
      else rt,
      if rt.channelAllows si ch then ch else { ch with forced := ch.forced + 1 })
  | .short => (none, rt, ch)

/-- What a pass that took `taken` from `si` leaves behind. -/
def Serving.took (cat : Catalog) (s : Serving) (rt : PoolRuntime) (si : ℕ)
    (taken : List EntryId) : Serving where
  rt := rt.remember taken
  channel := s.channel.remember cat taken
  out := s.out ++ taken
  contributed := s.contributed.insert si (s.contributed.getD si 0 + taken.length)
  last := some si

/-- Draw from `current` until `take` items are out, nobody can fill the rest, or the backstop
on the number of passes is spent. -/
def serveLoop (cat : Catalog) (take : ℕ) : (passes : ℕ) → Option ℕ → Serving → Serving
  | 0, _, s => s
  | _ + 1, none, s => s
  | passes + 1, some si, s =>
    let (taken, rt) := s.rt.takeFrom si (take - s.out.length)
    if taken.isEmpty then { s with rt }
    else
      let s := s.took cat rt si taken
      if take ≤ s.out.length then s
      else
        let (next, rt, channel) := s.rt.shortTurn si s.channel
        serveLoop cat take passes next { s with rt, channel }

/-- A held series that spilled onto another hands the hold to the one that finished. -/
def passHold (rt : PoolRuntime) (first last : Option ℕ) : PoolRuntime :=
  match rt.hold, last, rt.period with
  | some hold, some si, some _ =>
    if some si = first then rt
    else
      let key := (rt.nth si).key
      { rt with hold := some { hold with series := key, title := rt.seriesTitles.lookup key } }
  | _, _, _ => rt

/-- Mark who contributed; a lap that covers every series starts over empty. -/
def noteLap (rt : PoolRuntime) (contributed : List ℕ) : PoolRuntime :=
  let lap := rt.lap ∪ (contributed.map fun si => (rt.nth si).key).toFinset
  { rt with lap := if rt.series.all fun s => s.key ∈ lap then ∅ else lap }

/-- Park a round-robin rotation past a series that had its turn, on one that has more to
give. -/
def park (rt : PoolRuntime) (last : Option ℕ) (contributed : HashMap ℕ ℕ) (take : ℕ) :
    PoolRuntime :=
  match last, rt.cfg.select with
  | some si, .roundRobin =>
    let servedAll := contributed.getD si 0 ≥ take
    let drained := (rt.nth si).cursor = 0
    { rt with rotation := if servedAll ∨ drained then (rt.seriesAfter si).getD si else si }
  | _, _ => rt

/-- What follows the loop: the hold, the lap, whether the visit can be resumed, the parking. -/
def Serving.finish (s : Serving) (from_ : TakeFrom) (first : Option ℕ) (take : ℕ) :
    List EntryId × PoolRuntime × ChannelHistory :=
  let rt := (s.rt.passHold first s.last).noteLap s.contributed.keys
  let rt := { rt with
    visitResumable := s.contributed.keys.length == 1 && from_ == TakeFrom.start }
  (s.out, rt.park s.last s.contributed take, s.channel)

/-- The draws of a visit once its `take` is known. -/
def serveDraws (cat : Catalog) (rt : PoolRuntime) (from_ : TakeFrom) (first : Option ℕ)
    (take : ℕ) (roll : RollKey) (nonce : UInt64) (ch : ChannelHistory) :
    List EntryId × PoolRuntime × ChannelHistory :=
  let rt := match first with
    | some si => rt.placeCursor from_ si take roll nonce
    | none => rt
  (serveLoop cat take (take + rt.series.length + 1) first { rt, channel := ch }).finish
    from_ first take

/-- Serve one visit from one picked series, rolling onto others per `on_short`. -/
def serve (cat : Catalog) (rt : PoolRuntime) (want : Draw) (from_ : TakeFrom) (roll : RollKey)
    (nonce : UInt64) (done : ℕ) (ch : ChannelHistory) :
    Except String (List EntryId × PoolRuntime × ChannelHistory) :=
  let (first, rt, ch) := rt.firstSeries roll nonce ch
  match rt.serveTake want first done with
  | none => .ok ([], rt, ch)
  | some take =>
    match rt.authoredTake want first with
    | some n =>
      if n > MAX_TAKE then .error (takeError n)
      else .ok (rt.serveDraws cat from_ first take roll nonce ch)
    | none => .ok (rt.serveDraws cat from_ first take roll nonce ch)

/-- `left` one-item draws of a `rotate: slot` visit, from slot `slot` on. -/
def serveSlots (cat : Catalog) (from_ : TakeFrom) (roll : RollKey) :
    (left slot : ℕ) → List EntryId → PoolRuntime → ChannelHistory →
    Except String (List EntryId × PoolRuntime × ChannelHistory)
  | 0, _, out, rt, ch => .ok (out, rt, ch)
  | left + 1, slot, out, rt, ch =>
    if rt.isDry then .ok (out, rt, ch)
    else do
      let (ids, rt, ch) ← rt.serve cat (.count 1) from_ roll (UInt64.ofNat slot) 0 ch
      serveSlots cat from_ roll left (slot + 1) (out ++ ids) rt ch

/-- One visit to a step. `done` of its items aired before a generation resumed inside it. -/
def visit (cat : Catalog) (rt : PoolRuntime) (take : Take) (from_ : TakeFrom) (roll : RollKey)
    (done : ℕ) (ch : ChannelHistory) :
    Except String (List EntryId × PoolRuntime × ChannelHistory) :=
  let rt := { rt with visitResumable := false }
  let want := resolveTake take roll
  if want = .count 0 || rt.isDry then .ok ([], rt, ch)
  else
    match rt.cfg.rotate with
    | .slot =>
      let n := want.slots
      if n > MAX_TAKE then .error (takeError n)
      else do
        let (out, rt, ch) ← serveSlots cat from_ roll n 0 [] rt ch
        return (out, { rt with visitResumable := false }, ch)
    | .visit | .span _ => rt.serve cat want from_ roll 0 done ch

/-- The state to persist. A `restart` pool keeps no position, lap or draws; only a
round-robin pool has a next. `pattern` is stamped by `poolsResume`. -/
def toResume (rt : PoolRuntime) (cycle step done : ℕ) : PoolResume where
  next := match rt.cfg.select with
    | .roundRobin => (rt.seriesAt rt.rotation).map fun i => (rt.nth i).key
    | .random => none
  cycle := if rt.cfg.advance = .resume then cycle else 0
  step := if rt.cfg.advance = .resume then step else 0
  done := if rt.cfg.advance = .resume then done else 0
  list := rt.listKey
  hold := rt.hold
  lap := if rt.cfg.advance = .resume then rt.lap else ∅
  drawn := if rt.cfg.advance = .resume ∧ rt.listKey.isSome then rt.drawn else ∅

/-- Open on the first series of a new list that this lap has not visited. -/
def openAfterRollover (rt : PoolRuntime) (prev : PoolResume) : PoolRuntime :=
  let lap := prev.lap.filter fun k => k ∈ rt.series.map (·.key)
  let lap := if rt.series.all fun s => s.key ∈ lap then ∅ else lap
  { rt with lap, rotation := (rt.series.findIdx? fun s => s.key ∉ lap).getD 0 }

/-- The last item each series aired, told by a live cursor. -/
def lastAired (rt : PoolRuntime) (key : String) : Option EntryId :=
  ((rt.series.filter fun s => s.cursor > 0).find? fun s => s.key == key).bind fun s =>
    s.ids[s.cursor - 1]?

/-- One series of a new list, with what the walk did to the old one carried over. -/
def carriedSeries (old : PoolRuntime) (s : Series) : Series :=
  let s := { s with finished := old.series.any fun o => o.finished && o.key == s.key }
  match (old.lastAired s.key).bind fun last => s.ids.idxOf? last with
  | some pos => { s with cursor := (pos + 1) % s.ids.length }
  | none => s

/-- Carry what the walk has done into `fresh`, a runtime on a newly ranked list. -/
def carryInto (old fresh : PoolRuntime) : PoolRuntime :=
  { fresh with
    series := fresh.series.map old.carriedSeries
    recent := old.recent
    forced := fresh.forced + old.forced
    drawn := old.drawn ∩ (fresh.series.flatMap (·.ids)).toFinset }

end PoolRuntime

end EtvStation
