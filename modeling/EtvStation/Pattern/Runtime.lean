import EtvStation.Pattern.Pool
import EtvStation.Pattern.Sources

/-! From a pool's id list to the runtime a walk draws from: the list constrained and cut into
series, each seated where the ledger left it, the rotation where the sidecar left it. -/
namespace EtvStation

/-- The keys the adjacency checks compare: nothing but the id when nothing is separated. -/
def poolKeys (cat : Catalog) (ids : List EntryId) (field : Option String) (pool : String) :
    Except String PoolKeys :=
  match field with
  | none => .ok {}
  | some field => do
    let ns ← (cat.tagNs field).mapError fun m => s!"pool {pool.quote}: {m}"
    let groups ← ids.mapM fun id => do
      let values ← (cat.tagsFor id ns).mapError
        fun e => s!"pool {pool.quote}: reading {field.quote} for {id}: {e}"
      return (id, values)
    return { groups := HashMap.ofList groups }

def constrainPool (limits : Limits) (keys : PoolKeys) (seam ids : List EntryId) : List EntryId :=
  if limits.isUnconstrained || ids.isEmpty then ids
  else
    let result := orderConstrained (keys.many ids) (ids.map fun _ => limits) (keys.many seam)
    result.order.map fun i => ids.getD i ""

def Constraints.limits (c : Constraints) : Limits where
  noRepeat := match c.noRepeatGap with
    | .positions n => .positions n
    | .duration d => .duration d
  separate := c.separateGap

def Limits.isTemporal (l : Limits) : Bool :=
  match l.noRepeat with
  | .positions _ => false
  | .duration _ => true

/-- What a series is called: its show, cut by arc or by season where the pool asks. -/
def seriesKey (cfg : Pool) (showKey : String) (season : Option ℤ) (arc : Option (String × ℤ)) :
    String :=
  match arc.bind fun (show_, absolute) => cfg.arcs.bind fun bucket => bucket show_ absolute with
  | some (.named arc) => s!"{showKey}|A:{arc}"
  | some .trailing => s!"{showKey}|A+"
  | none =>
    match season with
    | some season => s!"{showKey}|S{season}"
    | none => showKey

def Series.push (s : Series) (id : EntryId) : Series := { s with ids := s.ids ++ [id] }

/-- Put one item in the series of its key, opening it on the key's first appearance. -/
def placeItem (series : List Series) (key showKey : String) (id : EntryId) : List Series :=
  match series.findIdx? (·.key == key) with
  | some i => series.modify i (·.push id)
  | none => series ++ [{ key, showKey, ids := [id] }]

structure ItemColumns where
  showId : EntryId → Option String
  season : EntryId → Option ℤ := fun _ => none
  arcPosition : EntryId → Option (String × ℤ) := fun _ => none

def ItemColumns.showKey (c : ItemColumns) (id : EntryId) : String := (c.showId id).getD id

def ItemColumns.key (c : ItemColumns) (cfg : Pool) (id : EntryId) : String :=
  seriesKey cfg (c.showKey id) (c.season id) (c.arcPosition id)

/-- Seasons are read only where the pool is cut by them. -/
def seasonColumn (cat : Catalog) (cfg : Pool) (ids : List EntryId) :
    Except String (EntryId → Option ℤ) :=
  match cfg.groupBy with
  | .byShow => .ok fun _ => none
  | .bySeason => cat.seasonsFor ids

/-- Arc places are read only where a station's arcs cut the seasons. -/
def arcColumn (cat : Catalog) (cfg : Pool) (ids : List EntryId) :
    Except String (EntryId → Option (String × ℤ)) :=
  match cfg.arcs, cfg.groupBy with
  | some _, .bySeason => cat.arcPositionsFor ids
  | _, _ => .ok fun _ => none

def itemColumns (cat : Catalog) (cfg : Pool) (ids : List EntryId) :
    Except String ItemColumns := do
  let showId ← cat.showIdsFor ids
  let season ← seasonColumn cat cfg ids
  let arcPosition ← arcColumn cat cfg ids
  return { showId, season, arcPosition }

/-- Series in order of first appearance, so the pool's order fixes the rotation. -/
def groupSeries (cols : ItemColumns) (cfg : Pool) (ids : List EntryId) : List Series :=
  ids.foldl (fun series id => placeItem series (cols.key cfg id) (cols.showKey id) id) []

/-- Each series at the place of its first item in `ordered`, dropped ones at the back. -/
def bucketSequence (series : List Series) (ordered : List EntryId) : List ℕ :=
  let placed := (ordered.filterMap fun id => series.findIdx? (·.ids.contains id)).eraseDups
  placed ++ (List.range series.length).filter fun i => !placed.contains i

def orderBuckets (cat : Catalog) (cfg : Pool) (seed : UInt64) (series : List Series) :
    Except String (List Series) :=
  match cfg.bucketOrder with
  | none => .ok series
  | some bucketOrder => do
    let ordered ← (cat.resolveOrder (series.flatMap (·.ids)) bucketOrder seed).mapError
      fun e => s!"pool {cfg.name.quote}: bucket_order: {e}"
    return (bucketSequence series ordered).filterMap fun i => series[i]?

/-- What resolving a pool's ids leaves: its series, limits, keys and lengths. -/
structure ResolvedPool where
  series : List Series
  limits : Limits
  keys : PoolKeys
  runtimes : HashMap EntryId ℕ
  mean : ℕ

/-- The lengths are a whole extra query, asked only when something reads the answer. -/
def wantedRuntimes (cat : Catalog) (want : Bool) (ids : List EntryId) :
    Except String (HashMap EntryId ℕ × ℕ) :=
  if want then poolRuntimes cat ids else .ok (∅, 0)

def resolvePoolSeries (cat : Catalog) (cfg : Pool) (ids : List EntryId)
    (blockConstraints : Option Constraints) (seam : List EntryId) (wantRuntimes : Bool)
    (seed : UInt64) : Except String ResolvedPool := do
  let constraints := cfg.effectiveConstraints blockConstraints
  let limits := constraints.limits
  let (runtimes, mean) ← wantedRuntimes cat (wantRuntimes || limits.isTemporal) ids
  let keys ← poolKeys cat ids constraints.separateBy cfg.name
  let keys := { keys with durations := runtimes, meanDuration := mean }
  let ids := constrainPool limits keys seam ids
  let cols ← itemColumns cat cfg ids
  let series ← orderBuckets cat cfg seed (groupSeries cols cfg ids)
  return { series, limits, keys, runtimes, mean }

/-- A span the way it is authored: whole weeks, whole days, anything else as printed. -/
def spanLabel (v : Variety) (span : ℕ) : String :=
  let day := 86400 * 1000000000
  if 0 < span && span % (7 * day) = 0 then s!"{span / (7 * day)}w"
  else if 0 < span && span % day = 0 then s!"{span / day}d"
  else v.humantime span

/-- Display names of a span pool's series, by key. -/
def seriesTitles (cat : Catalog) (cfg : Pool) (series : List Series) :
    Except String (HashMap String String) :=
  match cfg.rotate.span? with
  | none => .ok ∅
  | some _ => do
    let entries ← cat.entriesFor (series.filterMap (·.ids.head?))
    return HashMap.ofList (series.filterMap fun s =>
      (s.ids.head?.bind entries).map fun e => (s.key, e.show_.getD e.title))

/-- Continue after the last-played id; an id that has left the series restarts it. -/
def Series.seat (cursor : String → Option EntryId) (s : Series) : Series :=
  match (cursor s.showKey).bind fun last => s.ids.idxOf? last with
  | some pos => s.advanceTo (pos + 1)
  | none => s

def GenerationState.cursorFor (state : GenerationState) (cfg : Pool) (show_ : String) :
    Option EntryId :=
  match cfg.cursorScope with
  | .channel => state.cursor.get show_
  | .global => state.globalCursor.get show_

namespace PoolRuntime

/-- A previous record of the same list, or of none: the lap, the draws and the next series
carry on. -/
def continueFrom (rt : PoolRuntime) (p : PoolResume) : PoolRuntime :=
  let rt := { rt with lap := p.lap }
  let rt := if rt.listKey.isSome && p.list = rt.listKey then
      { rt with drawn := p.drawn ∩ (rt.series.flatMap (·.ids)).toFinset }
    else rt
  match p.next.bind fun next => rt.series.findIdx? (·.key == next) with
  | some pos => { rt with rotation := pos }
  | none => rt

/-- A record kept under another list's key is a rollover. -/
def isRollover (rt : PoolRuntime) (p : PoolResume) : Bool :=
  p.list.isSome && p.list ≠ rt.listKey && rt.listKey.isSome

/-- Seat a resuming pool: its series by the ledger, its rotation by `prev`. -/
def resumeFrom (rt : PoolRuntime) (cursor : String → Option EntryId) (prev : Option PoolResume) :
    PoolRuntime :=
  match rt.cfg.advance with
  | .restart => rt
  | .resume =>
    let rt := { rt with series := rt.series.map (Series.seat cursor) }
    match prev with
    | some p => if rt.isRollover p then rt.openAfterRollover p else rt.continueFrom p
    | none => rt

end PoolRuntime

def poolRuntime (cat : Catalog) (v : Variety) (cfg : Pool) (ids : List EntryId)
    (blockConstraints : Option Constraints) (state : GenerationState) (prev : Option PoolResume)
    (dice : Dice) (wantRuntimes : Bool) (extras : HashMap (String × EntryId) (Option ℕ)) :
    Except String PoolRuntime := do
  let seam := state.tail.filter ids.contains
  let takeOverrides := HashMap.ofList (ids.filterMap fun id =>
    ((extras.lookup (cfg.name, id)).bind fun take => take).map fun t => (id, t))
  let resolved ← resolvePoolSeries cat cfg ids blockConstraints seam wantRuntimes dice.seed
  let titles ← seriesTitles cat cfg resolved.series
  let rt : PoolRuntime := {
    cfg
    series := resolved.series
    limits := resolved.limits
    keys := resolved.keys
    runtimes := resolved.runtimes
    meanRuntime := resolved.mean
    takeOverrides
    listKey := v.listKey dice cfg
    hold := if cfg.rotate.span?.isSome then prev.bind (·.hold) else none
    seriesTitles := titles }
  if cfg.rotate.span?.isSome && rt.isFilmsOnly then
    .error s!"pool {cfg.name.quote} sets rotate: {spanLabel v (cfg.rotate.span?.getD 0)}, but every series it resolves is a single film — a span holds nothing on a films-only pool. Use rotate: visit or slot"
  else
    return (rt.remember seam).resumeFrom (state.cursorFor cfg) prev

end EtvStation
