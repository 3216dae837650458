import EtvStation.Resume
import EtvStation.Pattern.Catalog

/-! Where a pool's flat id list comes from: an expression, show groups, or a plugin's ranking,
which a pool whose dice rotate keeps for a whole period. -/
namespace EtvStation

structure Dice where
  seed : UInt64
  temperature : ℚ := 0
  seedPeriod : Option ℤ := none
  temperaturePeriod : Option ℤ := none
  deriving DecidableEq

def Dice.rotates (d : Dice) : Bool := d.seedPeriod.isSome || d.temperaturePeriod.isSome

/-- What the channel's `seed:`, `temperature:` and clock answer at an instant. -/
structure Variety where
  dice : ℤ → Pool → Dice
  /-- The text that names a list ranked under some dice. -/
  listText : Dice → Pool → String := fun _ _ => ""
  spanPeriod : ℤ → ℕ → ℤ × ℤ := fun at_ _ => (at_, at_)
  /-- The instant a visit airs at: the window's start plus what has been laid, as an `f64` of
  seconds. -/
  airsAt : ℤ → ℕ → ℤ := fun windowStart laid => windowStart + laid
  /-- A length as `humantime` prints it. -/
  humantime : ℕ → String := fun _ => ""

/-- The identity of the list a pool ranks under these dice, `none` when nothing rotates. -/
def Variety.listKey (v : Variety) (d : Dice) (pool : Pool) : Option String :=
  if d.rotates then some (v.listText d pool) else none

structure PickedItem where
  id : EntryId
  hasMetadata : Bool := false
  takeOverride : Option ℕ := none
  deriving DecidableEq, Repr

def PickedItem.hasExtra (p : PickedItem) : Bool := p.hasMetadata || p.takeOverride.isSome

/-- The scorer plugins: `prepare` compiles a pool's script and reads its sources, `pick` ranks
them given what aired lately and how many items are wanted. -/
structure ScoreEnv where
  prepare : Pool → Except String Unit := fun _ => .ok ()
  pick : Pool → Dice → (recent : List EntryId) → (targetCount : ℕ) →
    Except String (List PickedItem) := fun _ _ _ _ => .ok []
  recent : List EntryId := []
  targetCount : ℕ := 0

/-- What resolving pools writes: the periods' ranked lists, and the records of every pick
under its pool's name. -/
structure SourceState where
  lists : BTreeMap String (List FrozenList) := []
  extras : HashMap (String × EntryId) (Option ℕ) := ∅

namespace SourceState

def recordPicked (src : SourceState) (pool : String) (picked : List PickedItem) : SourceState :=
  { src with
    extras := src.extras.extend
      ((picked.filter (·.hasExtra)).map fun p => ((pool, p.id), p.takeOverride)) }

def recordFrozen (src : SourceState) (pool : String) (list : FrozenList) : SourceState :=
  { src with extras := src.extras.extend (list.extras.map fun (id, t) => ((pool, id), t)) }

def frozenList (src : SourceState) (pool key : String) : Option FrozenList :=
  (src.lists.get pool).bind fun lists => lists.find? fun l => l.key == key

/-- The sidecar form of the records `picked` carries. -/
def pickedExtras (picked : List PickedItem) : BTreeMap EntryId (Option ℕ) :=
  (picked.filter (·.hasExtra)).foldl (fun m p => m.put p.id p.takeOverride) []

def storeFrozenList (src : SourceState) (pool key : String) (picked : List PickedItem) :
    SourceState :=
  let kept := ((src.lists.get pool).getD []).filter fun l => l.key ≠ key
  let fresh : FrozenList := ⟨key, picked.map (·.id), pickedExtras picked⟩
  { src with lists := src.lists.put pool (kept ++ [fresh]) }

/-- A refill's arrivals join the period's list. -/
def growFrozenList (src : SourceState) (pool : String) (key : Option String)
    (picked : List PickedItem) (fresh : List EntryId) : SourceState :=
  let arrived := picked.filter fun p => fresh.contains p.id && p.hasExtra
  { src with
    lists := src.lists.map fun (name, kept) =>
      if name = pool then
        (name, match kept.findIdx? fun l => some l.key == key with
          | some i => kept.modify i fun l =>
              { l with
                ids := l.ids ++ fresh
                extras := arrived.foldl (fun m p => m.put p.id p.takeOverride) l.extras }
          | none => kept)
      else (name, kept) }

end SourceState

def resolveGroupPool (cat : Catalog) (cfg : Pool) (groups : List ShowGroup) :
    Except String (List EntryId) := do
  let shows ← cfg.groups.mapM fun gname =>
    match groups.find? fun g => g.name == gname with
    | some g => .ok g.shows
    | none => .error s!"pool {cfg.name.quote} references group {gname.quote}, which this channel does not declare"
  let byShow ← cat.episodeIdsForShows shows.flatten
  let ids ← shows.flatten.mapM fun show_ =>
    match byShow show_ with
    | some found =>
      if found.isEmpty then
        .error s!"pool {cfg.name.quote}: show {show_.quote} is not in the catalog"
      else .ok found
    | none => .error s!"pool {cfg.name.quote}: show {show_.quote} is not in the catalog"
  return ids.flatten

def orderIds (cat : Catalog) (cfg : Pool) (seed : UInt64) (ids : List EntryId) :
    Except String (List EntryId) :=
  match cfg.order with
  | some order => cat.resolveOrder ids order seed
  | none => .ok ids

/-- Pass 1, reads the catalog: a query pool's ids, or `none` for a prepared plugin pool. -/
def resolveQueryIds (cat : Catalog) (env : ScoreEnv) (groups : List ShowGroup) (cfg : Pool)
    (dice : Dice) : Except String (Option (List EntryId)) :=
  match cfg.expr, cfg.plugin, !cfg.groups.isEmpty with
  | some expr, none, false => do
    let ids ← cat.resolveQuery expr
    some <$> orderIds cat cfg dice.seed ids
  | none, some _, false => do
    env.prepare cfg
    return none
  | none, none, true => do
    let ids ← resolveGroupPool cat cfg groups
    some <$> orderIds cat cfg dice.seed ids
  | _, _, _ =>
    .error s!"pool {cfg.name.quote} must set exactly one of `expr`, `plugin`, or `groups`"

/-- Pass 2, reads nothing: a plugin's ranking, or the list its period already ranked. -/
def rankIds (v : Variety) (env : ScoreEnv) (cfg : Pool) (dice : Dice) (src : SourceState) :
    Option (List EntryId) → Except String (List EntryId × SourceState)
  | some ids => .ok (ids, src)
  | none => do
    let key := v.listKey dice cfg
    match key.bind (src.frozenList cfg.name) with
    | some frozen => return (frozen.ids, src.recordFrozen cfg.name frozen)
    | none =>
      let picked ← (env.pick cfg dice env.recent env.targetCount).mapError
        fun m => s!"pool {cfg.name.quote}: {m}"
      let src := src.recordPicked cfg.name picked
      let src := match key with
        | some key => src.storeFrozenList cfg.name key picked
        | none => src
      return (picked.map (·.id), src)

/-- Pass 2 over the pools in order, threading what it records. -/
def rankAll (v : Variety) (env : ScoreEnv) :
    List (Pool × Dice × Option (List EntryId)) → SourceState →
    Except String (List (List EntryId) × SourceState)
  | [], src => .ok ([], src)
  | (cfg, dice, slot) :: rest, src => do
    let (ids, src) ← rankIds v env cfg dice src slot
    let (lists, src) ← rankAll v env rest src
    return (ids :: lists, src)

def resolvePoolSources (cat : Catalog) (v : Variety) (env : ScoreEnv) (groups : List ShowGroup)
    (pools : List (Pool × Dice)) (src : SourceState) :
    Except String (List (List EntryId) × SourceState) := do
  let slots ← pools.mapM fun (cfg, dice) => resolveQueryIds cat env groups cfg dice
  rankAll v env ((pools.zip slots).map fun ((cfg, dice), slot) => (cfg, dice, slot)) src

end EtvStation
