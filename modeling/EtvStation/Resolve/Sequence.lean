import EtvStation.Pattern.Stops

/-! A sequencer block: its pools resolved as a pattern block's are, its timeline arranged by a
script and cut to the window. -/
namespace EtvStation

/-- A sequencer block. `arrange` is its script under the channel's dice: given the pools' items,
what is persisted and the window, the timeline it picks. -/
structure SequencerBlock where
  pools : List Pool
  groups : List ShowGroup := []
  constraints : Option Constraints := none
  script : String
  arrange : List (String × List EntryId) → GenerationState → ℤ → Option ℕ →
    Except String (List EntryId)

/-- Ids from the front, until they run for `fill`. -/
def layUntil (length : EntryId → ℕ) (fill : ℕ) : (laid : ℕ) → List EntryId → List EntryId
  | _, [] => []
  | laid, id :: ids =>
    if laid ≥ fill then [] else id :: layUntil length fill (laid + length id) ids

def truncateToWindow (cat : Catalog) (ids : List EntryId) (fill : Option ℕ) :
    Except String (List EntryId) :=
  match fill with
  | none => .ok ids
  | some fill =>
    if ids.isEmpty then .ok ids
    else do
      let (durations, mean) ← poolRuntimes cat ids
      return layUntil (durations.getD · mean) fill 0 ids

/-- Every id's home: which pool, and which series inside it. -/
def itemLocation (series : List (List Series)) : HashMap EntryId (ℕ × ℕ) :=
  HashMap.ofList (series.zipIdx.flatMap fun (pool, i) =>
    pool.zipIdx.flatMap fun (s, j) => s.ids.map fun id => (id, (i, j)))

def lastSeries (location : HashMap EntryId (ℕ × ℕ)) (ids : List EntryId) : HashMap ℕ ℕ :=
  ids.foldl (fun last id => match location.lookup id with
    | some (pool, si) => last.insert pool si
    | none => last) ∅

namespace SequencerBlock

variable (b : SequencerBlock)

/-- The state after a timeline: the successor of each pool's last series has the next turn. -/
def resumeAfter (v : Variety) (dice : List Dice) (series : List (List Series))
    (last : HashMap ℕ ℕ) : BTreeMap String PoolResume :=
  BTreeMap.collect ((b.pools.zip (dice.zip series)).zipIdx.map fun ((pool, d, series), i) =>
    (pool.name,
      { next := (last.lookup i).bind fun si => series[(si + 1) % series.length]?.map (·.key)
        list := v.listKey d pool }))

/-- Each pool's series, as the pattern walk would open them. -/
def resolveSeries (st : Station) (state : GenerationState)
    (pools : List (Pool × List EntryId × Dice)) : Except String (List (List Series)) :=
  pools.mapM fun (cfg, ids, dice) => do
    let seam := state.tail.filter ids.contains
    let resolved ← resolvePoolSeries st.cat cfg ids b.constraints seam false dice.seed
    return resolved.series

def build (st : Station) (state : GenerationState) (windowStart : ℤ) (fill : Option ℕ) :
    Except String BlockBuild := do
  -- the window opens on a whole second
  let opens := windowStart / 1000000000 * 1000000000
  let dice := b.pools.map (st.variety.dice opens)
  let (lists, src) ← resolvePoolSources st.cat st.variety st.env b.groups (b.pools.zip dice)
    { lists := state.resume.lists }
  let series ← b.resolveSeries st state (b.pools.zip (lists.zip dice))
  let shown := (b.pools.zip series).map fun (cfg, series) => (cfg.name, series.flatMap (·.ids))
  let arrangedRaw ← b.arrange shown state opens fill
  let location := itemLocation series
  match arrangedRaw.find? fun id => (location.lookup id).isNone with
  | some id =>
    .error s!"sequencer plugin {b.script}: arrange() returned {id.quote}, which is not in any of this block's pools"
  | none =>
    let arranged ← truncateToWindow st.cat arrangedRaw fill
    let after := fun ids => b.resumeAfter st.variety dice series (lastSeries location ids)
    return {
      ids := arranged
      resume := after arranged
      progress := arranged.inits.map after
      lists := src.lists.filter fun (name, _) => b.pools.any (·.name == name) }

variable {b}

theorem resumeAfter_keys {v : Variety} {dice : List Dice} {series : List (List Series)}
    (hdice : dice.length = b.pools.length) (hseries : series.length = b.pools.length)
    (last : HashMap ℕ ℕ) :
    ((b.resumeAfter v dice series last).map Prod.fst).Perm (b.pools.map (·.name)) := by
  refine ((List.perm_insertionSort _ _).map Prod.fst).trans (List.Perm.of_eq ?_)
  have hfst : (b.pools.zip (dice.zip series)).map Prod.fst = b.pools := by
    refine List.map_fst_zip ?_
    rw [List.length_zip, hdice, hseries, min_self]
  calc _ = ((b.pools.zip (dice.zip series)).zipIdx.map Prod.fst).map (·.1.name) := by
        rw [List.map_map, List.map_map]
        rfl
    _ = ((b.pools.zip (dice.zip series)).map Prod.fst).map (·.name) := by
        rw [List.zipIdx_map_fst, List.map_map]
        rfl
    _ = b.pools.map (·.name) := by rw [hfst]

theorem build_of {st : Station} {state : GenerationState} {windowStart : ℤ} {fill : Option ℕ}
    {built : BlockBuild} (h : b.build st state windowStart fill = .ok built) :
    built.Of b.pools := by
  obtain ⟨⟨lists, src⟩, hsources, h⟩ := Lib.bind_eq_ok.mp h
  obtain ⟨series, hseries, h⟩ := Lib.bind_eq_ok.mp h
  obtain ⟨raw, -, h⟩ := Lib.bind_eq_ok.mp h
  dsimp only at h
  split at h
  · cases h
  · obtain ⟨arranged, -, h⟩ := Lib.bind_eq_ok.mp h
    obtain rfl := Except.ok.inj h
    have hdice : (b.pools.map (st.variety.dice (windowStart / 1000000000 * 1000000000))).length =
        b.pools.length := List.length_map _
    have hlists := resolvePoolSources_length hsources
    have hlen := (Lib.mapM_eq_ok hseries).1
    simp only [List.length_zip, hdice, min_self] at hlists hlen
    refine ⟨by simp, ?_, ?_, ?_⟩
    · simp
    · intro p hp
      obtain ⟨ids, -, rfl⟩ := List.mem_map.mp hp
      exact resumeAfter_keys hdice (by omega) _
    · intro e he
      have hany := (List.mem_filter.mp he).2
      obtain ⟨pool, hpool, hname⟩ := List.any_eq_true.mp hany
      exact List.mem_map.mpr ⟨pool, hpool, by simpa using hname⟩

end SequencerBlock

end EtvStation
