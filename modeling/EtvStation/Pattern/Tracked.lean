import EtvStation.Pattern.Agreement
import EtvStation.Pattern.Grouping
import EtvStation.Pattern.Walk

/-! Blocks whose pools resume, query their lists and are bound by no limit. Their pools open
where the ledger and the sidecar say, and a live pool always stands where its own airings
would seat it. -/
namespace EtvStation

/-- The key an airing is filed under in the ledger, as each scope's cursor projects it: a film
has no place in the cross-channel one. -/
def filedUnder (showId : EntryId → Option String) : CursorScope → EntryId → Option String
  | .channel, id => some ((showId id).getD id)
  | .global, id => showId id

/-- The ledger's cursor once `aired` is in it. -/
def ledgerAfter (filed : EntryId → Option String) (cursor : String → Option EntryId)
    (aired : List EntryId) (key : String) : Option EntryId :=
  (aired.filter fun id => filed id == some key).getLast?.or (cursor key)

section Ledger

variable (filed : EntryId → Option String) (cursor : String → Option EntryId)

@[simp] theorem ledgerAfter_nil : ledgerAfter filed cursor [] = cursor := by
  funext key
  simp [ledgerAfter]

theorem ledgerAfter_append (aired aired' : List EntryId) :
    ledgerAfter filed cursor (aired ++ aired') =
      ledgerAfter filed (ledgerAfter filed cursor aired) aired' := by
  funext key
  simp only [ledgerAfter, List.filter_append, List.getLast?_append, Option.or_assoc]

/-- The ledger's cursor is the newest row under its key. -/
theorem ledgerAfter_eq_lookup (aired : List EntryId) (key : String) : ledgerAfter filed cursor aired key =
      ((aired.filterMap fun id => (filed id).map fun k => (k, id)).reverse.lookup key).or
        (cursor key) := by
  induction aired using List.reverseRecOn with
  | nil => rfl
  | append_singleton aired id ih =>
    rw [ledgerAfter_append, List.filterMap_append, List.reverse_append]
    unfold ledgerAfter at ih ⊢
    cases hfiled : filed id with
    | none => simpa [hfiled] using ih
    | some k =>
      by_cases hk : key = k
      · simp [hfiled, hk]
      · simpa [hfiled, hk, Ne.symm hk, List.lookup_cons, beq_false_of_ne hk] using ih
theorem ledgerAfter_of_not_mem {aired : List EntryId} {key : String}
    (h : ∀ id ∈ aired, filed id ≠ some key) : ledgerAfter filed cursor aired key = cursor key := by
  have hnil : (aired.filter fun id => filed id == some key) = [] :=
    List.filter_eq_nil_iff.mpr fun id hid => by simpa using h id hid
  simp [ledgerAfter, hnil]

theorem filedUnder_eq_some {showId : EntryId → Option String} {scope : CursorScope}
    {id : EntryId} {key : String} (h : filedUnder showId scope id = some key) :
    (showId id).getD id = key := by
  cases scope with
  | channel => exact Option.some.inj h
  | global =>
    change showId id = some key at h
    simp [h]

end Ledger

/-- The lists a pool's query may answer with. -/
def Station.Lists (st : Station) (block : Block) (cfg : Pool) (ids : List EntryId) : Prop :=
  ∃ t, resolveQueryIds st.cat st.env block.groups cfg (st.variety.dice t cfg) = .ok (some ids)

/-- A block whose pools all resume and are queried, with no limit, no override and pinned dice;
no show is in two pools. `showId` is the catalog's column. -/
structure Station.Resumes (st : Station) (block : Block) (showId : EntryId → Option String) :
    Prop where
  pattern_ne : block.pattern ≠ []
  known : ∀ step ∈ block.pattern, step.pool ∈ block.pools.map (·.name)
  names : (block.pools.map (·.name)).Nodup
  expr : ∀ p ∈ block.pools, p.expr.isSome ∧ p.plugin = none ∧ p.groups = []
  resume : ∀ p ∈ block.pools, p.advance = .resume
  unlimited : ∀ p ∈ block.pools,
    (p.effectiveConstraints block.constraints).limits.isUnconstrained = true
  pinned : ∀ p ∈ block.pools, ∀ t t', st.variety.dice t p = st.variety.dice t' p
  still : ∀ p ∈ block.pools, ∀ t, (st.variety.dice t p).rotates = false
  /-- A query answers each entry once. -/
  listed : ∀ p ∈ block.pools, ∀ ids, st.Lists block p ids → ids.Nodup
  columns : ∀ ids col, st.cat.showIdsFor ids = .ok col → ∀ id ∈ ids, col id = showId id
  /-- No show goes by the name of a film. -/
  showNames : ∀ p ∈ block.pools, ∀ ids, st.Lists block p ids →
    ∀ id ∈ ids, ∀ id' ∈ ids, showId id ≠ some id'
  disjoint : ∀ p ∈ block.pools, ∀ q ∈ block.pools, p.name ≠ q.name → ∀ ids ids',
    st.Lists block p ids → st.Lists block q ids' →
    ∀ id ∈ ids, ∀ id' ∈ ids', (showId id).getD id ≠ (showId id').getD id'

/-- The series of every pool are whole shows, whatever the pools are grouped by. -/
structure Station.Whole (st : Station) (block : Block) (showId : EntryId → Option String) : Prop
    extends st.Resumes block showId where
  whole : ∀ p ∈ block.pools, ∀ ids cols, st.Lists block p ids → itemColumns st.cat p ids = .ok cols →
    ∀ id ∈ ids, ∀ id' ∈ ids,
      cols.key p id = cols.key p id' ↔ (showId id).getD id = (showId id').getD id'

/-- Pools grouped by show, drawn from the start, no series held over a span. -/
structure Station.Plain (st : Station) (block : Block) (showId : EntryId → Option String) : Prop
    extends st.Resumes block showId where
  byShow : ∀ p ∈ block.pools, p.groupBy = .byShow
  fromStart : ∀ step ∈ block.pattern, step.from_ = .start
  rotate : ∀ p ∈ block.pools, p.rotate.span? = none

theorem itemColumns_showKey {st : Station} {block : Block} {showId : EntryId → Option String}
    (hp : st.Resumes block showId) {cfg : Pool} {ids : List EntryId} {cols : ItemColumns}
    (h : itemColumns st.cat cfg ids = .ok cols) {id : EntryId} (hid : id ∈ ids) :
    cols.showKey id = (showId id).getD id := by
  obtain ⟨col, hcol, h⟩ := Lib.bind_eq_ok.mp h
  obtain ⟨season, -, h⟩ := Lib.bind_eq_ok.mp h
  obtain ⟨arc, -, h⟩ := Lib.bind_eq_ok.mp h
  obtain rfl := Except.ok.inj h
  simp only [ItemColumns.showKey, hp.columns ids col hcol id hid]

/-- Grouped by show, a series is a whole show. -/
theorem Station.Plain.whole {st : Station} {block : Block} {showId : EntryId → Option String}
    (hp : st.Plain block showId) : st.Whole block showId := by
  refine ⟨hp.toResumes, fun p hmem ids cols _ hcols id hid id' hid' => ?_⟩
  rw [← itemColumns_showKey hp.toResumes hcols hid, ← itemColumns_showKey hp.toResumes hcols hid']
  obtain ⟨col, -, hcols⟩ := Lib.bind_eq_ok.mp hcols
  obtain ⟨season, hseason, hcols⟩ := Lib.bind_eq_ok.mp hcols
  obtain ⟨arc, harc, hcols⟩ := Lib.bind_eq_ok.mp hcols
  obtain rfl := Except.ok.inj hcols
  simp only [seasonColumn, hp.byShow p hmem, Except.ok.injEq] at hseason
  have harc : arc = fun _ => none := by
    unfold arcColumn at harc
    rw [hp.byShow p hmem] at harc
    split at harc
    · next heq => simp at heq
    · exact (Except.ok.inj harc).symm
  subst hseason harc
  simp only [ItemColumns.key, seriesKey, Option.bind_none]

/-- A pool's series before anything seats them, one for each show. -/
structure Shows (showId : EntryId → Option String) (ids : List EntryId) (shows : List Series) :
    Prop where
  showNames : ∀ id ∈ ids, ∀ id' ∈ ids, showId id ≠ some id'
  keys_nodup : (shows.map (·.key)).Nodup
  showKeys_nodup : (shows.map (·.showKey)).Nodup
  ids_nodup : ∀ s ∈ shows, s.ids.Nodup
  ids_ne : ∀ s ∈ shows, s.ids ≠ []
  unplayed : ∀ s ∈ shows, s.cursor = 0 ∧ s.finished = false
  sub : ∀ s ∈ shows, ∀ id ∈ s.ids, id ∈ ids
  show_eq : ∀ s ∈ shows, ∀ id ∈ s.ids, (showId id).getD id = s.showKey

def baseSeries (cat : Catalog) (cfg : Pool) (ids : List EntryId) (seed : UInt64) :
    Except String (List Series) := do
  let cols ← itemColumns cat cfg ids
  orderBuckets cat cfg seed (groupSeries cols cfg ids)

theorem baseSeries_shows {st : Station} {block : Block} {showId : EntryId → Option String}
    (hp : st.Whole block showId) {cfg : Pool} (hcfg : cfg ∈ block.pools) {ids : List EntryId}
    (hids : st.Lists block cfg ids) {seed : UInt64} {shows : List Series}
    (h : baseSeries st.cat cfg ids seed = .ok shows) : Shows showId ids shows := by
  obtain ⟨cols, hcols, horder⟩ := Lib.bind_eq_ok.mp h
  have hgrouped := (groupSeries_grouped cols cfg ids).perm (orderBuckets_perm horder)
  have hmem : ∀ s ∈ shows, ∀ id ∈ s.ids, id ∈ ids ∧ cols.key cfg id = s.key := by
    intro s hs id hid
    rw [hgrouped.ids_eq s hs, List.mem_filter] at hid
    exact ⟨hid.1, of_decide_eq_true hid.2⟩
  have hshow : ∀ s ∈ shows, ∀ id ∈ s.ids, (showId id).getD id = s.showKey := by
    intro s hs id hid
    obtain ⟨x, hx, heq⟩ := hgrouped.showKey_eq s hs
    obtain ⟨hxids, hxkey⟩ := hmem s hs x hx
    obtain ⟨hidids, hidkey⟩ := hmem s hs id hid
    rw [heq, itemColumns_showKey hp.toResumes hcols hxids]
    exact (hp.whole cfg hcfg ids cols hids hcols id hidids x hxids).mp (hidkey.trans hxkey.symm)
  refine ⟨hp.showNames cfg hcfg ids hids, hgrouped.keys_nodup, ?_, fun s hs => ?_,
    hgrouped.ids_ne, hgrouped.unplayed, fun s hs id hid => (hmem s hs id hid).1, hshow⟩
  · refine List.pairwise_map.mpr ((List.pairwise_map.mp hgrouped.keys_nodup).imp_of_mem ?_)
    intro s t hs ht hne heq
    obtain ⟨x, hx⟩ := List.exists_mem_of_ne_nil _ (hgrouped.ids_ne s hs)
    obtain ⟨y, hy⟩ := List.exists_mem_of_ne_nil _ (hgrouped.ids_ne t ht)
    obtain ⟨hxids, hxkey⟩ := hmem s hs x hx
    obtain ⟨hyids, hykey⟩ := hmem t ht y hy
    have hsame : (showId x).getD x = (showId y).getD y := by
      rw [hshow s hs x hx, hshow t ht y hy, heq]
    rw [← hp.whole cfg hcfg ids cols hids hcols x hxids y hyids, hxkey, hykey] at hsame
    exact hne hsame
  · rw [hgrouped.ids_eq s hs]
    exact (hp.listed cfg hcfg ids hids).filter _

/-- The pool is set as its configuration says, nothing limits it and nothing of it rotates. -/
structure PoolRuntime.IsUnlimited (rt : PoolRuntime) (cfg : Pool) : Prop where
  cfg_eq : rt.cfg = cfg
  limits : rt.limits.isUnconstrained = true
  overrides : rt.takeOverrides = ∅
  listKey : rt.listKey = none
  inRange : InRange rt.series

/-- An unlimited pool that holds no series. -/
structure PoolRuntime.IsPlain (rt : PoolRuntime) (cfg : Pool) : Prop
    extends rt.IsUnlimited cfg where
  period : rt.period = none
  hold : rt.hold = none

theorem PoolRuntime.IsPlain.free {rt : PoolRuntime} {cfg : Pool} (h : rt.IsPlain cfg) : rt.Free :=
  ⟨h.limits, h.overrides, h.period⟩

/-- What opening a pool reads: the ledger's cursor for its series, the record for its lap and
its next series. -/
structure OpenedOn (rt : PoolRuntime) (shows : List Series) (cursor : String → Option EntryId)
    (prev : Option PoolResume) : Prop where
  series_eq : rt.series = shows.map (Series.seat cursor)
  lap_eq : rt.lap = (prev.map (·.lap)).getD ∅
  rotation_eq : rt.rotation =
    ((prev.bind (·.next)).bind fun next => rt.series.findIdx? (·.key == next)).getD 0

theorem Series.core_eq_of_single {s t : Series} (hids : t.ids = s.ids) (hkey : t.key = s.key)
    (hshow : t.showKey = s.showKey) (hlen : s.ids.length = 1) (hs : s.cursor < s.ids.length)
    (ht : t.cursor < t.ids.length) : t.core = s.core := by
  rw [hids] at ht
  have hcursor : t.cursor = s.cursor := by omega
  simp [Series.core, hids, hkey, hshow, hlen, hcursor]

theorem Series.seatAfter_cursor_lt {s : Series} (hne : s.ids ≠ []) (hc : s.cursor = 0)
    (last : Option EntryId) : (s.seatAfter last).cursor < (s.seatAfter last).ids.length := by
  unfold Series.seatAfter
  split
  · exact Series.advanceTo_cursor_lt hne _
  · rw [hc]
    exact List.length_pos_iff.mpr hne

theorem inRange_seat {shows : List Series} (hne : ∀ s ∈ shows, s.ids ≠ [])
    (hunplayed : ∀ s ∈ shows, s.cursor = 0 ∧ s.finished = false) (cursor : String → Option EntryId) :
    InRange (shows.map (Series.seat cursor)) := by
  intro t ht
  obtain ⟨s, hs, rfl⟩ := List.mem_map.mp ht
  exact Series.seatAfter_cursor_lt (hne s hs) (hunplayed s hs).1 _

theorem resumeFrom_opened {rt : PoolRuntime} (hadvance : rt.cfg.advance = .resume)
    (hkey : rt.listKey = none) (hlap : rt.lap = ∅) (hrotation : rt.rotation = 0)
    (cursor : String → Option EntryId) (prev : Option PoolResume) :
    OpenedOn (rt.resumeFrom cursor prev) rt.series cursor prev := by
  unfold PoolRuntime.resumeFrom
  rw [hadvance]
  cases prev with
  | none => exact ⟨rfl, hlap, hrotation⟩
  | some p =>
    simp only [PoolRuntime.isRollover, hkey, Option.isSome_none, Bool.and_false,
      Bool.false_eq_true, if_false, PoolRuntime.continueFrom, Bool.false_and]
    cases hnext : p.next.bind fun next =>
        (rt.series.map (Series.seat cursor)).findIdx? (·.key == next) with
    | none =>
      refine ⟨rfl, rfl, ?_⟩
      change rt.rotation = (p.next.bind _).getD 0
      rw [hnext, hrotation, Option.getD_none]
    | some pos =>
      refine ⟨rfl, rfl, ?_⟩
      change pos = (p.next.bind _).getD 0
      rw [hnext, Option.getD_some]

theorem resumeFrom_frame (rt : PoolRuntime) (cursor : String → Option EntryId)
    (prev : Option PoolResume) :
    ∃ series rotation lap drawn,
      rt.resumeFrom cursor prev = { rt with series, rotation, lap, drawn } := by
  unfold PoolRuntime.resumeFrom
  split
  · exact ⟨_, _, _, _, rfl⟩
  · dsimp only
    split
    · split
      · exact ⟨_, _, _, _, rfl⟩
      · unfold PoolRuntime.continueFrom
        dsimp only
        split <;> split <;> exact ⟨_, _, _, _, rfl⟩
    · exact ⟨_, _, _, _, rfl⟩

/-- A pool just built opens unlimited, and plain unless a span holds it. -/
theorem resumeFrom_seated {rt : PoolRuntime} {ids : List EntryId}
    {showId : EntryId → Option String} (hs : Shows showId ids rt.series)
    (hlim : rt.limits.isUnconstrained = true) (hover : rt.takeOverrides = ∅)
    (hkey : rt.listKey = none) (hlap : rt.lap = ∅) (hrotation : rt.rotation = 0)
    (hperiod : rt.period = none) (hhold : rt.cfg.rotate.span? = none → rt.hold = none)
    (hadvance : rt.cfg.advance = .resume) (cursor : String → Option EntryId)
    (prev : Option PoolResume) :
    (rt.resumeFrom cursor prev).IsUnlimited rt.cfg ∧
      (rt.cfg.rotate.span? = none → (rt.resumeFrom cursor prev).IsPlain rt.cfg) ∧
      OpenedOn (rt.resumeFrom cursor prev) rt.series cursor prev := by
  have ho := resumeFrom_opened hadvance hkey hlap hrotation cursor prev
  have hr : InRange (rt.resumeFrom cursor prev).series := by
    rw [ho.series_eq]
    exact inRange_seat hs.ids_ne hs.unplayed cursor
  obtain ⟨series, rotation, lap, drawn, heq⟩ := resumeFrom_frame rt cursor prev
  rw [heq] at ho hr ⊢
  exact ⟨⟨rfl, hlim, hover, hkey, hr⟩,
    fun hspan => ⟨⟨rfl, hlim, hover, hkey, hr⟩, hperiod, hhold hspan⟩, ho⟩

/-- A pool opens on its shows, seated by the ledger. -/
theorem poolRuntime_opened {st : Station} {block : Block} {showId : EntryId → Option String}
    (hp : st.Whole block showId) {cfg : Pool} (hcfg : cfg ∈ block.pools) {ids : List EntryId}
    (hids : st.Lists block cfg ids) {state : GenerationState} {prev : Option PoolResume} {dice : Dice}
    (hdice : dice.rotates = false) {want : Bool} {rt : PoolRuntime}
    (h : poolRuntime st.cat st.variety cfg ids block.constraints state prev dice want ∅ = .ok rt) :
    ∃ shows, baseSeries st.cat cfg ids dice.seed = .ok shows ∧ Shows showId ids shows ∧
      rt.IsUnlimited cfg ∧ (cfg.rotate.span? = none → rt.IsPlain cfg) ∧
      OpenedOn rt shows (state.cursorFor cfg) prev := by
  have hlim := hp.unlimited cfg hcfg
  obtain ⟨resolved, hres, h⟩ := Lib.bind_eq_ok.mp h
  obtain ⟨titles, -, h⟩ := Lib.bind_eq_ok.mp h
  obtain ⟨⟨runtimes, mean⟩, -, hres⟩ := Lib.bind_eq_ok.mp hres
  obtain ⟨keys, -, hres⟩ := Lib.bind_eq_ok.mp hres
  obtain ⟨cols, hcols, hres⟩ := Lib.bind_eq_ok.mp hres
  obtain ⟨shows, hshows, hres⟩ := Lib.bind_eq_ok.mp hres
  obtain rfl := Except.ok.inj hres
  have hconstrain : ∀ keys seam, constrainPool (cfg.effectiveConstraints block.constraints).limits
      keys seam ids = ids := fun keys seam => by simp [constrainPool, hlim]
  rw [hconstrain] at hcols hshows
  have hbase : baseSeries st.cat cfg ids dice.seed = .ok shows :=
    Lib.bind_eq_ok.mpr ⟨cols, hcols, hshows⟩
  have hs := baseSeries_shows hp hcfg hids hbase
  have hnone : ids.filterMap (fun id =>
      (((∅ : HashMap (String × EntryId) (Option ℕ)).lookup (cfg.name, id)).bind
        fun take => take).map fun t => (id, t)) = [] :=
    List.filterMap_eq_nil_iff.mpr fun id _ => by simp
  simp only [hnone] at h
  have hok : ∀ (c : Bool) (e : String) (x : PoolRuntime),
      (if c then .error e else pure x : Except String PoolRuntime) = .ok rt → x = rt :=
    fun c e x h => by
      cases c
      · exact Except.ok.inj h
      · exact absurd h (by simp)
  obtain rfl := hok _ _ _ h
  have hremember : ∀ rt : PoolRuntime, rt.limits = (cfg.effectiveConstraints block.constraints).limits →
      ∀ seam, rt.remember seam = rt := fun rt hrt seam => by simp [PoolRuntime.remember, hrt, hlim]
  rw [hremember _ rfl]
  have hkey : st.variety.listKey dice cfg = none := by simp [Variety.listKey, hdice]
  exact ⟨shows, hbase, hs, resumeFrom_seated hs hlim rfl hkey rfl rfl rfl
    (fun hspan => by simp [hspan]) (hp.resume cfg hcfg) _ prev⟩

/-- Seated on an item of the series, nothing else about where it stood is kept. -/
theorem Series.seatAfter_core_congr {s t : Series} (h : t.core = s.core) {x : EntryId}
    (hx : x ∈ s.ids) : t.seatAfter (some x) = s.seatAfter (some x) := by
  have hids : t.core.ids = s.core.ids := by rw [h]
  have hkey : t.core.key = s.core.key := by rw [h]
  have hshow : t.core.showKey = s.core.showKey := by rw [h]
  simp only [Series.core] at hids hkey hshow
  cases hpos : s.ids.idxOf? x with
  | none => exact absurd hx (by simpa using hpos)
  | some pos =>
    unfold Series.seatAfter
    simp only [Option.bind_some, hids, hpos, Series.advanceTo, hkey, hshow]

/-- A live pool stands where the ledger, with the walk's airings in it, would seat it. -/
structure Tracked (showId : EntryId → Option String) (cfg : Pool) (shows : List Series)
    (cursor : String → Option EntryId) (aired : List EntryId) (rt : PoolRuntime) : Prop where
  unlimited : rt.IsUnlimited cfg
  core_eq : rt.series.map Series.core = shows.map fun s =>
    (s.seatAfter (ledgerAfter (filedUnder showId cfg.cursorScope) cursor aired s.showKey)).core

section Tracked

variable {showId : EntryId → Option String} {cfg : Pool} {ids : List EntryId}
  {shows : List Series} {cursor : String → Option EntryId} {aired out : List EntryId}
  {rt rt' : PoolRuntime}

theorem OpenedOn.tracked {prev : Option PoolResume} (h : OpenedOn rt shows cursor prev)
    (hrt : rt.IsUnlimited cfg) : Tracked showId cfg shows cursor [] rt := by
  refine ⟨hrt, ?_⟩
  rw [h.series_eq, List.map_map, ledgerAfter_nil]
  rfl

theorem PoolRuntime.IsUnlimited.of_visited {placed : Bool} (h : rt.IsUnlimited cfg)
    (hv : PoolRuntime.Visited placed rt out rt') : rt'.IsUnlimited cfg := by
  obtain ⟨draws, hdrew, -⟩ := hv.drew
  have hr := hdrew.inRange h.inRange
  obtain ⟨_, _, _, _, _, _, _, _, rfl, -⟩ := hv.moved
  exact ⟨h.cfg_eq, h.limits, h.overrides, h.listKey, hr⟩

theorem PoolRuntime.IsPlain.of_visited {placed : Bool} (h : rt.IsPlain cfg)
    (hv : PoolRuntime.Visited placed rt out rt') : rt'.IsPlain cfg := by
  refine ⟨h.toIsUnlimited.of_visited hv, ?_, ?_⟩
  · obtain ⟨_, _, _, _, _, _, _, _, rfl, -⟩ := hv.moved
    exact h.period
  · obtain ⟨_, _, _, _, _, _, _, hold, rfl, -, hhold⟩ := hv.moved
    exact (hhold h.period).trans h.hold

theorem Tracked.getElem?_core (h : Tracked showId cfg shows cursor aired rt) (i : ℕ) :
    rt.series[i]?.map Series.core = shows[i]?.map fun s =>
      (s.seatAfter (ledgerAfter (filedUnder showId cfg.cursorScope) cursor aired s.showKey)).core := by
  simpa only [List.getElem?_map] using congrArg (fun l => l[i]?) h.core_eq

/-- The series of a live pool are its shows. -/
theorem Tracked.exists_show (h : Tracked showId cfg shows cursor aired rt) {i : ℕ} {t : Series}
    (ht : rt.series[i]? = some t) : ∃ s, shows[i]? = some s ∧ t.core =
      (s.seatAfter (ledgerAfter (filedUnder showId cfg.cursorScope) cursor aired s.showKey)).core := by
  have hcore := h.getElem?_core i
  rw [ht] at hcore
  cases hs : shows[i]? with
  | none => simp [hs] at hcore
  | some s =>
    rw [hs] at hcore
    exact ⟨s, rfl, Option.some.inj hcore⟩

/-- What a live pool draws is filed under the show it came from. -/
theorem Shows.own_eq (hs : Shows showId ids shows) {i : ℕ} {s : Series} (hi : shows[i]? = some s)
    {j : ℕ} {t : Series} (hj : shows[j]? = some t) {x : EntryId} (hx : x ∈ t.ids) :
    decide ((showId x).getD x = s.showKey) = decide (j = i) := by
  rw [hs.show_eq t (List.mem_of_getElem? hj) x hx, decide_eq_decide]
  have hget : ∀ {k : ℕ} {u : Series}, shows[k]? = some u →
      (shows.map (·.showKey))[k]? = some u.showKey := fun hk => by
    rw [List.getElem?_map, hk]
    rfl
  constructor
  · intro heq
    have hlt := (List.getElem?_eq_some_iff.mp (hget hj)).1
    refine (List.getElem?_inj hlt hs.showKeys_nodup).mp ?_
    rw [hget hj, hget hi, heq]
  · rintro rfl
    rw [hj] at hi
    rw [Option.some.inj hi]

/-- A show of several items files them all under its name, whichever ledger is asked. -/
theorem Shows.filed_iff (hs : Shows showId ids shows) {s : Series} (hmem : s ∈ shows)
    (hlen : s.ids.length ≠ 1) (scope : CursorScope) {x : EntryId} (hx : x ∈ ids) :
    filedUnder showId scope x = some s.showKey ↔ (showId x).getD x = s.showKey := by
  refine ⟨filedUnder_eq_some, fun hkey => ?_⟩
  cases scope with
  | channel => exact congrArg some hkey
  | global =>
    cases hshow : showId x with
    | some k => simpa [filedUnder, hshow] using hkey
    | none =>
      -- a film whose name the series goes by: every item of the series is that film
      have hxkey : x = s.showKey := by simpa [hshow] using hkey
      have hall : ∀ id ∈ s.ids, id = x := fun id hid => by
        have hid' := hs.show_eq s hmem id hid
        cases hshow' : showId id with
        | some k =>
          rw [hshow', Option.getD_some, ← hxkey] at hid'
          exact absurd (hid' ▸ hshow') (hs.showNames id (hs.sub s hmem id hid) x hx)
        | none =>
          rw [hshow', Option.getD_none] at hid'
          exact hid'.trans hxkey.symm
      have hle : s.ids.length ≤ 1 := by
        have hnodup := hs.ids_nodup s hmem
        rw [List.eq_replicate_of_mem hall] at hnodup
        simpa using List.nodup_replicate.mp hnodup
      have := List.length_pos_iff.mpr (hs.ids_ne s hmem)
      omega

theorem Tracked.mem_ids {placed : Bool} (h : Tracked showId cfg shows cursor aired rt)
    (hv : PoolRuntime.Visited placed rt out rt') {x : EntryId} (hx : x ∈ out) :
    ∃ (j : ℕ) (t : Series), shows[j]? = some t ∧ x ∈ t.ids := by
  obtain ⟨draws, hdrew, rfl⟩ := hv.drew
  obtain ⟨j, u, hu, hxu⟩ := hdrew.mem_ids hx
  obtain ⟨t, ht, hcore⟩ := h.exists_show hu
  have hids : u.core.ids = t.ids := by rw [hcore]; exact Series.seatAfter_ids _ t
  exact ⟨j, t, ht, hids ▸ hxu⟩

/-- A visit's own airings move the ledger and the live pool alike. -/
theorem Tracked.visited {placed : Bool} (hs : Shows showId ids shows)
    (h : Tracked showId cfg shows cursor aired rt) (hv : PoolRuntime.Visited placed rt out rt') :
    Tracked showId cfg shows cursor (aired ++ out) rt' := by
  have hout := fun x (hx : x ∈ out) => h.mem_ids hv hx
  have hunlimited := h.unlimited.of_visited hv
  obtain ⟨draws, hdrew, rfl⟩ := hv.drew
  refine ⟨hunlimited, List.ext_getElem? fun i => ?_⟩
  set out := draws.flatMap Prod.snd with hout_def
  rw [List.getElem?_map, List.getElem?_map]
  cases hi : shows[i]? with
  | none =>
    have hnone := h.getElem?_core i
    rw [hi, Option.map_none, Option.map_eq_none_iff, List.getElem?_eq_none_iff] at hnone
    rw [List.getElem?_eq_none (hdrew.length_eq ▸ hnone)]
    rfl
  | some s =>
    have hmem := List.mem_of_getElem? hi
    obtain ⟨t, ht⟩ : ∃ t, rt.series[i]? = some t := by
      have hsome := h.getElem?_core i
      cases ht : rt.series[i]? with
      | none => simp [ht, hi] at hsome
      | some t => exact ⟨t, rfl⟩
    obtain ⟨s', hs', hcore⟩ := h.exists_show ht
    obtain rfl : s = s' := Option.some.inj (hi.symm.trans hs')
    set own : EntryId → Bool := fun x => decide ((showId x).getD x = s.showKey) with hown_def
    have hseat : rt'.series[i]? = some (t.seatAfter (out.filter own).getLast?) := by
      rw [hdrew.seatAfter ?_ ?_, ht, Option.map_some]
      · intro u hu
        obtain ⟨j, hlt, hj⟩ := List.getElem_of_mem hu
        obtain ⟨v, hvj, hcorev⟩ := h.exists_show (List.getElem?_eq_some_iff.mpr ⟨hlt, hj⟩)
        have hids : u.core.ids = v.ids := by rw [hcorev]; exact Series.seatAfter_ids _ v
        have := hs.ids_nodup v (List.mem_of_getElem? hvj)
        rwa [← hids] at this
      · intro j u hu x hx
        obtain ⟨v, hvj, hcorev⟩ := h.exists_show hu
        have hids : u.core.ids = v.ids := by rw [hcorev]; exact Series.seatAfter_ids _ v
        exact hs.own_eq hi hvj (hids ▸ hx)
    have hids : t.ids = s.ids := by
      change t.core.ids = s.ids
      rw [hcore]
      exact Series.seatAfter_ids _ s
    rw [hseat, Option.map_some, Option.map_some, Option.some_inj, ledgerAfter_append]
    by_cases hlen : s.ids.length = 1
    · have hkey : t.core.key = s.key := by rw [hcore]; exact Series.seatAfter_key _ s
      have hshow : t.core.showKey = s.showKey := by rw [hcore]; exact Series.seatAfter_showKey _ s
      refine Series.core_eq_of_single ?_ ?_ ?_ ?_
        (Series.seatAfter_cursor_lt (hs.ids_ne s hmem) (hs.unplayed s hmem).1 _)
        (hunlimited.inRange _ (List.mem_of_getElem? hseat))
      · rw [Series.seatAfter_ids, Series.seatAfter_ids, hids]
      · rw [Series.seatAfter_key, Series.seatAfter_key]
        exact hkey
      · rw [Series.seatAfter_showKey, Series.seatAfter_showKey]
        exact hshow
      · rwa [Series.seatAfter_ids]
    · have hfilter : (out.filter fun id => filedUnder showId cfg.cursorScope id == some s.showKey) =
          out.filter own := List.filter_congr fun x hx => by
        obtain ⟨j, v, hvj, hxv⟩ := hout x hx
        have hxids := hs.sub v (List.mem_of_getElem? hvj) x hxv
        rw [Bool.eq_iff_iff, beq_iff_eq, hs.filed_iff hmem hlen _ hxids, decide_eq_true_iff]
      rw [ledgerAfter, hfilter]
      cases hlast : (out.filter own).getLast? with
      | none =>
        rw [Series.seatAfter_none, Option.none_or]
        exact hcore
      | some x =>
        obtain ⟨hx, hxown⟩ := List.mem_filter.mp (List.mem_of_getLast? hlast)
        obtain ⟨j, v, hvj, hxv⟩ := hout x hx
        have hji : j = i := by simpa [hown_def, hs.own_eq hi hvj hxv] using hxown
        obtain rfl : v = s := Option.some.inj (hvj.symm.trans (hji ▸ hi))
        rw [Option.some_or, Series.seatAfter_core_congr hcore (by rwa [Series.seatAfter_ids]),
          Series.seatAfter_seatAfter hxv]

/-- Another pool's airings leave a live pool where it stands. -/
theorem Tracked.others (h : Tracked showId cfg shows cursor aired rt)
    (hother : ∀ x ∈ out, ∀ s ∈ shows, (showId x).getD x ≠ s.showKey) :
    Tracked showId cfg shows cursor (aired ++ out) rt := by
  refine ⟨h.unlimited, h.core_eq.trans (List.map_congr_left fun s hmem => ?_)⟩
  have hnone : ∀ x ∈ out, filedUnder showId cfg.cursorScope x ≠ some s.showKey := by
    exact fun x hx hfiled => hother x hx s hmem (filedUnder_eq_some hfiled)
  rw [ledgerAfter_append, ledgerAfter_of_not_mem _ _ hnone]

theorem findIdx?_key {series : List Series} (hnodup : (series.map (·.key)).Nodup) {i : ℕ}
    {s : Series} (hi : series[i]? = some s) :
    series.findIdx? (fun t => t.key == s.key) = some i := by
  obtain ⟨hlt, hget⟩ := List.getElem?_eq_some_iff.mp hi
  rw [List.findIdx?_eq_some_iff_getElem]
  refine ⟨hlt, by simp [hget], fun j hj heq => ?_⟩
  have hj' : j < (series.map (·.key)).length := by
    rw [List.length_map]
    omega
  have hji := (List.getElem?_inj hj' hnodup (j := i)).mp (by simp_all)
  omega

/-- A pool reopened from its own record and a ledger that has seen its airings agrees with the
live one. -/
theorem OpenedOn.agree {prev : PoolResume} (hs : Shows showId ids shows)
    (h : Tracked showId cfg shows cursor aired rt) (hadvance : cfg.advance = .resume)
    (hcfg : rt'.cfg = cfg)
    (ho : OpenedOn rt' shows (ledgerAfter (filedUnder showId cfg.cursorScope) cursor aired)
      (some prev)) (cycle step done : ℕ) (hlap : prev.lap = (rt.toResume cycle step done).lap)
    (hnext : prev.next = (rt.toResume cycle step done).next) : rt'.Agree rt := by
  have hcore : rt.series.map Series.core = rt'.series.map Series.core := by
    rw [h.core_eq, ho.series_eq, List.map_map]
    rfl
  have hlen : rt'.series.length = rt.series.length := by
    simpa using (congrArg List.length hcore).symm
  refine ⟨h.unlimited.cfg_eq.trans hcfg.symm, hcore, ?_, fun hsel => ?_⟩
  · rw [ho.lap_eq, Option.map_some, Option.getD_some, hlap]
    simp [PoolRuntime.toResume, h.unlimited.cfg_eq, hadvance]
  · rw [hcfg] at hsel
    have hrotation := ho.rotation_eq
    simp only [Option.bind_some, hnext, PoolRuntime.toResume, h.unlimited.cfg_eq, hsel] at hrotation
    cases hat : rt.seriesAt rt.rotation with
    | none =>
      unfold PoolRuntime.seriesAt at hat ⊢
      split_ifs at hat with hempty
      have hempty' : rt'.series.isEmpty = true := by
        rw [List.isEmpty_iff_length_eq_zero, hlen, ← List.isEmpty_iff_length_eq_zero]
        exact hempty
      rw [if_pos hempty']
    | some i =>
      have hi : i < rt.series.length := PoolRuntime.seriesAt_lt hat
      have hget := PoolRuntime.exists_getElem? (hlen ▸ hi : i < rt'.series.length)
      have hkey : (rt.nth i).key = (rt'.nth i).key := by
        have hagree := congrArg (fun l => l[i]?) hcore
        simp only [List.getElem?_map, PoolRuntime.exists_getElem? hi, hget, Option.map_some,
          Option.some_inj] at hagree
        change (rt.nth i).core.key = (rt'.nth i).core.key
        rw [hagree]
      have hnodup : (rt'.series.map (·.key)).Nodup := by
        have hkeys : rt'.series.map (·.key) = shows.map (·.key) := by
          rw [ho.series_eq, List.map_map]
          exact List.map_congr_left fun s _ => Series.seatAfter_key _ s
        rw [hkeys]
        exact hs.keys_nodup
      rw [hat, Option.map_some, Option.bind_some, hkey, findIdx?_key hnodup hget,
        Option.getD_some] at hrotation
      have hempty : rt'.series.isEmpty = false := by
        rw [← Bool.not_eq_true, List.isEmpty_iff_length_eq_zero]
        omega
      simp [PoolRuntime.seriesAt, hempty, hrotation, hlen, Nat.mod_eq_of_lt hi]

end Tracked

end EtvStation
