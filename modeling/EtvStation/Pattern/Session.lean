import EtvStation.Lib.Sessions
import EtvStation.Pattern.Channel
import EtvStation.Pattern.Tracked

/-! A walk visit by visit. Its positions follow one another; a visit draws from one pool and
leaves the others alone; and every pool of a resuming block stands, at every visit boundary,
where the ledger would seat it. -/
namespace EtvStation

/-- The position visited after `pos`. -/
def Block.next (block : Block) (pos : ℕ × ℕ) : ℕ × ℕ :=
  if pos.2 + 1 < block.pattern.length then (pos.1, pos.2 + 1) else (pos.1 + 1, 0)

/-- A walk between two visits. -/
structure Session where
  walk : Walk
  pos : ℕ × ℕ
  state : WalkState

/-- The walk as a machine that visits one position after another and never runs out. -/
def visits : Lib.Machine Session EntryId String where
  step s := do
    let state ← s.walk.visitAt s.pos.1 s.pos.2 s.state
    return (state.out.drop s.state.out.length, { s with pos := s.walk.block.next s.pos, state })

def Session.opened (w : Walk) (state : WalkState) : Session := ⟨w, (w.firstCycle, w.firstStep), state⟩

def Session.result (s : Session) : BlockBuild := s.walk.result s.state s.pos

section Positions

variable {block : Block} {w : Walk}

/-- `trail` is visited from `pos` on, up to `stop`. -/
def Block.Trail (block : Block) : ℕ × ℕ → List (ℕ × ℕ) → ℕ × ℕ → Prop
  | pos, [], stop => stop = pos
  | pos, p :: trail, stop => p = pos ∧ block.Trail (block.next pos) trail stop

theorem Block.Trail.append {pos mid stop : ℕ × ℕ} {l l' : List (ℕ × ℕ)}
    (h : block.Trail pos l mid) (h' : block.Trail mid l' stop) : block.Trail pos (l ++ l') stop := by
  induction l generalizing pos with
  | nil => exact (show mid = pos from h) ▸ h'
  | cons p l ih => exact ⟨h.1, ih h.2⟩

/-- The rest of a cycle ends at the top of the next. -/
theorem Block.trail_cycle {cycle : ℕ} {first : ℕ} (hfirst : first < block.pattern.length) :
    block.Trail (cycle, first)
      (((List.range block.pattern.length).drop first).map fun step => (cycle, step))
      (cycle + 1, 0) := by
  obtain ⟨left, hleft⟩ : ∃ left, block.pattern.length = first + left + 1 :=
    ⟨block.pattern.length - first - 1, by omega⟩
  have hhead : ((List.range block.pattern.length).drop first).map (fun step => (cycle, step)) =
      (cycle, first) ::
        ((List.range block.pattern.length).drop (first + 1)).map fun step => (cycle, step) := by
    rw [List.drop_eq_getElem_cons (by simpa using hfirst), List.map_cons, List.getElem_range]
  rw [hhead]
  refine ⟨rfl, ?_⟩
  induction left generalizing first with
  | zero =>
    have hnil : (List.range block.pattern.length).drop (first + 1) = [] :=
      List.drop_eq_nil_of_le (by simp; omega)
    have hnext : block.next (cycle, first) = (cycle + 1, 0) := if_neg (by simp; omega)
    rw [hnil, hnext]
    rfl
  | succ left ih =>
    have hlt : first + 1 < block.pattern.length := by omega
    have hnext : block.next (cycle, first) = (cycle, first + 1) := if_pos hlt
    rw [hnext, List.drop_eq_getElem_cons (by simpa using hlt), List.map_cons, List.getElem_range]
    refine ⟨rfl, ih hlt (by omega) ?_⟩
    rw [List.drop_eq_getElem_cons (by simpa using hlt), List.map_cons, List.getElem_range]

/-- The positions of a walk follow one another up to where it ends. -/
theorem Walk.trail_positions (hne : w.block.pattern ≠ [])
    (hfirst : w.firstStep < w.block.pattern.length) (cycles : ℕ) :
    w.block.Trail (w.firstCycle, w.firstStep) (w.positions cycles) (w.endOf cycles) := by
  induction cycles with
  | zero => rfl
  | succ n ih =>
    have hsplit : w.positions (n + 1) = w.positions n ++
        ((List.range w.block.pattern.length).drop (if n = 0 then w.firstStep else 0)).map
          fun step => (w.firstCycle + n, step) := by
      simp [Walk.positions, List.range_succ, List.flatMap_append]
    rw [hsplit]
    refine Block.Trail.append ih ?_
    have hend : w.endOf (n + 1) = (w.firstCycle + n + 1, 0) := rfl
    rw [hend]
    cases n with
    | zero => exact Block.trail_cycle hfirst
    | succ n => exact Block.trail_cycle (List.length_pos_iff.mpr hne)

/-- A first step past the pattern's end leaves the first cycle nothing to visit. -/
theorem Walk.trail_positions_of_le (hne : w.block.pattern ≠ [])
    (hfirst : w.block.pattern.length ≤ w.firstStep) (n : ℕ) :
    w.block.Trail (w.firstCycle + 1, 0) (w.positions (n + 1)) (w.endOf (n + 1)) := by
  induction n with
  | zero =>
    have hnil : w.positions 1 = [] := by
      simp [Walk.positions, List.range_succ, hfirst]
    rw [hnil]
    rfl
  | succ n ih =>
    have hsplit : w.positions (n + 2) = w.positions (n + 1) ++
        ((List.range w.block.pattern.length).drop 0).map
          fun step => (w.firstCycle + (n + 1), step) := by
      simp [Walk.positions, List.range_succ, List.flatMap_append]
    rw [hsplit]
    exact Block.Trail.append ih (Block.trail_cycle (List.length_pos_iff.mpr hne))

end Positions

/-- A visit only adds to what has been drawn. -/
theorem Walk.visitAt_out {w : Walk} {cycle step : ℕ} {s s' : WalkState}
    (h : w.visitAt cycle step s = .ok s') : ∃ drawn, s'.out = s.out ++ drawn := by
  unfold Walk.visitAt at h
  split at h
  · exact ⟨[], by simp [← Except.ok.inj h]⟩
  · split at h
    · simp at h
    · split at h
      · obtain ⟨⟨rt, src⟩, -, h⟩ := Lib.bind_eq_ok.mp h
        dsimp only at h
        split_ifs at h
        · exact ⟨[], by simp [← Except.ok.inj h]⟩
        · obtain ⟨⟨rt', src'⟩, -, h⟩ := Lib.bind_eq_ok.mp h
          obtain ⟨⟨drawn, rt'', channel⟩, -, h⟩ := Lib.bind_eq_ok.mp h
          exact ⟨drawn, by rw [← Except.ok.inj h]; rfl⟩
      · exact ⟨[], by simp [← Except.ok.inj h]⟩

theorem visits_step_eq_ok {a b : Session} {out : List EntryId} :
    visits.step a = .ok (out, b) ↔ ∃ s', a.walk.visitAt a.pos.1 a.pos.2 a.state = .ok s' ∧
      a.state.out ++ out = s'.out ∧ b = ⟨a.walk, a.walk.block.next a.pos, s'⟩ := by
  simp only [visits, Lib.bind_eq_ok, pure, Except.pure, Except.ok.injEq, Prod.mk.injEq]
  constructor
  · rintro ⟨s', hvisit, rfl, rfl⟩
    obtain ⟨drawn, hdrawn⟩ := Walk.visitAt_out hvisit
    exact ⟨s', hvisit, by simp [hdrawn], rfl⟩
  · rintro ⟨s', hvisit, hout, rfl⟩
    exact ⟨s', hvisit, by simp [← hout], rfl⟩

/-- What a machine's run emits is what it adds to the walk's ids. -/
theorem visits_run_out {n : ℕ} {a b : Session} {out : List EntryId}
    (h : visits.run n a = .ok (out, b)) : b.state.out = a.state.out ++ out := by
  induction n generalizing a out with
  | zero =>
    simp only [Lib.Machine.run, Except.ok.injEq, Prod.mk.injEq] at h
    obtain ⟨rfl, rfl⟩ := h
    simp
  | succ n ih =>
    obtain ⟨o, s, rest, hstep, hrest, rfl⟩ := visits.run_succ_eq_ok.mp h
    obtain ⟨s', -, hout, rfl⟩ := visits_step_eq_ok.mp hstep
    rw [ih hrest, ← List.append_assoc, hout]

/-- A budgeted run is so many visits. -/
theorem Walk.run_eq_visits {w : Walk} {budget : Option ℕ} {end_ pos stop : ℕ × ℕ}
    {trail : List (ℕ × ℕ)} {s s' : WalkState} (ht : w.block.Trail pos trail end_)
    (h : w.run budget end_ trail s = .ok (s', stop)) :
    ∃ n out, visits.run n ⟨w, pos, s⟩ = .ok (out, ⟨w, stop, s'⟩) := by
  induction trail generalizing pos s with
  | nil =>
    obtain rfl : end_ = pos := ht
    simp only [Walk.run, Except.ok.injEq, Prod.mk.injEq] at h
    obtain ⟨rfl, rfl⟩ := h
    exact ⟨0, [], rfl⟩
  | cons p trail ih =>
    obtain ⟨rfl, ht⟩ := ht
    simp only [Walk.run] at h
    split_ifs at h with hover
    · simp only [Except.ok.injEq, Prod.mk.injEq] at h
      obtain ⟨rfl, rfl⟩ := h
      exact ⟨0, [], rfl⟩
    · obtain ⟨s₁, hvisit, h⟩ := Lib.bind_eq_ok.mp h
      obtain ⟨n, out, hrun⟩ := ih ht h
      obtain ⟨drawn, hdrawn⟩ := Walk.visitAt_out hvisit
      exact ⟨n + 1, drawn ++ out, visits.run_succ_eq_ok.mpr
        ⟨drawn, _, out, visits_step_eq_ok.mpr ⟨s₁, hvisit, hdrawn.symm, rfl⟩, hrun, rfl⟩⟩

/-- A whole generation is so many visits from where it opens. -/
theorem Walk.run_eq_visits_opened {w : Walk} {budget : Option ℕ} {cycles : ℕ}
    {stop : ℕ × ℕ} {s s' : WalkState} (hne : w.block.pattern ≠ [])
    (h : w.run budget (w.endOf cycles) (w.positions cycles) s = .ok (s', stop)) :
    ∃ n out, visits.run n (Session.opened w s) = .ok (out, ⟨w, stop, s'⟩) := by
  by_cases hfirst : w.firstStep < w.block.pattern.length
  · exact Walk.run_eq_visits (Walk.trail_positions hne hfirst cycles) h
  · have hle : w.block.pattern.length ≤ w.firstStep := by omega
    cases cycles with
    | zero =>
      have ht : w.block.Trail (w.firstCycle, w.firstStep) (w.positions 0) (w.endOf 0) := rfl
      exact Walk.run_eq_visits ht h
    | succ c =>
      obtain ⟨n, out, hrun⟩ := Walk.run_eq_visits (Walk.trail_positions_of_le hne hle c) h
      have hidle : w.visitAt w.firstCycle w.firstStep s = .ok s := by
        simp [Walk.visitAt, List.getElem?_eq_none hle]
      have hnext : w.block.next (w.firstCycle, w.firstStep) = (w.firstCycle + 1, 0) :=
        if_neg (by simp; omega)
      refine ⟨n + 1, [] ++ out, visits.run_succ_eq_ok.mpr ⟨[], _, out,
        visits_step_eq_ok.mpr ⟨s, hidle, by simp [Session.opened], rfl⟩, ?_, rfl⟩⟩
      simpa only [Session.opened, hnext] using hrun

/-- The roll of a pool's visit, whenever it airs: its dice are pinned. -/
def Station.rollAt (st : Station) (cfg : Pool) (pos : ℕ × ℕ) : RollKey :=
  ⟨(st.variety.dice 0 cfg).seed, UInt64.ofNat pos.1, UInt64.ofNat pos.2⟩

/-- A visit resumed `done` items in still has something to draw. -/
def Station.Unspent (st : Station) (block : Block) (pos : ℕ × ℕ) (done : ℕ) : Prop :=
  ∀ step cfg n, block.pattern[pos.2]? = some step → cfg ∈ block.pools → cfg.name = step.pool →
    resolveTake step.take (st.rollAt cfg pos) = .count n → n ≠ 0 → done < n

/-- A walk of the station's block, opened where it still has something to draw. -/
structure Station.Walks (st : Station) (block : Block) (w : Walk) : Prop where
  cat_eq : w.cat = st.cat
  variety_eq : w.variety = st.variety
  env_eq : w.env = st.env
  block_eq : w.block = block
  patternId_eq : w.patternId = st.patternId block.pattern
  unspent : st.Unspent block (w.firstCycle, w.firstStep) w.firstDone

/-- A pool as a visit finds it: in the span period the visit airs in, and asked in vain for
more if it is drained. -/
def PoolRuntime.entered (rt : PoolRuntime) (period : Option (ℤ × ℤ)) (exhausted : Bool) :
    PoolRuntime :=
  { rt with period, exhausted }

theorem PoolRuntime.IsUnlimited.entered {rt : PoolRuntime} {cfg : Pool} (h : rt.IsUnlimited cfg)
    (period : Option (ℤ × ℤ)) (exhausted : Bool) : (rt.entered period exhausted).IsUnlimited cfg :=
  ⟨h.cfg_eq, h.limits, h.overrides, h.listKey, h.inRange⟩

theorem PoolRuntime.IsPlain.entered {rt : PoolRuntime} {cfg : Pool} (h : rt.IsPlain cfg)
    (exhausted : Bool) : (rt.entered none exhausted).IsPlain cfg :=
  ⟨h.toIsUnlimited.entered none exhausted, rfl, h.hold⟩

section Visit

variable {st : Station} {block : Block} {showId : EntryId → Option String} {w : Walk}

/-- A pool is visited as it stands: nothing of it rolls over, and it has no source to ask for
more. -/
theorem visitAt_eq (hp : st.Resumes block showId) (hw : st.Walks block w) {pos : ℕ × ℕ}
    {step : PatternStep} (hstep : block.pattern[pos.2]? = some step) {idx : ℕ}
    (hidx : block.pools.findIdx? (·.name == step.pool) = some idx) {cfg : Pool}
    (hcfg : block.pools[idx]? = some cfg) {s : WalkState} {rt : PoolRuntime}
    (hrt : s.runtimes[idx]? = some rt) (hlist : rt.listKey = none) :
    ∃ period e, (cfg.rotate.span? = none → period = none) ∧ w.visitAt pos.1 pos.2 s =
      if step.isSkipped (st.rollAt cfg pos) then
        .ok { s with runtimes := s.runtimes.set idx { rt with period } }
      else do
        let (drawn, rt', channel) ← PoolRuntime.visit st.cat (rt.entered period e) step.take
          step.from_ (st.rollAt cfg pos) (w.resumed pos.1 pos.2) s.channel
        return w.visited { s with runtimes := s.runtimes.set idx (rt.entered period e) } idx
          (w.entering pos.1 pos.2 (s.runtimes.set idx (rt.entered period e)))
          (w.resumed pos.1 pos.2) drawn rt' channel := by
  have hmem := List.mem_of_getElem? hcfg
  have hdice : ∀ t, st.variety.dice t cfg = st.variety.dice 0 cfg := fun t =>
    hp.pinned cfg hmem t 0
  have hkey : st.variety.listKey (st.variety.dice 0 cfg) cfg = none := by
    simp [Variety.listKey, hp.still cfg hmem]
  set period := (cfg.rotate.span?).map (st.variety.spanPeriod (st.variety.airsAt w.windowStart s.laid))
    with hperiod
  obtain ⟨e, hreplenished⟩ : ∃ e, w.replenished cfg { rt with period } (st.variety.dice 0 cfg) s.src =
      .ok (rt.entered period e, s.src) := by
    unfold Walk.replenished Walk.refillPool
    simp only [(hp.expr cfg hmem).2.1, Option.isNone_none, Bool.true_or, if_true]
    split
    · exact ⟨true, rfl⟩
    · exact ⟨rt.exhausted, rfl⟩
  refine ⟨period, e, fun hspan => by rw [hperiod, hspan, Option.map_none], ?_⟩
  generalize rt.entered period e = rt₁ at hreplenished ⊢
  have hrolled : w.rolled cfg rt (st.variety.dice 0 cfg) s.src s.out = .ok (rt, s.src) := by
    rw [Walk.rolled, hw.variety_eq, hkey, hlist, if_pos rfl]
  unfold Walk.visitAt
  simp only [hw.block_eq, hstep, hidx, hcfg, hrt, hw.variety_eq, hdice, hrolled, ← hperiod, bind,
    Except.bind, hreplenished, List.set_set, hw.cat_eq]
  rfl

/-- A step names a pool of its block. -/
theorem exists_pool (hp : st.Resumes block showId) {step : PatternStep} (hstep : step ∈ block.pattern) :
    ∃ idx cfg, block.pools.findIdx? (·.name == step.pool) = some idx ∧
      block.pools[idx]? = some cfg ∧ cfg.name = step.pool := by
  obtain ⟨cfg, hcfg, hname⟩ := List.mem_map.mp (hp.known step hstep)
  cases hidx : block.pools.findIdx? (·.name == step.pool) with
  | none =>
    have := List.findIdx?_eq_none_iff.mp hidx cfg hcfg
    simp [hname] at this
  | some idx =>
    obtain ⟨hlt, hat, -⟩ := List.findIdx?_eq_some_iff_getElem.mp hidx
    exact ⟨idx, _, rfl, List.getElem?_eq_getElem hlt, by simpa using hat⟩

theorem wantsVisit (hw : st.Walks block w) {pos : ℕ × ℕ} {step : PatternStep}
    (hstep : block.pattern[pos.2]? = some step) {cfg : Pool} (hcfg : cfg ∈ block.pools)
    (hname : cfg.name = step.pool) {rt : PoolRuntime}
    (hover : rt.takeOverrides = ∅) :
    rt.WantsVisit step.take (st.rollAt cfg pos) (w.resumed pos.1 pos.2) := by
  intro hne
  refine ⟨fun n hn => ?_, fun first n hn => ?_⟩
  · have hn0 : n ≠ 0 := by
      rintro rfl
      exact hne hn
    unfold Walk.resumed
    split_ifs with hfirst
    · have hpos : pos = (w.firstCycle, w.firstStep) := Prod.ext hfirst.1 hfirst.2
      rw [hpos] at hstep hn
      exact hw.unspent step cfg n hstep hcfg hname hn hn0
    · exact Nat.pos_of_ne_zero hn0
  · rw [PoolRuntime.overrideTake_of_empty hover] at hn
    exact absurd hn (by simp)

end Visit

/-- A session of the block, every pool of it as `Q` asks. -/
structure Session.Of (st : Station) (block : Block) (Q : PoolRuntime → Pool → Prop) (s : Session) :
    Prop where
  walks : st.Walks block s.walk
  channel : s.state.channel.isUnconstrained = true
  length_eq : s.state.runtimes.length = block.pools.length
  pools : ∀ (i : ℕ) cfg rt, block.pools[i]? = some cfg → s.state.runtimes[i]? = some rt → Q rt cfg

/-- A position that draws nothing: past the pattern's end, or turned away by its chance. -/
def Station.Idle (st : Station) (block : Block) (pos : ℕ × ℕ) : Prop :=
  ∀ step idx cfg, block.pattern[pos.2]? = some step →
    block.pools.findIdx? (·.name == step.pool) = some idx → block.pools[idx]? = some cfg →
    step.isSkipped (st.rollAt cfg pos) = true

structure Session.Visit (st : Station) (block : Block) (s : Session) (step : PatternStep)
    (idx : ℕ) (cfg : Pool) (rt : PoolRuntime) : Prop where
  step_eq : block.pattern[s.pos.2]? = some step
  idx_eq : block.pools.findIdx? (·.name == step.pool) = some idx
  cfg_eq : block.pools[idx]? = some cfg
  name_eq : cfg.name = step.pool
  runtime_eq : s.state.runtimes[idx]? = some rt
  drawn : step.isSkipped (st.rollAt cfg s.pos) = false

/-- The session after an idle position, which may have told a pool its span period. -/
def Session.idle (s : Session) (runtimes : List PoolRuntime) : Session where
  walk := s.walk
  pos := s.walk.block.next s.pos
  state := { s.state with runtimes }

def Session.visited (s : Session) (idx : ℕ) (entered : PoolRuntime) (drawn : List EntryId)
    (rt : PoolRuntime) (channel : ChannelHistory) : Session where
  walk := s.walk
  pos := s.walk.block.next s.pos
  state := s.walk.visited { s.state with runtimes := s.state.runtimes.set idx entered } idx
    (s.walk.entering s.pos.1 s.pos.2 (s.state.runtimes.set idx entered))
    (s.walk.resumed s.pos.1 s.pos.2) drawn rt channel

theorem Session.visited_runtimes (s : Session) (idx : ℕ) (entered : PoolRuntime)
    (drawn : List EntryId) (rt : PoolRuntime) (channel : ChannelHistory) :
    (s.visited idx entered drawn rt channel).state.runtimes = s.state.runtimes.set idx rt :=
  List.set_set ..

section Step

variable {st : Station} {block : Block} {showId : EntryId → Option String}
  {Q : PoolRuntime → Pool → Prop} {s : Session}

theorem Session.Of.exists_runtime (h : s.Of st block Q) {idx : ℕ} {cfg : Pool}
    (hcfg : block.pools[idx]? = some cfg) :
    ∃ rt, s.state.runtimes[idx]? = some rt ∧ Q rt cfg := by
  have hlt : idx < s.state.runtimes.length := by
    rw [h.length_eq]
    exact (List.getElem?_eq_some_iff.mp hcfg).1
  have hget := List.getElem?_eq_getElem hlt
  exact ⟨_, hget, h.pools idx cfg _ hcfg hget⟩

theorem Session.Of.imp (h : s.Of st block Q) {Q' : PoolRuntime → Pool → Prop}
    (hQ : ∀ rt cfg, Q rt cfg → Q' rt cfg) : s.Of st block Q' :=
  ⟨h.walks, h.channel, h.length_eq, fun i cfg rt hi hrt => hQ rt cfg (h.pools i cfg rt hi hrt)⟩

theorem Session.Of.visited (h : s.Of st block Q) {idx : ℕ} {cfg : Pool}
    (hcfg : block.pools[idx]? = some cfg) {rt : PoolRuntime} (hrt : Q rt cfg)
    {channel : ChannelHistory} (hch : channel.isUnconstrained = true) (entered : PoolRuntime)
    (drawn : List EntryId) : (s.visited idx entered drawn rt channel).Of st block Q := by
  refine ⟨h.walks, hch, ?_, fun i cfg' rt' hcfg' hrt' => ?_⟩
  · rw [Session.visited_runtimes, List.length_set, h.length_eq]
  · rw [Session.visited_runtimes, List.getElem?_set] at hrt'
    split_ifs at hrt' with hi hlt
    · subst hi
      obtain rfl := Option.some.inj (hcfg.symm.trans hcfg')
      obtain rfl := Option.some.inj hrt'
      exact hrt
    · exact h.pools i cfg' rt' hcfg' hrt'

/-- An idle position changes no pool but the span period it was told. -/
theorem Session.Of.step_idle (hp : st.Resumes block showId)
    (h : s.Of st block PoolRuntime.IsUnlimited) (hidle : st.Idle block s.pos) :
    ∃ runtimes, visits.step s = .ok ([], s.idle runtimes) ∧
      runtimes.length = s.state.runtimes.length ∧
      ∀ (i : ℕ) cfg rt', block.pools[i]? = some cfg → runtimes[i]? = some rt' →
        ∃ rt period, s.state.runtimes[i]? = some rt ∧ rt' = { rt with period } ∧
          (cfg.rotate.span? = none → period = rt.period ∨ period = none) := by
  have hstep : ∀ runtimes, s.walk.visitAt s.pos.1 s.pos.2 s.state =
      .ok { s.state with runtimes } → visits.step s = .ok ([], s.idle runtimes) :=
    fun runtimes hvisit => visits_step_eq_ok.mpr ⟨_, hvisit, by simp, rfl⟩
  cases hpat : block.pattern[s.pos.2]? with
  | none =>
    refine ⟨s.state.runtimes, hstep _ ?_, rfl, fun i cfg rt _ hrt => ⟨rt, rt.period, hrt, rfl, ?_⟩⟩
    · simp [Walk.visitAt, h.walks.block_eq, hpat]
    · exact fun _ => .inl rfl
  | some step =>
    obtain ⟨idx, cfg, hidx, hcfg, -⟩ := exists_pool hp (List.mem_of_getElem? hpat)
    obtain ⟨rt, hrt, hunlimited⟩ := h.exists_runtime hcfg
    obtain ⟨period, e, hperiod, he⟩ :=
      visitAt_eq hp h.walks hpat hidx hcfg hrt hunlimited.listKey
    rw [if_pos (hidle step idx cfg hpat hidx hcfg)] at he
    refine ⟨_, hstep _ he, by simp, fun i cfg' rt' hcfg' hrt' => ?_⟩
    rw [List.getElem?_set] at hrt'
    split_ifs at hrt' with hi hlt
    · subst hi
      obtain rfl := Option.some.inj (hcfg.symm.trans hcfg')
      exact ⟨rt, period, hrt, (Option.some.inj hrt').symm, fun hspan => .inr (hperiod hspan)⟩
    · exact ⟨rt', rt'.period, hrt', rfl, fun _ => .inl rfl⟩

theorem Session.Of.exists_visit (hp : st.Resumes block showId) (h : s.Of st block Q)
    (hidle : ¬ st.Idle block s.pos) :
    ∃ step idx cfg rt, s.Visit st block step idx cfg rt ∧ Q rt cfg := by
  unfold Station.Idle at hidle
  push Not at hidle
  obtain ⟨step, idx, cfg, hpat, hidx, hcfg, hskip⟩ := hidle
  obtain ⟨rt, hrt, hQ⟩ := h.exists_runtime hcfg
  obtain ⟨idx', cfg', hidx', hcfg', hname⟩ := exists_pool hp (List.mem_of_getElem? hpat)
  obtain rfl : idx = idx' := Option.some.inj (hidx.symm.trans hidx')
  obtain rfl : cfg = cfg' := Option.some.inj (hcfg.symm.trans hcfg')
  exact ⟨step, idx, cfg, rt, ⟨hpat, hidx, hcfg, hname, hrt, by simpa using hskip⟩, hQ⟩

/-- A visit draws from its pool as the pool stands. -/
theorem Session.Visit.step_eq_ok (hp : st.Resumes block showId) (hw : st.Walks block s.walk)
    {step : PatternStep} {idx : ℕ} {cfg : Pool} {rt : PoolRuntime}
    (hv : s.Visit st block step idx cfg rt) (hlist : rt.listKey = none) :
    ∃ period e, (cfg.rotate.span? = none → period = none) ∧
      ∀ out s', visits.step s = .ok (out, s') ↔ ∃ rt' channel,
        PoolRuntime.visit st.cat (rt.entered period e) step.take step.from_
          (st.rollAt cfg s.pos) (s.walk.resumed s.pos.1 s.pos.2) s.state.channel =
            .ok (out, rt', channel) ∧
        s' = s.visited idx (rt.entered period e) out rt' channel := by
  obtain ⟨period, e, hperiod, he⟩ :=
    visitAt_eq hp hw hv.step_eq hv.idx_eq hv.cfg_eq hv.runtime_eq hlist
  rw [hv.drawn, if_neg Bool.false_ne_true] at he
  refine ⟨period, e, hperiod, fun out s' => ?_⟩
  rw [visits_step_eq_ok, he]
  constructor
  · rintro ⟨state, hstep, hout, rfl⟩
    obtain ⟨⟨drawn, rt', channel⟩, hvisit, hstate⟩ := Lib.bind_eq_ok.mp hstep
    obtain rfl := Except.ok.inj hstate
    obtain rfl : drawn = out := List.append_cancel_left hout.symm
    exact ⟨rt', channel, hvisit, rfl⟩
  · rintro ⟨rt', channel, hvisit, rfl⟩
    exact ⟨_, Lib.bind_eq_ok.mpr ⟨_, hvisit, rfl⟩, rfl, rfl⟩

theorem Session.Visit.wants (hw : st.Walks block s.walk) {step : PatternStep} {idx : ℕ}
    {cfg : Pool} {rt : PoolRuntime} (hv : s.Visit st block step idx cfg rt)
    (hover : rt.takeOverrides = ∅) (period : Option (ℤ × ℤ)) (e : Bool) :
    (rt.entered period e).WantsVisit step.take (st.rollAt cfg s.pos)
      (s.walk.resumed s.pos.1 s.pos.2) :=
  wantsVisit hw hv.step_eq (List.mem_of_getElem? hv.cfg_eq) hv.name_eq hover

/-- The shows a pool's series are opened from, whenever it opens. -/
def Station.Stocked (st : Station) (block : Block) (cfg : Pool) (shows : List Series) : Prop :=
  ∃ ids, resolveQueryIds st.cat st.env block.groups cfg (st.variety.dice 0 cfg) = .ok (some ids) ∧
    baseSeries st.cat cfg ids (st.variety.dice 0 cfg).seed = .ok shows

theorem Station.Stocked.unique {cfg : Pool} {shows shows' : List Series}
    (h : st.Stocked block cfg shows) (h' : st.Stocked block cfg shows') : shows = shows' := by
  obtain ⟨ids, hids, hshows⟩ := h
  obtain ⟨ids', hids', hshows'⟩ := h'
  obtain rfl := Option.some.inj (Except.ok.inj (hids.symm.trans hids'))
  exact Except.ok.inj (hshows.symm.trans hshows')

theorem Station.Stocked.exists_shows (hp : st.Whole block showId) {cfg : Pool}
    (hcfg : cfg ∈ block.pools) {shows : List Series} (h : st.Stocked block cfg shows) :
    ∃ ids, st.Lists block cfg ids ∧ Shows showId ids shows := by
  obtain ⟨ids, hids, hshows⟩ := h
  exact ⟨ids, ⟨0, hids⟩, baseSeries_shows hp hcfg ⟨0, hids⟩ hshows⟩

/-- Every pool of the session stands where the ledger would seat it, given what the session
has aired since it opened under `state`. -/
structure Session.Tracks (st : Station) (block : Block) (showId : EntryId → Option String)
    (state : GenerationState) (s : Session) : Prop where
  unlimited : s.Of st block PoolRuntime.IsUnlimited
  tracked : ∀ (i : ℕ) cfg rt, block.pools[i]? = some cfg → s.state.runtimes[i]? = some rt →
    ∃ shows, st.Stocked block cfg shows ∧
      Tracked showId cfg shows (state.cursorFor cfg) s.state.out rt

theorem Station.Resumes.name_ne (hp : st.Resumes block showId) {i j : ℕ} {p q : Pool}
    (hi : block.pools[i]? = some p) (hj : block.pools[j]? = some q) (hne : i ≠ j) :
    p.name ≠ q.name := by
  intro heq
  have hlt : i < (block.pools.map (·.name)).length := by
    rw [List.length_map]
    exact (List.getElem?_eq_some_iff.mp hi).1
  refine hne ((List.getElem?_inj hlt hp.names).mp ?_)
  rw [List.getElem?_map, List.getElem?_map, hi, hj, Option.map_some, Option.map_some, heq]

/-- A visit keeps every pool where the ledger would seat it. -/
theorem Session.Tracks.visited (hp : st.Whole block showId) {state : GenerationState}
    (h : s.Tracks st block showId state) {step : PatternStep} {idx : ℕ} {cfg : Pool}
    {rt : PoolRuntime} (hv : s.Visit st block step idx cfg rt) {period : Option (ℤ × ℤ)} {e : Bool}
    {out : List EntryId} {rt' : PoolRuntime} {channel : ChannelHistory} {placed : Bool}
    (hvis : PoolRuntime.Visited placed (rt.entered period e) out rt')
    (hch : channel.isUnconstrained = true) :
    (s.visited idx (rt.entered period e) out rt' channel).Tracks st block showId state := by
  have hcfg := List.mem_of_getElem? hv.cfg_eq
  obtain ⟨shows, hstocked, htracked⟩ := h.tracked idx cfg rt hv.cfg_eq hv.runtime_eq
  obtain ⟨ids, hlists, hshows⟩ := hstocked.exists_shows hp hcfg
  have hrt := htracked.unlimited.entered period e
  have htracked : Tracked showId cfg shows (state.cursorFor cfg) s.state.out
      (rt.entered period e) := ⟨hrt, htracked.core_eq⟩
  refine ⟨h.unlimited.visited hv.cfg_eq (hrt.of_visited hvis) hch _ _, fun i cfg' r hcfg' hr => ?_⟩
  rw [Session.visited_runtimes, List.getElem?_set] at hr
  split_ifs at hr with hi hlt
  · subst hi
    obtain rfl := Option.some.inj (hv.cfg_eq.symm.trans hcfg')
    obtain rfl := Option.some.inj hr
    exact ⟨shows, hstocked, htracked.visited hshows hvis⟩
  · obtain ⟨shows', hstocked', htracked'⟩ := h.tracked i cfg' r hcfg' hr
    obtain ⟨ids', hlists', hshows'⟩ := hstocked'.exists_shows hp (List.mem_of_getElem? hcfg')
    refine ⟨shows', hstocked', htracked'.others fun x hx s hs heq => ?_⟩
    obtain ⟨j, t, ht, hxt⟩ := htracked.mem_ids hvis hx
    obtain ⟨id', hid'⟩ := List.exists_mem_of_ne_nil _ (hshows'.ids_ne s hs)
    refine hp.disjoint cfg hcfg cfg' (List.mem_of_getElem? hcfg')
      (hp.name_ne hv.cfg_eq hcfg' hi) ids ids' hlists hlists' x
      (hshows.sub t (List.mem_of_getElem? ht) x hxt) id' (hshows'.sub s hs id' hid') ?_
    rw [heq, hshows'.show_eq s hs id' hid']

/-- A step of the walk keeps every pool where the ledger would seat it. -/
theorem Session.Tracks.step (hp : st.Whole block showId) {state : GenerationState} {s' : Session}
    (h : s.Tracks st block showId state) {out : List EntryId}
    (hstep : visits.step s = .ok (out, s')) : s'.Tracks st block showId state := by
  by_cases hidle : st.Idle block s.pos
  · obtain ⟨runtimes, hidled, hlen, hruntimes⟩ := h.unlimited.step_idle hp.toResumes hidle
    rw [hidled] at hstep
    obtain ⟨rfl, rfl⟩ := Prod.mk.inj (Except.ok.inj hstep)
    refine ⟨⟨h.unlimited.walks, h.unlimited.channel, hlen.trans h.unlimited.length_eq, ?_⟩, ?_⟩
    · intro i cfg rt' hcfg hrt'
      obtain ⟨rt, period, hrt, rfl, -⟩ := hruntimes i cfg rt' hcfg hrt'
      exact (h.unlimited.pools i cfg rt hcfg hrt).entered period rt.exhausted
    · intro i cfg rt' hcfg hrt'
      obtain ⟨rt, period, hrt, rfl, -⟩ := hruntimes i cfg rt' hcfg hrt'
      obtain ⟨shows, hstocked, htracked⟩ := h.tracked i cfg rt hcfg hrt
      exact ⟨shows, hstocked, htracked.unlimited.entered period rt.exhausted, htracked.core_eq⟩
  · obtain ⟨step, idx, cfg, rt, hv, hrt⟩ := h.unlimited.exists_visit hp.toResumes hidle
    obtain ⟨period, e, -, he⟩ := hv.step_eq_ok hp.toResumes h.unlimited.walks hrt.listKey
    obtain ⟨rt', ch, hvisit, rfl⟩ := (he _ _).mp hstep
    exact h.visited hp hv
      (PoolRuntime.visit_visited st.cat (hrt.entered period e).inRange
        (hv.wants h.unlimited.walks hrt.overrides period e) hvisit)
      ((PoolRuntime.visit_grew hvisit).isUnconstrained h.unlimited.channel)

end Step

section Opening

variable {st : Station} {block : Block} {showId : EntryId → Option String} {w : Walk}

theorem resolveQueryIds_queried (hp : st.Resumes block showId) {cfg : Pool} (hcfg : cfg ∈ block.pools)
    {dice : Dice} {slot : Option (List EntryId)}
    (h : resolveQueryIds st.cat st.env block.groups cfg dice = .ok slot) :
    ∃ ids, slot = some ids := by
  obtain ⟨hexpr, hplugin, hgroups⟩ := hp.expr cfg hcfg
  obtain ⟨expr, hexpr⟩ := Option.isSome_iff_exists.mp hexpr
  simp only [resolveQueryIds, hexpr, hplugin, hgroups, List.isEmpty_nil, Bool.not_true] at h
  obtain ⟨ids, -, h⟩ := Lib.bind_eq_ok.mp h
  obtain ⟨ids', -, rfl⟩ := Lib.map_eq_ok.mp h
  exact ⟨ids', rfl⟩

/-- Lists already queried are not ranked again, and nothing is recorded of them. -/
theorem rankAll_queried (v : Variety) (env : ScoreEnv) (src : SourceState)
    (pools : List (Pool × Dice × Option (List EntryId))) (h : ∀ p ∈ pools, p.2.2.isSome) :
    rankAll v env pools src = .ok (pools.map fun p => p.2.2.getD [], src) := by
  induction pools with
  | nil => rfl
  | cons p pools ih =>
    obtain ⟨cfg, dice, slot⟩ := p
    obtain ⟨ids, rfl⟩ := Option.isSome_iff_exists.mp (h (cfg, dice, slot) List.mem_cons_self)
    have hrest := ih fun q hq => h q (List.mem_cons_of_mem _ hq)
    simp only [rankAll, rankIds, hrest, bind, Except.bind, pure, Except.pure, List.map_cons,
      Option.getD_some]

/-- Each pool opens on its shows, seated by the ledger. -/
theorem openWalk_opened (hp : st.Whole block showId) (hw : st.Walks block w) {s : WalkState}
    (h : st.openWalk block w none = .ok s) :
    s.out = [] ∧ s.channel.isUnconstrained = true ∧ s.runtimes.length = block.pools.length ∧
      ∀ (i : ℕ) cfg rt, block.pools[i]? = some cfg → s.runtimes[i]? = some rt →
        ∃ shows, st.Stocked block cfg shows ∧ rt.IsUnlimited cfg ∧
          (cfg.rotate.span? = none → rt.IsPlain cfg) ∧
          OpenedOn rt shows (w.state.cursorFor cfg) (w.state.resume.pool cfg.name) := by
  obtain ⟨⟨lists, src⟩, hsources, h⟩ := Lib.bind_eq_ok.mp h
  obtain ⟨runtimes, hopen, h⟩ := Lib.bind_eq_ok.mp h
  obtain rfl := Except.ok.inj h
  obtain ⟨slots, hslots, hrank⟩ := Lib.bind_eq_ok.mp hsources
  obtain ⟨hslen, hslot⟩ := Lib.mapM_eq_ok hslots
  obtain ⟨hrlen, hruntime⟩ := Lib.mapM_eq_ok hopen
  have hopening : (st.opening block w.windowStart).length = block.pools.length := by
    simp [Station.opening]
  have hdice : ∀ {i : ℕ} {cfg : Pool}, block.pools[i]? = some cfg →
      (st.opening block w.windowStart)[i]? = some (st.variety.dice 0 cfg) := fun {i cfg} hi => by
    simp only [Station.opening, List.getElem?_map, hi, Option.map_some]
    rw [hp.pinned cfg (List.mem_of_getElem? hi) w.windowStart 0]
  have hzip : ∀ {i : ℕ} {cfg : Pool}, block.pools[i]? = some cfg →
      (block.pools.zip (st.opening block w.windowStart))[i]? =
        some (cfg, st.variety.dice 0 cfg) := fun hi => by
    rw [List.getElem?_zip_eq_some]
    exact ⟨hi, hdice hi⟩
  have hqueried : ∀ {i : ℕ} {cfg : Pool}, block.pools[i]? = some cfg → ∃ ids,
      slots[i]? = some (some ids) ∧ resolveQueryIds st.cat st.env block.groups cfg
        (st.variety.dice 0 cfg) = .ok (some ids) := fun {i cfg} hi => by
    have hlt : i < slots.length := by
      rw [hslen, List.length_zip, hopening, Nat.min_self]
      exact (List.getElem?_eq_some_iff.mp hi).1
    have hquery := hslot (hzip hi) (List.getElem?_eq_getElem hlt)
    obtain ⟨ids, hids⟩ := resolveQueryIds_queried hp.toResumes (List.mem_of_getElem? hi) hquery
    exact ⟨ids, hids ▸ List.getElem?_eq_getElem hlt, hids ▸ hquery⟩
  rw [rankAll_queried _ _ _ _ fun p hmem => ?_] at hrank
  · obtain ⟨rfl, rfl⟩ := Prod.mk.inj (Except.ok.inj hrank)
    refine ⟨rfl, rfl, ?_, fun i cfg rt hi hrt => ?_⟩
    · simp only [hrlen, List.length_zip, List.length_map, hslen, hopening]
      omega
    · obtain ⟨ids, hids, hquery⟩ := hqueried hi
      have hpair : ((block.pools.zip (st.opening block w.windowStart)).zip slots)[i]? =
          some ((cfg, st.variety.dice 0 cfg), some ids) :=
        List.getElem?_zip_eq_some.mpr ⟨hzip hi, hids⟩
      have harg : (block.pools.zip (((((block.pools.zip (st.opening block w.windowStart)).zip
          slots).map fun p => (p.1.1, p.1.2, p.2)).map fun p => p.2.2.getD []).zip
            (st.opening block w.windowStart)))[i]? = some (cfg, ids, st.variety.dice 0 cfg) := by
        rw [List.getElem?_zip_eq_some, List.getElem?_zip_eq_some, List.getElem?_map,
          List.getElem?_map, hpair]
        exact ⟨hi, rfl, hdice hi⟩
      have hopened := hruntime harg hrt
      rw [hw.cat_eq, hw.variety_eq, hw.block_eq] at hopened
      have hmem := List.mem_of_getElem? hi
      obtain ⟨shows, hshows, -, hrt⟩ := poolRuntime_opened hp hmem ⟨0, hquery⟩
        (hp.still cfg hmem 0) hopened
      exact ⟨shows, ⟨ids, hquery, hshows⟩, hrt⟩
  · obtain ⟨i, hi⟩ := List.mem_iff_getElem?.mp hmem
    rw [List.getElem?_map, Option.map_eq_some_iff] at hi
    obtain ⟨⟨⟨cfg, dice⟩, slot⟩, hi, rfl⟩ := hi
    obtain ⟨hi, hslot'⟩ := List.getElem?_zip_eq_some.mp hi
    obtain ⟨ids, hids, -⟩ := hqueried (List.getElem?_zip_eq_some.mp hi).1
    obtain rfl := Option.some.inj (hslot'.symm.trans hids)
    rfl

end Opening

section Records

theorem foldl_max_of_forall {l : List ℕ} {c : ℕ} (h : ∀ x ∈ l, x = c) (hne : l ≠ [] ∨ c = 0) :
    l.foldl max 0 = c := by
  have hfix : ∀ (l : List ℕ), (∀ x ∈ l, x = c) → l.foldl max c = c := fun l hl => by
    induction l with
    | nil => rfl
    | cons x l ih =>
      rw [List.foldl_cons, hl x List.mem_cons_self, max_self]
      exact ih fun y hy => hl y (List.mem_cons_of_mem _ hy)
  cases l with
  | nil => exact (hne.resolve_left (by simp)).symm
  | cons x l =>
    rw [List.foldl_cons, h x List.mem_cons_self, Nat.zero_max]
    exact hfix l fun y hy => h y (List.mem_cons_of_mem _ hy)

theorem poolsResume_get {runtimes : List PoolRuntime} (hnodup : (runtimes.map (·.cfg.name)).Nodup)
    {rt : PoolRuntime} (hrt : rt ∈ runtimes) (cycle step done : ℕ) (patternId : String) :
    (poolsResume runtimes cycle step done patternId).get rt.cfg.name =
      some (rt.record cycle step done patternId) := by
  have hfst : (runtimes.map fun rt => (rt.cfg.name, rt.record cycle step done patternId)).map
      Prod.fst = runtimes.map (·.cfg.name) := by
    rw [List.map_map]
    rfl
  refine (BTreeMap.get_collect (hfst ▸ hnodup) _).trans ?_
  exact (Lib.lookup_eq_some_iff_mem (hfst ▸ hnodup)).mpr (List.mem_map.mpr ⟨rt, hrt, rfl⟩)

theorem record_eq {rt : PoolRuntime} (h : rt.cfg.advance = .resume) (cycle step done : ℕ)
    (patternId : String) :
    rt.record cycle step done patternId = { rt.toResume cycle step done with
      cycle, step, done, pattern := if 0 < step ∨ 0 < done then some patternId else none } := by
  simp only [PoolRuntime.record, PoolRuntime.toResume, h, if_true, Bool.or_eq_true,
    decide_eq_true_eq, gt_iff_lt]
  split <;> rfl

end Records

section Reopen

variable {st : Station} {block : Block} {showId : EntryId → Option String} {s : Session}

theorem Session.Of.names_eq (h : s.Of st block PoolRuntime.IsUnlimited) :
    s.state.runtimes.map (·.cfg.name) = block.pools.map (·.name) := by
  apply List.ext_getElem? fun i => ?_
  rw [List.getElem?_map, List.getElem?_map]
  cases hi : block.pools[i]? with
  | none =>
    rw [List.getElem?_eq_none_iff, ← h.length_eq, ← List.getElem?_eq_none_iff] at hi
    rw [hi]
    rfl
  | some cfg =>
    obtain ⟨rt, hrt, hunlimited⟩ := h.exists_runtime hi
    rw [hrt, Option.map_some, Option.map_some, hunlimited.cfg_eq]

/-- Each pool reads back its own record. -/
theorem Session.Of.record_get (hp : st.Resumes block showId)
    (h : s.Of st block PoolRuntime.IsUnlimited) {i : ℕ} {cfg : Pool} {rt : PoolRuntime}
    (hi : block.pools[i]? = some cfg) (hrt : s.state.runtimes[i]? = some rt)
    (cycle step done : ℕ) (patternId : String) :
    (poolsResume s.state.runtimes cycle step done patternId).get cfg.name =
      some (rt.record cycle step done patternId) := by
  have hname : rt.cfg.name = cfg.name := by rw [(h.pools i cfg rt hi hrt).cfg_eq]
  rw [← hname]
  exact poolsResume_get (h.names_eq ▸ hp.names) (List.mem_of_getElem? hrt) _ _ _ _

/-- A generation opens at the position its records name. -/
theorem first_of_records (hp : st.Resumes block showId) {state : GenerationState}
    {cycle step done : ℕ} {patternId : String}
    (h : ∀ p ∈ block.pools, ∃ r, state.resume.pool p.name = some r ∧ r.cycle = cycle ∧
      r.step = step ∧ r.done = done ∧ (0 < step ∨ 0 < done → r.pattern = some patternId)) :
    firstCycle block.pools state = cycle ∧ firstStep block.pools state patternId = step ∧
      firstDone block.pools state patternId = done := by
  have hfilter : (block.pools.filter fun p => p.advance = .resume) = block.pools :=
    List.filter_eq_self.mpr fun p hmem => by simp [hp.resume p hmem]
  have hall : (block.pools.all fun p => decide (p.advance = .resume)) = true :=
    List.all_eq_true.mpr fun p hmem => by simp [hp.resume p hmem]
  have hrecords : ∀ r ∈ resumeRecords block.pools state, r.cycle = cycle ∧ r.step = step ∧
      r.done = done ∧ (0 < step ∨ 0 < done → r.pattern = some patternId) := by
    intro r hr
    rw [resumeRecords, hfilter] at hr
    obtain ⟨p, hmem, hget⟩ := List.mem_filterMap.mp hr
    obtain ⟨r', hget', hr'⟩ := h p hmem
    obtain rfl := Option.some.inj (hget.symm.trans hget')
    exact hr'
  obtain ⟨r, hr⟩ : ∃ r, r ∈ resumeRecords block.pools state := by
    obtain ⟨pstep, hpstep⟩ := List.exists_mem_of_ne_nil _ hp.pattern_ne
    obtain ⟨_, cfg, -, hcfg, -⟩ := exists_pool hp hpstep
    have hmem := List.mem_of_getElem? hcfg
    obtain ⟨r, hget, -⟩ := h cfg hmem
    refine ⟨r, ?_⟩
    rw [resumeRecords, hfilter]
    exact List.mem_filterMap.mpr ⟨cfg, hmem, hget⟩
  obtain ⟨hrcycle, hrstep, hrdone, hrpattern⟩ := hrecords r hr
  have hcycle : firstCycle block.pools state = cycle :=
    foldl_max_of_forall
      (fun x hx => by
        obtain ⟨q, hq, rfl⟩ := List.mem_map.mp hx
        exact (hrecords q hq).1)
      (.inl (List.ne_nil_of_mem (List.mem_map_of_mem hr)))
  have hstep : firstStep block.pools state patternId = step := by
    unfold firstStep
    rw [if_pos hall]
    refine foldl_max_of_forall (fun x hx => ?_) ?_
    · obtain ⟨q, hq, rfl⟩ := List.mem_map.mp hx
      exact (hrecords q (List.mem_filter.mp hq).1).2.1
    · by_cases hzero : step = 0
      · exact .inr hzero
      · refine .inl (List.ne_nil_of_mem (List.mem_map_of_mem (List.mem_filter.mpr ⟨hr, ?_⟩)))
        simp [hcycle, hrcycle, hrpattern (.inl (Nat.pos_of_ne_zero hzero))]
  refine ⟨hcycle, hstep, ?_⟩
  unfold firstDone
  rw [if_pos hall]
  refine foldl_max_of_forall (fun x hx => ?_) ?_
  · obtain ⟨q, hq, rfl⟩ := List.mem_map.mp hx
    exact (hrecords q (List.mem_filter.mp hq).1).2.2.1
  · by_cases hzero : done = 0
    · exact .inr hzero
    · refine .inl (List.ne_nil_of_mem (List.mem_map_of_mem (List.mem_filter.mpr ⟨hr, ?_⟩)))
      simp [hcycle, hrcycle, hstep, hrstep, hrpattern (.inr (Nat.pos_of_ne_zero hzero))]

/-- Where a generation opened under `state` resumes. -/
def Station.first (st : Station) (block : Block) (state : GenerationState) : ℕ × ℕ :=
  (firstCycle block.pools state, firstStep block.pools state (st.patternId block.pattern))

theorem Station.walk_walks (st : Station) (block : Block) (state : GenerationState)
    (windowStart : ℤ) (fill : Option ℕ)
    (h : st.Unspent block (st.first block state)
      (firstDone block.pools state (st.patternId block.pattern))) :
    st.Walks block (st.walk block state windowStart fill) :=
  ⟨rfl, rfl, rfl, rfl, rfl, h⟩

theorem Station.unspent_zero (st : Station) (block : Block) (pos : ℕ × ℕ) :
    st.Unspent block pos 0 :=
  fun _ _ _ _ _ _ _ hn => Nat.pos_of_ne_zero hn

/-- A walk just opened stands where the ledger seats it. -/
theorem Session.opened_tracks (hp : st.Whole block showId) {w : Walk} (hw : st.Walks block w)
    {s : WalkState} (h : st.openWalk block w none = .ok s) :
    (Session.opened w s).Tracks st block showId w.state := by
  obtain ⟨hout, hch, hlen, hpools⟩ := openWalk_opened hp hw h
  refine ⟨⟨hw, hch, hlen, fun i cfg rt hi hrt => ?_⟩, fun i cfg rt hi hrt => ?_⟩
  · obtain ⟨_, -, hunlimited, -⟩ := hpools i cfg rt hi hrt
    exact hunlimited
  · obtain ⟨shows, hstocked, hunlimited, -, ho⟩ := hpools i cfg rt hi hrt
    refine ⟨shows, hstocked, ?_⟩
    change Tracked showId cfg shows (w.state.cursorFor cfg) s.out rt
    rw [hout]
    exact ho.tracked hunlimited

end Reopen

end EtvStation
