import EtvStation.Pattern.Agreement
import EtvStation.Pattern.Session

/-! Generations of a plain block laid end to end. A walk cut at a visit boundary is reopened
from its resume records and a ledger that holds its airings; the reopened walk draws on as the
one nobody stopped. -/
namespace EtvStation

/-- The first `n` visits of a generation that no budget stops. -/
def Station.uninterrupted (st : Station) (block : Block) (state : GenerationState)
    (windowStart : ℤ) (fill : Option ℕ) (n : ℕ) : Except String BlockBuild := do
  let w := st.walk block state windowStart fill
  let s ← st.openWalk block w none
  let (_, session) ← visits.run n (Session.opened w s)
  return session.result

/-- Nothing is left of the visit a session was resumed inside. -/
def Session.Past (s : Session) : Prop :=
  s.walk.firstDone = 0 ∨ s.walk.firstCycle < s.pos.1 ∨
    (s.walk.firstCycle = s.pos.1 ∧ s.walk.firstStep < s.pos.2)

theorem Session.Past.resumed_eq {s : Session} (h : s.Past) :
    s.walk.resumed s.pos.1 s.pos.2 = 0 := by
  unfold Walk.resumed
  split_ifs with hfirst
  · rcases h with h | h | h <;> omega
  · rfl

theorem Session.Past.next {s : Session} (h : s.Past) (block : Block) (state : WalkState) :
    Session.Past ⟨s.walk, block.next s.pos, state⟩ := by
  unfold Session.Past Block.next at *
  dsimp only
  split_ifs <;> dsimp only <;> omega

/-- A visit made is a visit past. -/
theorem Session.past_next {s : Session} (hopened : s.pos = (s.walk.firstCycle, s.walk.firstStep))
    (block : Block) (state : WalkState) : Session.Past ⟨s.walk, block.next s.pos, state⟩ := by
  unfold Session.Past Block.next
  rw [hopened]
  dsimp only
  split_ifs <;> dsimp only <;> omega

theorem Session.past_run {n : ℕ} {a b : Session} {out : List EntryId} (ha : a.Past)
    (h : visits.run n a = .ok (out, b)) : b.Past := by
  refine Lib.Machine.run_invariant (fun {a b out} ha hstep => ?_) ha h
  obtain ⟨s', -, -, rfl⟩ := visits_step_eq_ok.mp hstep
  exact ha.next _ s'

/-- A session of a plain block, every pool of it plain. -/
abbrev Session.Plain (st : Station) (block : Block) (s : Session) : Prop :=
  s.Of st block PoolRuntime.IsPlain

/-- Two sessions that stand alike, though one of them may have been reopened. -/
structure Session.Agree (st : Station) (block : Block) (a b : Session) : Prop where
  left : a.Plain st block
  right : b.Plain st block
  pos_eq : b.pos = a.pos
  opens : a.walk = b.walk ∨ a.Past ∧ b.Past
  pools : ∀ (i : ℕ) ra rb, a.state.runtimes[i]? = some ra → b.state.runtimes[i]? = some rb →
    ra.Agree rb

namespace Session.Agree

variable {st : Station} {block : Block} {showId : EntryId → Option String} {a b c : Session}

theorem refl (h : a.Plain st block) : Session.Agree st block a a :=
  ⟨h, h, rfl, .inl rfl, fun i ra rb hra hrb => by
    obtain rfl := Option.some.inj (hra.symm.trans hrb)
    exact .refl ra⟩

theorem resumed_eq (h : Session.Agree st block a b) :
    b.walk.resumed b.pos.1 b.pos.2 = a.walk.resumed a.pos.1 a.pos.2 := by
  rcases h.opens with hwalk | ⟨ha, hb⟩
  · rw [hwalk, h.pos_eq]
  · rw [ha.resumed_eq, hb.resumed_eq]

theorem past_iff (hwalk : a.walk = b.walk) (hpos : b.pos = a.pos) : a.Past ↔ b.Past := by
  unfold Session.Past
  rw [hwalk, hpos]

theorem trans (h : Session.Agree st block a b) (h' : Session.Agree st block b c) :
    Session.Agree st block a c := by
  refine ⟨h.left, h'.right, h'.pos_eq.trans h.pos_eq, ?_, fun i ra rc hra hrc => ?_⟩
  · rcases h.opens with hwalk | ⟨ha, hb⟩
    · rcases h'.opens with hwalk' | ⟨hb, hc⟩
      · exact .inl (hwalk.trans hwalk')
      · exact .inr ⟨(past_iff hwalk h.pos_eq).mpr hb, hc⟩
    · rcases h'.opens with hwalk' | ⟨-, hc⟩
      · exact .inr ⟨ha, (past_iff hwalk' h'.pos_eq).mp hb⟩
      · exact .inr ⟨ha, hc⟩
  · have hlt : i < b.state.runtimes.length := by
      rw [h.right.length_eq, ← h.left.length_eq]
      exact (List.getElem?_eq_some_iff.mp hra).1
    have hrb := List.getElem?_eq_getElem hlt
    exact (h.pools i ra _ hra hrb).trans (h'.pools i _ rc hrb hrc)

end Session.Agree

section Step

variable {st : Station} {block : Block} {showId : EntryId → Option String}

/-- An idle position leaves plain pools as they are. -/
theorem Session.Of.step_idle_plain (hp : st.Plain block showId) {s : Session}
    (h : s.Plain st block) (hidle : st.Idle block s.pos) :
    visits.step s = .ok ([], s.idle s.state.runtimes) := by
  obtain ⟨runtimes, hstep, hlen, hruntimes⟩ :=
    (h.imp fun rt cfg hrt => hrt.toIsUnlimited).step_idle hp.toResumes hidle
  have hsame : runtimes = s.state.runtimes := by
    apply List.ext_getElem? fun i => ?_
    by_cases hi : i < block.pools.length
    · have hlt : i < runtimes.length := by rw [hlen, h.length_eq]; exact hi
      have hcfg := List.getElem?_eq_getElem hi
      have hmem := List.mem_of_getElem? hcfg
      obtain ⟨rt, period, hrt, hperiod, hspan⟩ :=
        hruntimes i _ _ hcfg (List.getElem?_eq_getElem hlt)
      have hnone := (h.pools i _ rt hcfg hrt).period
      rw [List.getElem?_eq_getElem hlt, hrt, hperiod]
      have hperiod : period = rt.period := by
        rcases hspan (hp.rotate _ hmem) with h | h
        · exact h
        · rw [h, hnone]
      rw [hperiod]
    · rw [List.getElem?_eq_none (by rw [hlen, h.length_eq]; omega),
        List.getElem?_eq_none (by rw [h.length_eq]; omega)]
  rw [hstep, hsame]

/-- Sessions that stand alike make the same visit, and stand alike after it. -/
theorem Session.Agree.step (hp : st.Plain block showId) {a b a' : Session} {out : List EntryId}
    (h : Session.Agree st block a b) (hstep : visits.step a = .ok (out, a')) :
    ∃ b', visits.step b = .ok (out, b') ∧ Session.Agree st block a' b' := by
  have hnext : b.walk.block.next b.pos = a.walk.block.next a.pos := by
    rw [h.left.walks.block_eq, h.right.walks.block_eq, h.pos_eq]
  have hopens : ∀ s t : WalkState, a.walk = b.walk ∨
      Session.Past ⟨a.walk, a.walk.block.next a.pos, s⟩ ∧
        Session.Past ⟨b.walk, b.walk.block.next b.pos, t⟩ := fun s t =>
    h.opens.imp_right fun ⟨ha, hb⟩ => ⟨ha.next _ s, hb.next _ t⟩
  by_cases hidle : st.Idle block a.pos
  · rw [h.left.step_idle_plain hp hidle] at hstep
    obtain ⟨rfl, rfl⟩ := Prod.mk.inj (Except.ok.inj hstep)
    refine ⟨_, h.right.step_idle_plain hp (h.pos_eq ▸ hidle), ?_⟩
    exact ⟨⟨h.left.walks, h.left.channel, h.left.length_eq, h.left.pools⟩,
      ⟨h.right.walks, h.right.channel, h.right.length_eq, h.right.pools⟩, hnext, hopens _ _,
      h.pools⟩
  · obtain ⟨step, idx, cfg, ra, hva, hpa⟩ := h.left.exists_visit hp.toResumes hidle
    obtain ⟨rb, hrb, hpb⟩ := h.right.exists_runtime hva.cfg_eq
    have hvb : b.Visit st block step idx cfg rb :=
      ⟨h.pos_eq ▸ hva.step_eq, hva.idx_eq, hva.cfg_eq, hva.name_eq, hrb, h.pos_eq ▸ hva.drawn⟩
    obtain ⟨pa, ea, hspana, hea⟩ := hva.step_eq_ok hp.toResumes h.left.walks hpa.listKey
    obtain ⟨pb, eb, hspanb, heb⟩ := hvb.step_eq_ok hp.toResumes h.right.walks hpb.listKey
    have hspan := hp.rotate cfg (List.mem_of_getElem? hva.cfg_eq)
    obtain rfl := hspana hspan
    obtain rfl := hspanb hspan
    obtain ⟨ra', ch, hvisit, rfl⟩ := (hea _ _).mp hstep
    rw [hp.fromStart step (List.mem_of_getElem? hva.step_eq)] at hvisit heb
    have hwa := hva.wants h.left.walks hpa.overrides none ea
    have hwb := hvb.wants h.right.walks hpb.overrides none eb
    have hpa := hpa.entered ea
    have hpb := hpb.entered eb
    have hagree : (ra.entered none ea).Agree (rb.entered none eb) := by
      have := h.pools idx ra rb hva.runtime_eq hrb
      exact ⟨this.cfg_eq, this.core_eq, this.lap_eq, this.turn_eq⟩
    obtain ⟨rfl, rb', hvisit', hagree'⟩ := PoolRuntime.visit_agree hpa.free hpb.free
      h.left.channel h.right.channel hagree hpa.inRange hpb.inRange hwa hvisit
    rw [← h.resumed_eq, ← h.pos_eq] at hvisit'
    have hvisa := PoolRuntime.visit_visited st.cat hpa.inRange hwa hvisit
    have hvisb := PoolRuntime.visit_visited st.cat hpb.inRange hwb hvisit'
    refine ⟨_, (heb _ _).mpr ⟨rb', _, hvisit', rfl⟩,
      h.left.visited hva.cfg_eq (hpa.of_visited hvisa) h.left.channel _ _,
      h.right.visited hva.cfg_eq (hpb.of_visited hvisb) h.right.channel _ _, hnext,
      hopens _ _, fun i r r' hr hr' => ?_⟩
    rw [Session.visited_runtimes, List.getElem?_set] at hr hr'
    split_ifs at hr hr' with hi hlta hltb
    · obtain rfl := Option.some.inj hr
      obtain rfl := Option.some.inj hr'
      exact hagree'
    · exact h.pools i r r' hr hr'

theorem visits_simulates (hp : st.Plain block showId) :
    visits.Simulates (Session.Agree st block) :=
  ⟨fun h hstep => h.step hp hstep⟩

end Step

/-- What the sidecar and the ledger hold once a generation opened under `state` has aired: the
records it stopped with, and its items filed after everything before them. -/
structure GenerationState.Follows (showId : EntryId → Option String) (block : Block)
    (state : GenerationState) (b : BlockBuild) (state' : GenerationState) : Prop where
  records : ∀ p ∈ block.pools, state'.resume.pool p.name = b.resume.get p.name
  ledger : ∀ p ∈ block.pools, state'.cursorFor p =
    ledgerAfter (filedUnder showId p.cursorScope) (state.cursorFor p) b.ids

/-- The generations after `b`, each opened on what the one before it left. -/
inductive Station.Continues (st : Station) (block : Block) (showId : EntryId → Option String) :
    GenerationState → BlockBuild → List BlockBuild → Prop
  | nil (state : GenerationState) (b : BlockBuild) : Station.Continues st block showId state b []
  | cons {state state' : GenerationState} {b b' : BlockBuild} {rest : List BlockBuild}
      {windowStart : ℤ} {fill : Option ℕ} (hfollows : state.Follows showId block b state')
      (hbuild : st.build block state' windowStart fill none = .ok b')
      (hrest : Station.Continues st block showId state' b' rest) :
      Station.Continues st block showId state b (b' :: rest)

section Reload

variable {st : Station} {block : Block} {showId : EntryId → Option String} {s : Session}

/-- A generation opens at the position the one before it stopped at, inside no visit. -/
theorem first_follows (hp : st.Resumes block showId)
    (h : s.Of st block PoolRuntime.IsUnlimited) {state state' : GenerationState}
    (hf : state.Follows showId block s.result state') :
    firstCycle block.pools state' = s.pos.1 ∧
      firstStep block.pools state' (st.patternId block.pattern) = s.pos.2 ∧
      firstDone block.pools state' (st.patternId block.pattern) = 0 := by
  refine first_of_records hp fun p hmem => ?_
  obtain ⟨i, hi⟩ := List.mem_iff_getElem?.mp hmem
  obtain ⟨rt, hrt, hunlimited⟩ := h.exists_runtime hi
  have hadvance : rt.cfg.advance = .resume := by rw [hunlimited.cfg_eq, hp.resume p hmem]
  refine ⟨rt.record s.pos.1 s.pos.2 0 (st.patternId block.pattern), ?_, ?_⟩
  · rw [hf.records p hmem, ← h.walks.patternId_eq]
    exact h.record_get hp hi hrt _ _ _ _
  · rw [record_eq hadvance]
    exact ⟨rfl, rfl, rfl, fun hpos => if_pos hpos⟩

/-- The walk a generation reopens stands where the walk before it stopped. -/
theorem reopened_agree (hp : st.Plain block showId) {state state' : GenerationState}
    (ht : s.Tracks st block showId state) (hs : s.Plain st block) (hpast : s.Past)
    (hf : state.Follows showId block s.result state') {windowStart : ℤ} {fill : Option ℕ}
    {s' : WalkState}
    (hopen : st.openWalk block (st.walk block state' windowStart fill) none = .ok s') :
    Session.Agree st block (Session.opened (st.walk block state' windowStart fill) s') s := by
  obtain ⟨hcycle, hstep, hdone⟩ := first_follows hp.toResumes ht.unlimited hf
  have hw : st.Walks block (st.walk block state' windowStart fill) :=
    st.walk_walks block state' windowStart fill (hdone ▸ st.unspent_zero block _)
  obtain ⟨-, hch, hlen, hpools⟩ := openWalk_opened hp.whole hw hopen
  refine ⟨⟨hw, hch, hlen, fun i cfg rt hi hrt => ?_⟩, hs, Prod.ext hcycle.symm hstep.symm,
    .inr ⟨.inl hdone, hpast⟩, fun i rt' rt hrt' hrt => ?_⟩
  · obtain ⟨_, -, -, hplain, -⟩ := hpools i cfg rt hi hrt
    exact hplain (hp.rotate cfg (List.mem_of_getElem? hi))
  · have hlt : i < block.pools.length := by
      rw [← ht.unlimited.length_eq]
      exact (List.getElem?_eq_some_iff.mp hrt).1
    have hi := List.getElem?_eq_getElem hlt
    set cfg := block.pools[i] with hcfg
    have hmem := List.mem_of_getElem? hi
    obtain ⟨shows, hstocked, htracked⟩ := ht.tracked i cfg rt hi hrt
    obtain ⟨ids, -, hshows⟩ := hstocked.exists_shows hp.whole hmem
    obtain ⟨shows', hstocked', hunlimited', -, ho⟩ := hpools i cfg rt' hi hrt'
    obtain rfl := hstocked.unique hstocked'
    have hrecord : state'.resume.pool cfg.name =
        some (rt.record s.pos.1 s.pos.2 0 s.walk.patternId) := by
      rw [hf.records cfg hmem]
      exact ht.unlimited.record_get hp.toResumes hi hrt _ _ _ _
    have hadvance : rt.cfg.advance = .resume := by
      rw [htracked.unlimited.cfg_eq, hp.resume cfg hmem]
    change OpenedOn rt' shows (state'.cursorFor cfg) (state'.resume.pool cfg.name) at ho
    rw [hrecord, hf.ledger cfg hmem, record_eq hadvance] at ho
    exact OpenedOn.agree hshows htracked (hp.resume cfg hmem) hunlimited'.cfg_eq ho
      s.pos.1 s.pos.2 0 rfl rfl

end Reload

section Chain

variable {st : Station} {block : Block} {showId : EntryId → Option String}

/-- The state a generation opens in is inside no visit, or inside one with something left that
the generation went on to make. -/
def Station.OpensClear (st : Station) (block : Block) (state : GenerationState) (b : BlockBuild) :
    Prop :=
  firstDone block.pools state (st.patternId block.pattern) = 0 ∨
    st.Unspent block (st.first block state)
      (firstDone block.pools state (st.patternId block.pattern)) ∧ b.ids ≠ []

/-- A generation is a session: so many visits from where it opened, every pool tracked, and
past whatever visit it was resumed inside. -/
theorem build_session (hp : st.Plain block showId) {state : GenerationState} {windowStart : ℤ}
    {fill : Option ℕ} {b : BlockBuild} (h : st.build block state windowStart fill none = .ok b)
    (hclear : st.OpensClear block state b) :
    ∃ s₀ n s, st.openWalk block (st.walk block state windowStart fill) none = .ok s₀ ∧
      visits.run n (Session.opened (st.walk block state windowStart fill) s₀) = .ok (b.ids, s) ∧
      s.Tracks st block showId state ∧ s.Plain st block ∧ s.Past ∧ b = s.result := by
  obtain ⟨s₀, hopen, h⟩ := Lib.bind_eq_ok.mp h
  obtain ⟨cycles, -, h⟩ := Lib.bind_eq_ok.mp h
  obtain ⟨⟨s, stop⟩, hrun, h⟩ := Lib.bind_eq_ok.mp h
  obtain rfl := Except.ok.inj h
  obtain ⟨n, out, hvisits⟩ := Walk.run_eq_visits_opened hp.pattern_ne hrun
  have hunspent : st.Unspent block (st.first block state)
      (firstDone block.pools state (st.patternId block.pattern)) := by
    rcases hclear with hzero | ⟨hunspent, -⟩
    · rw [hzero]
      exact st.unspent_zero block _
    · exact hunspent
  have hw := st.walk_walks block state windowStart fill hunspent
  have hopened := Session.opened_tracks hp.whole hw hopen
  have htracks : Session.Tracks st block showId state _ :=
    Lib.Machine.run_invariant (fun h hstep => h.step hp.whole hstep) hopened hvisits
  obtain ⟨hout, hch, hlen, hpools⟩ := openWalk_opened hp.whole hw hopen
  have hplain : (Session.opened (st.walk block state windowStart fill) s₀).Plain st block :=
    ⟨hw, hch, hlen, fun i cfg rt hi hrt => by
      obtain ⟨_, -, -, hplain, -⟩ := hpools i cfg rt hi hrt
      exact hplain (hp.rotate cfg (List.mem_of_getElem? hi))⟩
  obtain ⟨_, hvisits', hagree⟩ := (visits_simulates hp).run (.refl hplain) hvisits
  obtain ⟨-, rfl⟩ := Prod.mk.inj (Except.ok.inj (hvisits.symm.trans hvisits'))
  have hids : s.out = out := by
    have := visits_run_out hvisits
    simpa [Session.opened, hout] using this
  refine ⟨s₀, n, _, hopen, ?_, htracks, hagree.left, ?_, rfl⟩
  · change visits.run n _ = .ok (s.out, _)
    rw [hids]
    exact hvisits
  · rcases hclear with hzero | ⟨-, hne⟩
    · exact .inl hzero
    · cases n with
      | zero =>
        simp only [Lib.Machine.run, Except.ok.injEq, Prod.mk.injEq] at hvisits
        exact absurd (hids.trans hvisits.1.symm) hne
      | succ n =>
        obtain ⟨o, s₁, rest, hstep, hrest, -⟩ := visits.run_succ_eq_ok.mp hvisits
        obtain ⟨s', -, -, rfl⟩ := visits_step_eq_ok.mp hstep
        exact Session.past_run (Session.past_next rfl _ s') hrest

/-- Pools that agree leave the same record. -/
theorem PoolRuntime.IsPlain.toResume_eq {a b : PoolRuntime} {cfg : Pool} (ha : a.IsPlain cfg)
    (hb : b.IsPlain cfg) (h : a.Agree b) (cycle step done : ℕ) :
    b.toResume cycle step done = a.toResume cycle step done := by
  have hnext : (b.toResume cycle step done).next = (a.toResume cycle step done).next := by
    simp only [PoolRuntime.toResume]
    rw [h.cfg_eq]
    cases hsel : a.cfg.select with
    | random => rfl
    | roundRobin =>
      simp only [h.turn_eq hsel]
      exact congrArg (fun f => (a.seriesAt a.rotation).map f) (funext h.key_eq)
  simp only [PoolRuntime.toResume, PoolResume.mk.injEq] at hnext ⊢
  refine ⟨hnext, ?_, ?_, ?_, trivial, ?_, ?_, ?_, ?_⟩
  all_goals simp only [h.cfg_eq, h.lap_eq, ha.listKey, hb.listKey, ha.hold, hb.hold,
    Option.isSome_none, Bool.false_eq_true, and_false, if_false]

theorem Session.Agree.resume_eq {a b : Session} (h : Session.Agree st block a b) :
    b.result.resume = a.result.resume := by
  simp only [Session.result, Walk.result, h.pos_eq, h.left.walks.patternId_eq,
    h.right.walks.patternId_eq, poolsResume]
  congr 1
  apply List.ext_getElem? fun i => ?_
  rw [List.getElem?_map, List.getElem?_map]
  cases hi : block.pools[i]? with
  | none =>
    have hnone : ∀ {s : Session}, s.Plain st block → s.state.runtimes[i]? = none := fun hs => by
      rw [List.getElem?_eq_none_iff, hs.length_eq, ← List.getElem?_eq_none_iff]
      exact hi
    rw [hnone h.left, hnone h.right]
  | some cfg =>
    obtain ⟨ra, hra, hpa⟩ := h.left.exists_runtime hi
    obtain ⟨rb, hrb, hpb⟩ := h.right.exists_runtime hi
    rw [hra, hrb, Option.map_some, Option.map_some, PoolRuntime.record,
      hpa.toResume_eq hpb (h.pools i ra rb hra hrb), hpb.cfg_eq, PoolRuntime.record, hpa.cfg_eq]

/-- The generations that follow a session are sessions that follow it. -/
theorem sessions_of_continues (hp : st.Plain block showId) {state : GenerationState}
    {b : BlockBuild} {rest : List BlockBuild}
    (h : Station.Continues st block showId state b rest) {s : Session}
    (ht : s.Tracks st block showId state) (hs : s.Plain st block) (hpast : s.Past)
    (hb : b = s.result) :
    ∃ c, visits.Sessions (Session.Agree st block) s (rest.flatMap (·.ids)) c ∧
      (rest.getLastD b).resume = c.result.resume := by
  induction h generalizing s with
  | nil state b => exact ⟨s, .nil s, by rw [hb]; rfl⟩
  | @cons state state' b b' rest windowStart fill hfollows hbuild _ ih =>
    subst hb
    obtain ⟨-, -, hdone⟩ := first_follows hp.toResumes ht.unlimited hfollows
    obtain ⟨s₀, n, s', hopen, hrun, ht', hs', hpast', hb'⟩ := build_session hp hbuild (.inl hdone)
    obtain ⟨c, hsessions, hlast⟩ := ih ht' hs' hpast' hb'
    refine ⟨c, ?_, ?_⟩
    · rw [List.flatMap_cons]
      exact .cons (reopened_agree hp ht hs hpast hfollows hopen) hrun hsessions
    · rw [List.getLastD_cons]
      exact hlast

/-- Generations laid end to end, each cut at whatever visit its budget ran out on and reopened
from its records and the ledger, are one walk that nobody stopped: the same ids in the same
order, and the same state to resume from. -/
theorem generations_seamless (hp : st.Plain block showId) {state : GenerationState}
    {windowStart : ℤ} {fill : Option ℕ} {b : BlockBuild} {rest : List BlockBuild}
    (hbuild : st.build block state windowStart fill none = .ok b)
    (hclear : st.OpensClear block state b)
    (hrest : Station.Continues st block showId state b rest) :
    ∃ n m long, st.uninterrupted block state windowStart fill n = .ok b ∧
      st.uninterrupted block state windowStart fill (n + m) = .ok long ∧
      long.ids = (b :: rest).flatMap (·.ids) ∧ long.resume = (rest.getLastD b).resume := by
  obtain ⟨s₀, n, s, hopen, hrun, ht, hs, hpast, hb⟩ := build_session hp hbuild hclear
  obtain ⟨c, hsessions, hlast⟩ := sessions_of_continues hp hrest ht hs hpast hb
  obtain ⟨m, c', hrun', hagree⟩ := hsessions.exists_run (visits_simulates hp)
    (fun h => .refl h.left) .trans (.refl hs)
  have hlong := visits.run_add hrun hrun'
  refine ⟨n, m, c'.result, ?_, ?_, ?_, ?_⟩
  · rw [hb]
    exact Lib.bind_eq_ok.mpr ⟨s₀, hopen, Lib.bind_eq_ok.mpr ⟨_, hrun, rfl⟩⟩
  · exact Lib.bind_eq_ok.mpr ⟨s₀, hopen, Lib.bind_eq_ok.mpr ⟨_, hlong, rfl⟩⟩
  · have hout := visits_run_out hrun'
    change c'.state.out = _
    rw [hout, List.flatMap_cons, hb]
    rfl
  · rw [hagree.resume_eq, hlast]

end Chain

def twoPoolShow (id : EntryId) : Option String :=
  if id ∈ ["a1", "a2", "a3"] then some "A" else if id ∈ ["b1", "b2"] then some "B" else none

/-- Two shows in one pool and two films in another, every item a millisecond long. -/
def twoPoolStation : Station where
  cat := {
    resolveQuery := fun expr =>
      .ok (if expr = "series" then ["a1", "b1", "a2", "b2", "a3"] else ["f", "g"])
    showIdsFor := fun _ => .ok twoPoolShow
    durationsFor := fun ids => .ok (HashMap.ofList (ids.map fun id => (id, 1))) }
  variety := { dice := fun _ _ => { seed := 7 } }

def twoPoolBlock : Block where
  pools := [{ name := "p", expr := some "series", advance := .resume },
    { name := "q", expr := some "films", advance := .resume, rotate := .slot }]
  pattern := [{ pool := "p", take := .range 1 2 }, { pool := "q", take := .count 1, chance := 1 / 2 }]

theorem twoPool_lists {p : Pool} (hp : p ∈ twoPoolBlock.pools) {ids : List EntryId}
    (h : twoPoolStation.Lists twoPoolBlock p ids) :
    (p.name = "p" ∧ ids = ["a1", "b1", "a2", "b2", "a3"]) ∨ (p.name = "q" ∧ ids = ["f", "g"]) := by
  obtain ⟨t, h⟩ := h
  rcases List.mem_pair.mp hp with rfl | rfl
  · exact .inl ⟨rfl, (Option.some.inj (Except.ok.inj h)).symm⟩
  · exact .inr ⟨rfl, (Option.some.inj (Except.ok.inj h)).symm⟩

theorem twoPool_plain : twoPoolStation.Plain twoPoolBlock twoPoolShow where
  pattern_ne := by decide
  known := by decide
  names := by decide
  fromStart := by decide
  expr := by decide
  resume := by decide
  byShow := by decide
  rotate := by decide
  unlimited := by decide
  pinned := fun _ _ _ _ => rfl
  still := fun _ _ _ => rfl
  listed := fun p hp ids h => by
    rcases twoPool_lists hp h with ⟨-, rfl⟩ | ⟨-, rfl⟩ <;> decide
  columns := fun ids col h id _ => congrFun (Except.ok.inj h).symm id
  showNames := fun p hp ids h => by
    rcases twoPool_lists hp h with ⟨-, rfl⟩ | ⟨-, rfl⟩ <;> decide
  disjoint := fun p hp q hq hne ids ids' h h' => by
    rcases twoPool_lists hp h with ⟨hname, rfl⟩ | ⟨hname, rfl⟩ <;>
      rcases twoPool_lists hq h' with ⟨hname', rfl⟩ | ⟨hname', rfl⟩
    · exact absurd (hname.trans hname'.symm) hne
    · decide
    · decide
    · exact absurd (hname.trans hname'.symm) hne

/-- The state the first three items leave, with their ledger rows. -/
def twoPoolState : GenerationState where
  resume := { pools := [
    ("p", { next := some "A", cycle := 1, step := 1, pattern := some "" }),
    ("q", { next := some "g", cycle := 1, step := 1, pattern := some "", lap := {"f"} })] }
  cursor := [("B", "b1"), ("f", "f"), ("A", "a1")]

theorem exists_build {e : Except String BlockBuild} {P : BlockBuild → Prop} [DecidablePred P]
    (h : (match e with | .ok b => decide (P b) | .error _ => false) = true) :
    ∃ b, e = .ok b ∧ P b := by
  cases e with
  | error e => simp at h
  | ok b => exact ⟨b, rfl, of_decide_eq_true h⟩

theorem generations_seamless_twoPools : ∃ n m long,
    twoPoolStation.uninterrupted twoPoolBlock {} 0 (some 3000000) (n + m) = .ok long ∧
      long.ids = ["a1", "f", "b1"] ++ ["a2", "a3", "b2", "b1"] := by
  obtain ⟨b, hb, hids, hresume⟩ := exists_build
    (e := twoPoolStation.build twoPoolBlock {} 0 (some 3000000) none)
    (P := fun b => b.ids = ["a1", "f", "b1"] ∧ b.resume = twoPoolState.resume.pools)
    (by decide +kernel)
  obtain ⟨b', hb', hids', -⟩ := exists_build
    (e := twoPoolStation.build twoPoolBlock twoPoolState 0 (some 3000000) none)
    (P := fun b => b.ids = ["a2", "a3", "b2", "b1"] ∧ True)
    (by decide +kernel)
  have hledger : ∀ p ∈ twoPoolBlock.pools, twoPoolState.cursorFor p =
      ledgerAfter (filedUnder twoPoolShow p.cursorScope) (GenerationState.cursorFor {} p)
        b.ids := by
    intro p hp
    funext key
    rw [hids, ledgerAfter_eq_lookup]
    rcases List.mem_pair.mp hp with rfl | rfl <;> exact (Option.or_none ..).symm
  have hfollows : GenerationState.Follows twoPoolShow twoPoolBlock {} b twoPoolState :=
    ⟨fun p _ => congrArg (·.get p.name) hresume.symm, hledger⟩
  obtain ⟨n, m, long, -, hlong, hlids, -⟩ := generations_seamless twoPool_plain hb
    (.inl (by decide)) (.cons hfollows hb' (.nil _ _))
  exact ⟨n, m, long, hlong, by rw [hlids]; simp [hids, hids']⟩

end EtvStation
