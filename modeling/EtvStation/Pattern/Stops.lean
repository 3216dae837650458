import EtvStation.Pattern.Draws
import EtvStation.Pattern.Walk
import Mathlib.Data.Prod.Lex

/-! Where the states a walk records stand: each names its block's pools and the position of the
visit it would resume at, and the walk stops after all of them. -/
namespace EtvStation

namespace PoolRuntime

section Config

theorem serveLoop_cfg (cat : Catalog) (take passes : ℕ) (current : Option ℕ) (s : Serving) :
    (serveLoop cat take passes current s).rt.cfg = s.rt.cfg := by
  induction passes generalizing current s with
  | zero => rfl
  | succ passes ih =>
    cases current with
    | none => rfl
    | some si =>
      have htook : ∀ rt : PoolRuntime, (rt.remember (s.rt.takeFrom si
          (take - s.out.length)).1).cfg = rt.cfg := fun rt => by
        obtain ⟨_, _, _, _, _, _, _, _, h, _⟩ := rt.remember_moved
          (s.rt.takeFrom si (take - s.out.length)).1
        rw [h]
      simp only [serveLoop]
      split_ifs
      · rfl
      · exact htook _
      · rw [ih, (shortTurn_chose _ _ _).cfg_eq]
        exact htook _

theorem Moved.cfg_eq {a b : PoolRuntime} (h : a.Moved b) : b.cfg = a.cfg := by
  obtain ⟨_, _, _, _, _, _, _, _, rfl, _⟩ := h
  rfl

theorem serveDraws_cfg (cat : Catalog) (rt : PoolRuntime) (from_ : TakeFrom) (first : Option ℕ)
    (take : ℕ) (roll : RollKey) (nonce : UInt64) (ch : ChannelHistory) :
    (rt.serveDraws cat from_ first take roll nonce ch).2.1.cfg = rt.cfg := by
  unfold serveDraws
  rw [(Serving.finish_moved _ _ _ _).cfg_eq, serveLoop_cfg]
  cases first with
  | none => rfl
  | some si => exact (placeCursor_moved _ _ _ _ _ _).cfg_eq

theorem serve_cfg (cat : Catalog) {rt rt' : PoolRuntime} {want : Draw} {from_ : TakeFrom}
    {roll : RollKey} {nonce : UInt64} {done : ℕ} {ch ch' : ChannelHistory} {out : List EntryId}
    (h : rt.serve cat want from_ roll nonce done ch = .ok (out, rt', ch')) : rt'.cfg = rt.cfg := by
  have hchose := (rt.firstSeries_chose roll nonce ch).cfg_eq
  simp only [serve] at h
  generalize rt.firstSeries roll nonce ch = f at h hchose
  obtain ⟨first, rt₁, ch₁⟩ := f
  rw [← hchose]
  split at h
  · obtain ⟨-, rfl, -⟩ := by simpa only [Except.ok.injEq, Prod.mk.injEq] using h
    rfl
  · next take _ =>
    have hserved := serveDraws_cfg cat rt₁ from_ first take roll nonce ch₁
    split at h
    · split_ifs at h
      rw [Except.ok.inj h] at hserved
      exact hserved
    · rw [Except.ok.inj h] at hserved
      exact hserved

theorem serveSlots_cfg (cat : Catalog) {from_ : TakeFrom} {roll : RollKey} (left slot : ℕ)
    {rt rt' : PoolRuntime} {ch ch' : ChannelHistory} {out out' : List EntryId}
    (h : serveSlots cat from_ roll left slot out rt ch = .ok (out', rt', ch')) :
    rt'.cfg = rt.cfg := by
  induction left generalizing slot rt ch out with
  | zero =>
    obtain ⟨-, rfl, -⟩ := by simpa only [serveSlots, Except.ok.injEq, Prod.mk.injEq] using h
    rfl
  | succ left ih =>
    simp only [serveSlots] at h
    split_ifs at h
    · obtain ⟨-, rfl, -⟩ := by simpa only [Except.ok.injEq, Prod.mk.injEq] using h
      rfl
    · obtain ⟨⟨ids, rt₁, ch₁⟩, hserve, h⟩ := Lib.bind_eq_ok.mp h
      exact (ih (slot + 1) h).trans (serve_cfg cat hserve)

theorem visit_cfg (cat : Catalog) {rt rt' : PoolRuntime} {take : Take} {from_ : TakeFrom}
    {roll : RollKey} {done : ℕ} {ch ch' : ChannelHistory} {out : List EntryId}
    (h : rt.visit cat take from_ roll done ch = .ok (out, rt', ch')) : rt'.cfg = rt.cfg := by
  simp only [visit] at h
  split at h
  · obtain ⟨-, rfl, -⟩ := by simpa only [Except.ok.injEq, Prod.mk.injEq] using h
    rfl
  · split at h
    · split at h
      · cases h
      · obtain ⟨⟨ids, rt₁, ch₁⟩, hslots, h⟩ := Lib.bind_eq_ok.mp h
        obtain ⟨-, rfl, -⟩ := by
          simpa only [pure, Except.pure, Except.ok.injEq, Prod.mk.injEq] using h
        have hcfg := serveSlots_cfg cat _ _ hslots
        exact hcfg
    · have hcfg := serve_cfg cat h
      exact hcfg
    · have hcfg := serve_cfg cat h
      exact hcfg

end Config

end PoolRuntime

theorem PoolRuntime.resumeFrom_cfg (rt : PoolRuntime) (cursor : String → Option EntryId)
    (prev : Option PoolResume) : (rt.resumeFrom cursor prev).cfg = rt.cfg := by
  unfold PoolRuntime.resumeFrom
  split
  · rfl
  · cases prev with
    | none => rfl
    | some p =>
      dsimp only
      split_ifs
      · rfl
      · unfold PoolRuntime.continueFrom
        dsimp only
        split <;> split_ifs <;> rfl

theorem poolRuntime_cfg {cat : Catalog} {v : Variety} {cfg : Pool} {ids : List EntryId}
    {block : Option Constraints} {state : GenerationState} {prev : Option PoolResume} {dice : Dice}
    {want : Bool} {extras : HashMap (String × EntryId) (Option ℕ)} {rt : PoolRuntime}
    (h : poolRuntime cat v cfg ids block state prev dice want extras = .ok rt) : rt.cfg = cfg := by
  unfold poolRuntime at h
  obtain ⟨resolved, -, h⟩ := Lib.bind_eq_ok.mp h
  obtain ⟨titles, -, h⟩ := Lib.bind_eq_ok.mp h
  have hopened : ∀ {r : PoolRuntime} {seam : List EntryId}, r.cfg = cfg →
      (r.remember seam).resumeFrom (state.cursorFor cfg) prev = rt → rt.cfg = cfg := by
    rintro r seam hr rfl
    rw [PoolRuntime.resumeFrom_cfg, (PoolRuntime.remember_moved _ _).cfg_eq, hr]
  dsimp only at h
  split_ifs at h
  · exact hopened rfl (Except.ok.inj h)
  · exact hopened rfl (Except.ok.inj h)

namespace Walk

variable {w : Walk}

theorem rolled_cfg {cfg : Pool} {rt rt' : PoolRuntime} {dice : Dice} {src src' : SourceState}
    {aired : List EntryId} (hcfg : rt.cfg = cfg)
    (h : w.rolled cfg rt dice src aired = .ok (rt', src')) : rt'.cfg = cfg := by
  unfold rolled at h
  split_ifs at h
  · obtain ⟨rfl, -⟩ := Prod.mk.inj (Except.ok.inj h)
    exact hcfg
  · obtain ⟨⟨lists, src₁⟩, -, h⟩ := Lib.bind_eq_ok.mp h
    obtain ⟨fresh, hfresh, h⟩ := Lib.bind_eq_ok.mp h
    obtain ⟨rfl, -⟩ := Prod.mk.inj (Except.ok.inj h)
    have hcfg := poolRuntime_cfg hfresh
    exact hcfg

theorem extendWith_cfg (rt : PoolRuntime) (series : List Series) (keys : PoolKeys)
    (runtimes : HashMap EntryId ℕ) : (rt.extendWith series keys runtimes).2.cfg = rt.cfg := by
  unfold PoolRuntime.extendWith
  dsimp only
  split_ifs <;> rfl

theorem refillPool_cfg {cfg : Pool} {rt rt' : PoolRuntime} {dice : Dice} {src src' : SourceState}
    {added : ℕ} (h : w.refillPool cfg rt dice src = .ok (added, rt', src')) :
    rt'.cfg = rt.cfg := by
  unfold refillPool at h
  split_ifs at h
  · obtain ⟨-, hrt⟩ := Prod.mk.inj (Except.ok.inj h)
    obtain ⟨rfl, -⟩ := Prod.mk.inj hrt
    rfl
  · obtain ⟨picked, -, h⟩ := Lib.bind_eq_ok.mp h
    dsimp only at h
    split_ifs at h
    · obtain ⟨-, hrt⟩ := Prod.mk.inj (Except.ok.inj h)
      obtain ⟨rfl, -⟩ := Prod.mk.inj hrt
      rfl
    · obtain ⟨r, -, h⟩ := Lib.bind_eq_ok.mp h
      obtain ⟨-, hrt⟩ := Prod.mk.inj (Except.ok.inj h)
      obtain ⟨rfl, -⟩ := Prod.mk.inj hrt
      exact extendWith_cfg _ _ _ _

theorem replenished_cfg {cfg : Pool} {rt rt' : PoolRuntime} {dice : Dice}
    {src src' : SourceState} (h : w.replenished cfg rt dice src = .ok (rt', src')) :
    rt'.cfg = rt.cfg := by
  unfold replenished at h
  split_ifs at h
  · obtain ⟨⟨added, rt₁, src₁⟩, hrefill, h⟩ := Lib.bind_eq_ok.mp h
    obtain ⟨rfl, -⟩ := Prod.mk.inj (Except.ok.inj h)
    rw [← refillPool_cfg hrefill]
    split_ifs <;> rfl
  · obtain ⟨rfl, -⟩ := Prod.mk.inj (Except.ok.inj h)
    rfl

/-- The state of each pool of the block, as of the visit at `at_`. -/
structure StopAt (w : Walk) (at_ : ℕ × ℕ) (p : BTreeMap String PoolResume) : Prop where
  keys : (p.map Prod.fst).Perm (w.block.pools.map (·.name))
  at_eq : ∀ e ∈ p, ∃ cfg ∈ w.block.pools, cfg.name = e.1 ∧
    (cfg.advance = .resume → e.2.cycle = at_.1 ∧ e.2.step = at_.2)

/-- The runtimes are those of the block's pools. -/
def Serves (w : Walk) (runtimes : List PoolRuntime) : Prop :=
  runtimes.map (·.cfg) = w.block.pools

theorem record_at {rt : PoolRuntime} (h : rt.cfg.advance = .resume) (cycle step done : ℕ)
    (patternId : String) : (rt.record cycle step done patternId).cycle = cycle ∧
      (rt.record cycle step done patternId).step = step := by
  unfold PoolRuntime.record
  dsimp only
  split <;> exact ⟨if_pos h, if_pos h⟩

theorem poolsResume_stopAt {runtimes : List PoolRuntime} (h : w.Serves runtimes)
    (cycle step done : ℕ) :
    w.StopAt (cycle, step) (poolsResume runtimes cycle step done w.patternId) where
  keys := by
    have hperm : (poolsResume runtimes cycle step done w.patternId).Perm
        (runtimes.map fun rt => (rt.cfg.name, rt.record cycle step done w.patternId)) :=
      List.perm_insertionSort _ _
    refine (hperm.map Prod.fst).trans ?_
    rw [List.map_map, ← h, List.map_map]
    exact .refl _
  at_eq e he := by
    have hmem := (List.perm_insertionSort _ _).mem_iff.mp he
    obtain ⟨rt, hrt, rfl⟩ := List.mem_map.mp hmem
    refine ⟨rt.cfg, ?_, rfl, fun hadvance => record_at hadvance _ _ _ _⟩
    rw [← h]
    exact List.mem_map_of_mem hrt

theorem StopAt.mapValues {at_ : ℕ × ℕ} {p : BTreeMap String PoolResume}
    {f : PoolResume → PoolResume} (hf : ∀ r, (f r).cycle = r.cycle ∧ (f r).step = r.step)
    (h : w.StopAt at_ p) : w.StopAt at_ (p.mapValues f) where
  keys := by
    unfold BTreeMap.mapValues
    rw [List.map_map]
    exact h.keys
  at_eq e he := by
    obtain ⟨⟨name, r⟩, hmem, rfl⟩ := List.mem_map.mp he
    obtain ⟨cfg, hcfg, hname, hat⟩ := h.at_eq _ hmem
    refine ⟨cfg, hcfg, hname, fun hadvance => ?_⟩
    rw [(hf r).1, (hf r).2]
    exact hat hadvance

/-- The position the items of a visit would be resumed at. -/
def entersAt (w : Walk) (pos : ℕ × ℕ) : ℕ × ℕ :=
  if w.stopAtVisit || pos.2 == 0 then pos else (pos.1 + 1, 0)

theorem entering_stopAt {runtimes : List PoolRuntime} (h : w.Serves runtimes) (cycle step : ℕ) :
    w.StopAt (w.entersAt (cycle, step)) (w.entering cycle step runtimes) := by
  have hstop := poolsResume_stopAt h (w.entersAt (cycle, step)).1 (w.entersAt (cycle, step)).2
    (w.resumed cycle step)
  unfold entering entersAt at *
  exact hstop

theorem itemProgress_stopAt {at_ : ℕ × ℕ} {before : BTreeMap String PoolResume}
    (h : w.StopAt at_ before) (resumable : Bool) (resumed drawn : ℕ) :
    ∀ p ∈ w.itemProgress before resumable resumed drawn, w.StopAt at_ p := by
  intro p hp
  obtain ⟨n, -, rfl⟩ := List.mem_map.mp hp
  split_ifs
  · exact h.mapValues fun _ => ⟨rfl, rfl⟩
  · exact h

theorem Serves.set {runtimes : List PoolRuntime} (h : w.Serves runtimes) {idx : ℕ} {cfg : Pool}
    (hcfg : w.block.pools[idx]? = some cfg) {rt : PoolRuntime} (hrt : rt.cfg = cfg) :
    w.Serves (runtimes.set idx rt) := by
  unfold Serves at h ⊢
  rw [List.map_set, h, hrt]
  obtain ⟨hlt, rfl⟩ := List.getElem?_eq_some_iff.mp hcfg
  exact List.set_getElem_self hlt

/-- `s'` is `s` after more visits, and each state recorded by them stands where `Q` says. -/
structure Recorded (w : Walk) (s s' : WalkState) (Q : ℕ × ℕ → Prop) : Prop where
  serves : w.Serves s'.runtimes
  drew : ∃ out entries, s'.out = s.out ++ out ∧ s'.progress = s.progress ++ entries ∧
    entries.length = out.length ∧ ∀ p ∈ entries, ∃ at_, Q at_ ∧ w.StopAt at_ p

theorem Recorded.idle {s s' : WalkState} {Q : ℕ × ℕ → Prop} (h : w.Serves s'.runtimes)
    (hout : s'.out = s.out) (hprogress : s'.progress = s.progress) : w.Recorded s s' Q :=
  ⟨h, [], [], by simp [hout], by simp [hprogress], rfl, by simp⟩

theorem Recorded.trans {s s' s'' : WalkState} {Q Q' Q'' : ℕ × ℕ → Prop} (h : w.Recorded s s' Q)
    (h' : w.Recorded s' s'' Q') (hq : ∀ p, Q p → Q'' p) (hq' : ∀ p, Q' p → Q'' p) :
    w.Recorded s s'' Q'' := by
  obtain ⟨-, out, entries, hout, hentries, hlen, hat⟩ := h
  obtain ⟨hserves, out', entries', hout', hentries', hlen', hat'⟩ := h'
  refine ⟨hserves, out ++ out', entries ++ entries', ?_, ?_, ?_, ?_⟩
  · rw [hout', hout, List.append_assoc]
  · rw [hentries', hentries, List.append_assoc]
  · rw [List.length_append, List.length_append, hlen, hlen']
  · intro p hp
    rcases List.mem_append.mp hp with hp | hp
    · obtain ⟨at_, hat_, hstop⟩ := hat p hp
      exact ⟨at_, hq _ hat_, hstop⟩
    · obtain ⟨at_, hat_, hstop⟩ := hat' p hp
      exact ⟨at_, hq' _ hat_, hstop⟩

theorem visitAt_recorded {cycle step : ℕ} {s s' : WalkState} (hs : w.Serves s.runtimes)
    (h : w.visitAt cycle step s = .ok s') :
    w.Recorded s s' (· = w.entersAt (cycle, step)) := by
  unfold visitAt at h
  split at h
  · obtain rfl := Except.ok.inj h
    exact .idle hs rfl rfl
  · next st _ =>
    split at h
    · cases h
    · next idx _ =>
      split at h
      · next cfg rt hcfg hrt =>
        have hrtcfg : rt.cfg = cfg := by
          have := congrArg (·[idx]?) hs
          simp only [List.getElem?_map, hrt, hcfg, Option.map_some, Option.some.injEq] at this
          exact this
        dsimp only at h
        obtain ⟨⟨rt₁, src₁⟩, hrolled, h⟩ := Lib.bind_eq_ok.mp h
        have hcfg₁ := rolled_cfg hrtcfg hrolled
        dsimp only at h
        split_ifs at h
        · obtain rfl := Except.ok.inj h
          exact .idle (hs.set hcfg hcfg₁) rfl rfl
        · obtain ⟨⟨rt₂, src₂⟩, hreplenished, h⟩ := Lib.bind_eq_ok.mp h
          have hcfg₂ := (replenished_cfg hreplenished).trans hcfg₁
          obtain ⟨⟨drawn, rt₃, channel⟩, hvisit, h⟩ := Lib.bind_eq_ok.mp h
          have hcfg₃ := (PoolRuntime.visit_cfg w.cat hvisit).trans hcfg₂
          obtain rfl := Except.ok.inj h
          refine ⟨Serves.set (Serves.set (Serves.set hs hcfg ?_) hcfg ?_) hcfg hcfg₃, drawn, _,
            rfl, rfl, ?_, fun p hp => ⟨_, rfl, itemProgress_stopAt (entering_stopAt ?_ _ _) _ _ _ p hp⟩⟩
          · exact hcfg₁
          · exact hcfg₂
          · simp [itemProgress]
          · refine Serves.set (Serves.set hs hcfg ?_) hcfg hcfg₂
            exact hcfg₁
      · obtain rfl := Except.ok.inj h
        exact .idle hs rfl rfl

/-- A walk records the states of the positions it visits, and stops at the next one. -/
theorem run_recorded {budget : Option ℕ} {end_ stop : ℕ × ℕ} {ps : List (ℕ × ℕ)}
    {s s' : WalkState} (hs : w.Serves s.runtimes) (h : w.run budget end_ ps s = .ok (s', stop)) :
    ∃ visited rest, ps = visited ++ rest ∧ stop = rest.headD end_ ∧
      w.Recorded s s' fun at_ => ∃ pos ∈ visited, at_ = w.entersAt pos := by
  induction ps generalizing s with
  | nil =>
    obtain ⟨rfl, rfl⟩ := Prod.mk.inj (Except.ok.inj h)
    exact ⟨[], [], rfl, rfl, .idle hs rfl rfl⟩
  | cons pos ps ih =>
    obtain ⟨cycle, step⟩ := pos
    rw [run] at h
    split_ifs at h
    · obtain ⟨rfl, rfl⟩ := Prod.mk.inj (Except.ok.inj h)
      exact ⟨[], _, rfl, rfl, .idle hs rfl rfl⟩
    · obtain ⟨s₁, hvisit, h⟩ := Lib.bind_eq_ok.mp h
      have hone := visitAt_recorded hs hvisit
      obtain ⟨visited, rest, rfl, hstop, hrest⟩ := ih hone.serves h
      refine ⟨(cycle, step) :: visited, rest, rfl, hstop, hone.trans hrest ?_ ?_⟩
      · rintro _ rfl
        exact ⟨_, List.mem_cons_self, rfl⟩
      · rintro _ ⟨pos, hpos, rfl⟩
        exact ⟨pos, List.mem_cons_of_mem _ hpos, rfl⟩

/-- A block with no pools has nothing to draw from. -/
theorem run_poolless (hpools : w.block.pools = []) {budget : Option ℕ} {end_ stop : ℕ × ℕ}
    {ps : List (ℕ × ℕ)} {s s' : WalkState} (h : w.run budget end_ ps s = .ok (s', stop)) :
    s'.out = s.out := by
  induction ps generalizing s with
  | nil =>
    obtain ⟨rfl, -⟩ := Prod.mk.inj (Except.ok.inj h)
    rfl
  | cons pos ps ih =>
    obtain ⟨cycle, step⟩ := pos
    rw [run] at h
    split_ifs at h
    · obtain ⟨rfl, -⟩ := Prod.mk.inj (Except.ok.inj h)
      rfl
    · obtain ⟨s₁, hvisit, h⟩ := Lib.bind_eq_ok.mp h
      rw [ih h]
      unfold visitAt at hvisit
      simp only [hpools, List.findIdx?_nil] at hvisit
      split at hvisit
      · rw [← Except.ok.inj hvisit]
      · cases hvisit

/-- The order positions are visited in. -/
def Before (a b : ℕ × ℕ) : Prop := a.1 < b.1 ∨ a.1 = b.1 ∧ a.2 < b.2

theorem Before.irrefl (a : ℕ × ℕ) : ¬ Before a a := by
  unfold Before
  omega

/-- Positions come in order, and a walk that visits them all stops after them. -/
theorem positions_ordered (w : Walk) (cycles : ℕ) :
    (w.positions cycles ++ [w.endOf cycles]).Pairwise Before := by
  have hcycle : ∀ {pos : ℕ × ℕ}, pos ∈ w.positions cycles →
      pos.1 < w.firstCycle + cycles ∧ 0 < cycles := by
    intro pos hpos
    obtain ⟨c, hc, hpos⟩ := List.mem_flatMap.mp hpos
    obtain ⟨step, -, rfl⟩ := List.mem_map.mp hpos
    have := List.mem_range.mp hc
    dsimp only
    omega
  refine List.pairwise_append.mpr ⟨?_, List.pairwise_singleton _ _, ?_⟩
  · refine List.pairwise_flatMap.mpr ⟨fun c _ => ?_, ?_⟩
    · refine List.pairwise_map.mpr ?_
      refine (List.pairwise_lt_range.sublist (List.drop_sublist _ _)).imp ?_
      exact fun hlt => Or.inr ⟨rfl, hlt⟩
    · refine List.pairwise_lt_range.imp ?_
      intro c d hlt a ha b hb
      obtain ⟨step, -, rfl⟩ := List.mem_map.mp ha
      obtain ⟨step', -, rfl⟩ := List.mem_map.mp hb
      exact Or.inl (by dsimp only; omega)
  · intro pos hpos end_ hend
    obtain rfl := List.mem_singleton.mp hend
    obtain ⟨hlt, hpos⟩ := hcycle hpos
    unfold endOf
    rw [if_neg (by omega)]
    exact Or.inl hlt

theorem openPools_serves {extras : HashMap (String × EntryId) (Option ℕ)}
    {pools : List (Pool × List EntryId × Dice)} {runtimes : List PoolRuntime}
    (h : w.openPools extras pools = .ok runtimes) :
    runtimes.map (·.cfg) = pools.map Prod.fst := by
  obtain ⟨hlen, hall⟩ := Lib.mapM_eq_ok h
  apply List.ext_getElem? fun i => ?_
  rw [List.getElem?_map, List.getElem?_map]
  cases hi : pools[i]? with
  | none =>
    have : runtimes[i]? = none := by
      rw [List.getElem?_eq_none_iff] at hi ⊢
      omega
    rw [this]
    rfl
  | some entry =>
    obtain ⟨rt, hrt⟩ : ∃ rt, runtimes[i]? = some rt := by
      have hlt := (List.getElem?_eq_some_iff.mp hi).1
      exact ⟨_, List.getElem?_eq_getElem (by omega)⟩
    rw [hrt]
    exact congrArg some (poolRuntime_cfg (hall hi hrt))

end Walk

theorem rankAll_length {v : Variety} {env : ScoreEnv}
    {entries : List (Pool × Dice × Option (List EntryId))} {src src' : SourceState}
    {lists : List (List EntryId)} (h : rankAll v env entries src = .ok (lists, src')) :
    lists.length = entries.length := by
  induction entries generalizing src lists with
  | nil =>
    obtain ⟨rfl, -⟩ := Prod.mk.inj (Except.ok.inj h)
    rfl
  | cons entry entries ih =>
    obtain ⟨cfg, dice, slot⟩ := entry
    obtain ⟨⟨ids, src₁⟩, -, h⟩ := Lib.bind_eq_ok.mp h
    obtain ⟨⟨rest, src₂⟩, hrest, h⟩ := Lib.bind_eq_ok.mp h
    obtain ⟨rfl, rfl⟩ := Prod.mk.inj (Except.ok.inj h)
    rw [List.length_cons, List.length_cons, ih hrest]

theorem resolvePoolSources_length {cat : Catalog} {v : Variety} {env : ScoreEnv}
    {groups : List ShowGroup} {pools : List (Pool × Dice)} {src src' : SourceState}
    {lists : List (List EntryId)}
    (h : resolvePoolSources cat v env groups pools src = .ok (lists, src')) :
    lists.length = pools.length := by
  obtain ⟨slots, hslots, h⟩ := Lib.bind_eq_ok.mp h
  rw [rankAll_length h, List.length_map, List.length_zip, (Lib.mapM_eq_ok hslots).1, min_self]

/-- What a pool block hands back: a state before each id and the one after the last, each of
every pool of the block, and lists of its pools. -/
structure BlockBuild.Of (b : BlockBuild) (pools : List Pool) : Prop where
  progress_length : b.progress.length = b.ids.length + 1
  progress_last : b.progress[b.ids.length]? = some b.resume
  keys : ∀ p ∈ b.progress, (p.map Prod.fst).Perm (pools.map (·.name))
  lists : ∀ e ∈ b.lists, e.1 ∈ pools.map (·.name)

theorem Station.openWalk_serves {st : Station} {block : Block} {state : GenerationState}
    {windowStart : ℤ} {fill : Option ℕ} {rule : Option ChannelRule} {s : WalkState}
    (h : st.openWalk block (st.walk block state windowStart fill) rule = .ok s) :
    (st.walk block state windowStart fill).Serves s.runtimes ∧ s.out = [] ∧ s.progress = [] := by
  obtain ⟨⟨lists, src⟩, hsources, h⟩ := Lib.bind_eq_ok.mp h
  obtain ⟨runtimes, hruntimes, h⟩ := Lib.bind_eq_ok.mp h
  obtain rfl := Except.ok.inj h
  refine ⟨?_, rfl, rfl⟩
  unfold Walk.Serves
  have hlen := resolvePoolSources_length hsources
  rw [Walk.openPools_serves hruntimes, List.map_fst_zip]
  · rfl
  · simp only [List.length_zip, hlen, Station.opening, List.length_map] at *
    omega

/-- The states a pattern block records stand at the visits of their ids, all before the position
the walk stopped at. -/
theorem Station.build_recorded {st : Station} {block : Block} {state : GenerationState}
    {windowStart : ℤ} {fill : Option ℕ} {rule : Option ChannelRule} {b : BlockBuild}
    (h : st.build block state windowStart fill rule = .ok b) :
    b.Of block.pools ∧ ∃ w : Walk, w.block = block ∧ ∃ stop, w.StopAt stop b.resume ∧
      ∀ k p, k < b.ids.length → b.progress[k]? = some p →
        ∃ pos, Walk.Before pos stop ∧ w.StopAt (w.entersAt pos) p := by
  obtain ⟨s, hopen, h⟩ := Lib.bind_eq_ok.mp h
  obtain ⟨cycles, -, h⟩ := Lib.bind_eq_ok.mp h
  obtain ⟨⟨s', stop⟩, hrun, h⟩ := Lib.bind_eq_ok.mp h
  obtain rfl := Except.ok.inj h
  set w := st.walk block state windowStart fill with hw
  obtain ⟨hserves, hnone, hfresh⟩ := Station.openWalk_serves hopen
  obtain ⟨visited, rest, hps, hstop, hdrew⟩ := Walk.run_recorded hserves hrun
  obtain ⟨hserves', out, entries, hout, hentries, hlen, hat⟩ := hdrew
  rw [hnone, List.nil_append] at hout
  rw [hfresh, List.nil_append] at hentries
  have hresume : w.StopAt stop (w.result s' stop).resume := Walk.poolsResume_stopAt hserves' _ _ _
  have hids : (w.result s' stop).ids = out := hout
  have hprogress : (w.result s' stop).progress = entries ++ [(w.result s' stop).resume] :=
    congrArg (· ++ _) hentries
  have hbefore : ∀ pos ∈ visited, Walk.Before pos stop := by
    intro pos hpos
    have hordered := w.positions_ordered cycles
    rw [hps, List.append_assoc] at hordered
    refine (List.pairwise_append.mp hordered).2.2 pos hpos stop ?_
    rw [hstop]
    cases rest with
    | nil => exact List.mem_singleton_self _
    | cons p rest => exact List.mem_cons_self
  refine ⟨⟨?_, ?_, ?_, ?_⟩, w, rfl, stop, hresume, fun k p hk hp => ?_⟩
  · rw [hprogress, hids, List.length_append, hlen]
    rfl
  · rw [hprogress, hids, ← hlen]
    simp
  · intro p hp
    rw [hprogress] at hp
    rcases List.mem_append.mp hp with hp | hp
    · obtain ⟨at_, -, hstopAt⟩ := hat p hp
      exact hstopAt.keys
    · obtain rfl := List.mem_singleton.mp hp
      exact hresume.keys
  · intro e he
    have hany := (List.mem_filter.mp he).2
    obtain ⟨pool, hpool, hname⟩ := List.any_eq_true.mp hany
    exact List.mem_map.mpr ⟨pool, hpool, by simpa using hname⟩
  · rw [hids] at hk
    rw [hprogress, List.getElem?_append_left (by omega)] at hp
    obtain ⟨_, ⟨pos, hpos, rfl⟩, hstopAt⟩ := hat p (List.mem_of_getElem? hp)
    exact ⟨pos, hbefore pos hpos, hstopAt⟩

theorem Station.build_poolless {st : Station} {block : Block} {state : GenerationState}
    {windowStart : ℤ} {fill : Option ℕ} {rule : Option ChannelRule} {b : BlockBuild}
    (h : st.build block state windowStart fill rule = .ok b) (hpools : block.pools = []) :
    b.ids = [] := by
  obtain ⟨s, hopen, h⟩ := Lib.bind_eq_ok.mp h
  obtain ⟨cycles, -, h⟩ := Lib.bind_eq_ok.mp h
  obtain ⟨⟨s', stop⟩, hrun, h⟩ := Lib.bind_eq_ok.mp h
  obtain rfl := Except.ok.inj h
  have hout := Walk.run_poolless hpools hrun
  rw [(Station.openWalk_serves hopen).2.1] at hout
  exact hout

end EtvStation
