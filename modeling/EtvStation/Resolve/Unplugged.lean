import EtvStation.Lib.Alike
import EtvStation.Pattern.Session
import EtvStation.Resolve.Change

/-! A channel without plugins reads of the sidecar only the progress: neither the checkpoints nor
the lists it keeps change what a generation resolves to. -/
namespace EtvStation

open Lib (Alike)

/-- The two generations are handed the same but for the checkpoints, and the lists the sidecar
keeps. -/
structure GenerationState.Same (a b : GenerationState) : Prop where
  progress : a.resume.toProgress = b.resume.toProgress
  cursor : a.cursor = b.cursor
  globalCursor : a.globalCursor = b.globalCursor
  tail : a.tail = b.tail

section Sources

variable {cat : Catalog} {v : Variety} {env : ScoreEnv} {groups : List ShowGroup}

theorem resolveQueryIds_isSome {cfg : Pool} (h : cfg.plugin = none) {dice : Dice}
    {slot : Option (List EntryId)} (hslot : resolveQueryIds cat env groups cfg dice = .ok slot) :
    slot.isSome := by
  unfold resolveQueryIds at hslot
  rw [h] at hslot
  split at hslot
  · obtain ⟨ids, -, hids⟩ := Lib.bind_eq_ok.mp hslot
    obtain ⟨ordered, -, rfl⟩ := Lib.map_eq_ok.mp hids
    rfl
  · rename_i heq _
    cases heq
  · obtain ⟨ids, -, hids⟩ := Lib.bind_eq_ok.mp hslot
    obtain ⟨ordered, -, rfl⟩ := Lib.map_eq_ok.mp hids
    rfl
  · cases hslot

/-- Pools that rank nothing neither read nor write the lists kept. -/
theorem resolvePoolSources_unplugged {pools : List (Pool × Dice)}
    (h : ∀ p ∈ pools, p.1.plugin = none) (src src' : SourceState) :
    Alike (fun r r' => r.1 = r'.1 ∧ r.2 = src ∧ r'.2 = src')
      (resolvePoolSources cat v env groups pools src)
      (resolvePoolSources cat v env groups pools src') := by
  unfold resolvePoolSources
  refine Alike.bind (R := fun slots slots' => slots = slots' ∧ ∀ slot ∈ slots, slot.isSome) ?_ ?_
  · refine .self fun slots hslots => ⟨rfl, fun slot hslot => ?_⟩
    obtain ⟨hlen, hall⟩ := Lib.mapM_eq_ok hslots
    obtain ⟨i, hi⟩ := List.mem_iff_getElem?.mp hslot
    have hlt : i < pools.length := by
      have := (List.getElem?_eq_some_iff.mp hi).1
      omega
    have hquery := hall (List.getElem?_eq_getElem hlt) hi
    exact resolveQueryIds_isSome (h _ (List.getElem_mem hlt)) hquery
  · rintro slots _ ⟨rfl, hqueried⟩
    rw [rankAll_queried, rankAll_queried]
    · exact .ok ⟨rfl, rfl, rfl⟩
    all_goals
      intro e he
      obtain ⟨e', he', rfl⟩ := List.mem_map.mp he
      exact hqueried _ (List.of_mem_zip he').2

theorem poolRuntime_same {state state' : GenerationState} (h : state.Same state') (cfg : Pool)
    (ids : List EntryId) (block : Option Constraints) (prev : Option PoolResume) (dice : Dice)
    (want : Bool) (extras : HashMap (String × EntryId) (Option ℕ)) :
    poolRuntime cat v cfg ids block state prev dice want extras =
      poolRuntime cat v cfg ids block state' prev dice want extras := by
  have hcursor : state.cursorFor cfg = state'.cursorFor cfg := by
    unfold GenerationState.cursorFor
    rw [h.cursor, h.globalCursor]
  unfold poolRuntime
  rw [h.tail, hcursor]

end Sources

section Walked

/-- Two walks that stand at the same place but for the lists kept. -/
def WalkState.Same (s s' : WalkState) : Prop :=
  s' = { s with src := { s.src with lists := s'.src.lists } }

variable {w : Walk} {state' : GenerationState}

theorem rolled_unplugged (h : w.state.Same state') {cfg : Pool} (hcfg : cfg.plugin = none)
    (rt : PoolRuntime) (dice : Dice) (src : SourceState) (lists : BTreeMap String (List FrozenList))
    (aired : List EntryId) :
    Alike (fun r r' => r.1 = r'.1 ∧ r.2 = src ∧ r'.2 = { src with lists })
      (w.rolled cfg rt dice src aired)
      ({ w with state := state' }.rolled cfg rt dice { src with lists } aired) := by
  unfold Walk.rolled
  dsimp only
  split_ifs
  · exact .ok ⟨rfl, rfl, rfl⟩
  · unfold Walk.rollover
    dsimp only
    refine (resolvePoolSources_unplugged (by simpa using hcfg) src { src with lists }).bind ?_
    rintro ⟨ids, _⟩ ⟨_, _⟩ ⟨rfl, rfl, rfl⟩
    dsimp only
    rw [poolRuntime_same h]
    refine (Alike.refl (fun _ => rfl) _).bind ?_
    rintro fresh _ rfl
    exact .ok ⟨rfl, rfl, rfl⟩

/-- A pool without a plugin is never refilled. -/
theorem replenished_unplugged {cfg : Pool} (hcfg : cfg.plugin = none) (w : Walk)
    (rt : PoolRuntime) (dice : Dice) (src : SourceState) :
    w.replenished cfg rt dice src =
      .ok (if rt.isDrained && !rt.exhausted then { rt with exhausted := true } else rt, src) := by
  unfold Walk.replenished Walk.refillPool
  rw [hcfg]
  simp only [Option.isNone_none, Bool.true_or, if_true, Lib.ok_bind]
  split_ifs <;> rfl

/-- One visit goes the same way. -/
theorem visitAt_unplugged (h : w.state.Same state') (hpools : ∀ p ∈ w.block.pools, p.plugin = none)
    (cycle step : ℕ) {s s' : WalkState} (hs : s.Same s') :
    Alike WalkState.Same (w.visitAt cycle step s)
      ({ w with state := state' }.visitAt cycle step s') := by
  obtain ⟨lists, rfl⟩ : ∃ lists, s' = { s with src := { s.src with lists } } := ⟨_, hs⟩
  unfold Walk.visitAt
  dsimp only
  cases w.block.pattern[step]? with
  | none => exact .ok rfl
  | some st =>
    dsimp only
    cases w.block.pools.findIdx? (·.name == st.pool) with
    | none => exact .error _
    | some idx =>
      dsimp only
      cases hcfg : w.block.pools[idx]? with
      | none => exact .ok rfl
      | some cfg =>
        cases s.runtimes[idx]? with
        | none => exact .ok rfl
        | some rt =>
          have hplugin := hpools cfg (List.mem_of_getElem? hcfg)
          dsimp only
          refine (rolled_unplugged h hplugin rt _ s.src lists s.out).bind ?_
          rintro ⟨rt', _⟩ ⟨_, _⟩ ⟨rfl, rfl, rfl⟩
          dsimp only
          split_ifs
          · exact .ok rfl
          · rw [replenished_unplugged hplugin, replenished_unplugged hplugin]
            simp only [Lib.ok_bind]
            refine (Alike.refl (fun _ => rfl) _).bind ?_
            rintro ⟨drawn, rt, channel⟩ _ rfl
            exact .ok rfl

/-- A walk goes the same way. -/
theorem run_unplugged (h : w.state.Same state') (hpools : ∀ p ∈ w.block.pools, p.plugin = none)
    (budget : Option ℕ) (end_ : ℕ × ℕ) (positions : List (ℕ × ℕ)) {s s' : WalkState}
    (hs : s.Same s') :
    Alike (fun r r' => r.1.Same r'.1 ∧ r.2 = r'.2) (w.run budget end_ positions s)
      ({ w with state := state' }.run budget end_ positions s') := by
  induction positions generalizing s s' with
  | nil => exact .ok ⟨hs, rfl⟩
  | cons at_ rest ih =>
    obtain ⟨cycle, step⟩ := at_
    have hover : w.isOver budget step s = { w with state := state' }.isOver budget step s' := by
      rw [hs]
      rfl
    rw [Walk.run, Walk.run, ← hover]
    split_ifs
    · exact .ok ⟨hs, rfl⟩
    · exact (visitAt_unplugged h hpools cycle step hs).bind fun _ _ hs' => ih hs'

/-- The record a finished walk hands back but for the lists kept. -/
def BlockBuild.Same (b b' : BlockBuild) : Prop :=
  b' = { b with lists := b'.lists }

theorem openWalk_unplugged {st : Station} {block : Block}
    (hpools : ∀ p ∈ block.pools, p.plugin = none) (h : w.state.Same state') (rule : Option ChannelRule) :
    Alike WalkState.Same (st.openWalk block w rule)
      (st.openWalk block { w with state := state' } rule) := by
  unfold Station.openWalk
  dsimp only
  have hplugin : ∀ p ∈ block.pools.zip (st.opening block w.windowStart), p.1.plugin = none :=
    fun p hp => hpools p.1 (List.of_mem_zip hp).1
  refine (resolvePoolSources_unplugged hplugin { lists := w.state.resume.lists }
    { lists := state'.resume.lists }).bind ?_
  rintro ⟨ids, _⟩ ⟨_, _⟩ ⟨rfl, rfl, rfl⟩
  have hopen : ∀ pools, { w with state := state' }.openPools ∅ pools = w.openPools ∅ pools := by
    intro pools
    unfold Walk.openPools
    congr 1
    funext ⟨cfg, ids, dice⟩
    dsimp only
    rw [poolRuntime_same h, show w.state.resume.pool cfg.name = state'.resume.pool cfg.name from
      congrArg (fun p => p.pools.get cfg.name) h.progress]
  dsimp only
  rw [hopen]
  refine (Alike.refl (fun _ => rfl) _).bind ?_
  rintro runtimes _ rfl
  exact .ok rfl

theorem Station.build_unplugged (st : Station) {block : Block}
    (hpools : ∀ p ∈ block.pools, p.plugin = none) {state : GenerationState}
    (h : state.Same state') (windowStart : ℤ) (fill : Option ℕ) (rule : Option ChannelRule) :
    Alike BlockBuild.Same (st.build block state windowStart fill rule)
      (st.build block state' windowStart fill rule) := by
  have hwalk : st.walk block state' windowStart fill =
      { st.walk block state windowStart fill with state := state' } := by
    obtain ⟨⟨_, _, _, _⟩, _, _, _⟩ := state
    obtain ⟨⟨_, _, _, _⟩, _, _, _⟩ := state'
    obtain ⟨rfl, rfl, rfl, rfl⟩ := h
    rfl
  unfold Station.build
  rw [hwalk]
  have hsame : (st.walk block state windowStart fill).state.Same state' := h
  refine (openWalk_unplugged hpools hsame rule).bind fun s s' hs => ?_
  have hruntimes : s'.runtimes = s.runtimes := by
    rw [hs]
  rw [hruntimes]
  refine (Alike.refl (fun _ => rfl) _).bind ?_
  rintro cycles _ rfl
  refine (run_unplugged hsame hpools _ _ _ hs).bind ?_
  rintro ⟨t, stoppedAt⟩ ⟨t', _⟩ ⟨ht, rfl⟩
  obtain ⟨lists, rfl⟩ : ∃ lists, t' = { t with src := { t.src with lists } } := ⟨_, ht⟩
  exact .ok rfl

end Walked

namespace Resolve

variable {β : Type}

/-- The block is no plugin's, and none of its pools is. -/
def BlockInclude.Unplugged (b : BlockInclude β) : Prop :=
  match b.body with
  | .pattern block => ∀ p ∈ block.pools, p.plugin = none
  | .sequencer _ => False
  | .entries _ => True

def RuleConfig.Unplugged (rule : RuleConfig β) : Prop :=
  ∀ b ∈ rule.allBlocks, b.Unplugged

section Laying

variable {env : Env β} {rule : RuleConfig β} {state state' : GenerationState} {fill : Option ℕ}
  {windowStart : ℤ}

/-- The blocks laid so far are the same but for the lists kept. -/
def Laying.Same (l l' : Laying β) : Prop :=
  l' = { l with lists := l'.lists }

theorem resolveBlock_unplugged {b : BlockInclude β} (hb : b.Unplugged) (h : state.Same state') (idx : ℕ) (seed : UInt64) (blockStart : ℤ)
    (channelRule : Option ChannelRule) :
    Alike (fun r r' => r.1 = r'.1 ∧ r.2.1 = r'.2.1)
      (env.resolveBlock b idx seed state fill blockStart channelRule)
      (env.resolveBlock b idx seed state' fill blockStart channelRule) := by
  unfold BlockInclude.Unplugged at hb
  unfold Env.resolveBlock
  cases hbody : b.body with
  | pattern block =>
    rw [hbody] at hb
    dsimp only
    unfold Env.resolvePool
    refine ((env.station.build_unplugged hb h blockStart fill channelRule).mapError _).bind ?_
    intro build build' hbuild
    obtain ⟨lists, rfl⟩ : ∃ lists, build' = { build with lists } := ⟨_, hbuild⟩
    refine Alike.bind (R := Eq) (Alike.refl (fun _ => rfl) _) ?_
    rintro items _ rfl
    exact .ok ⟨rfl, rfl⟩
  | sequencer block =>
    rw [hbody] at hb
    exact hb.elim
  | entries resolve => exact Alike.refl (fun _ => ⟨rfl, rfl⟩) _

theorem layBlock_unplugged {b : BlockInclude β} (hb : b.Unplugged) (h : state.Same state') (seed : UInt64)
    {l l' : Laying β} (hl : l.Same l') (pos idx : ℕ) :
    Alike Laying.Same (env.layBlock rule state seed fill windowStart l pos idx b)
      (env.layBlock rule state' seed fill windowStart l' pos idx b) := by
  obtain ⟨lists, rfl⟩ : ∃ lists, l' = { l with lists } := ⟨_, hl⟩
  have haired : env.channelAired state' fill { l with lists } = env.channelAired state fill l := by
    unfold Env.channelAired
    rw [← h.tail, show state'.resume.position = state.resume.position from
      congrArg Progress.position h.progress.symm]
  unfold Env.layBlock
  rw [haired]
  dsimp only
  refine (resolveBlock_unplugged hb h idx seed _ _).bind ?_
  rintro ⟨block, pools, lists'⟩ ⟨_, _, lists''⟩ ⟨rfl, rfl⟩
  exact .ok rfl

theorem layBlocks_unplugged {blocks : List (ℕ × BlockInclude β)}
    (hblocks : ∀ b ∈ blocks, b.2.Unplugged) (h : state.Same state') (seed : UInt64) (pos : ℕ)
    {l l' : Laying β} (hl : l.Same l') :
    Alike Laying.Same (env.layBlocks rule state seed fill windowStart pos blocks l)
      (env.layBlocks rule state' seed fill windowStart pos blocks l') := by
  induction blocks generalizing pos l l' with
  | nil => exact .ok hl
  | cons b blocks ih =>
    refine (layBlock_unplugged (hblocks b List.mem_cons_self) h seed hl pos b.1).bind ?_
    exact fun _ _ hlaid => ih (fun b hb => hblocks b (List.mem_cons_of_mem _ hb)) _ hlaid

theorem slotState_same (h : state.Same state') (onAir : Option OnAir) :
    (Env.slotState state onAir).Same (Env.slotState state' onAir) := by
  obtain ⟨⟨_, _, _, _⟩, _, _, _⟩ := state
  obtain ⟨⟨_, _, _, _⟩, _, _, _⟩ := state'
  obtain ⟨rfl, rfl, rfl, rfl⟩ := h
  cases onAir with
  | none => exact ⟨rfl, rfl, rfl, rfl⟩
  | some answer => cases answer <;> exact ⟨rfl, rfl, rfl, rfl⟩

theorem carry_same (h : state.Same state') (onAir : OnAir)
    (rotations : BTreeMap String RotationResume) (p : Progress) :
    carry rule onAir state.resume rotations p = carry rule onAir state'.resume rotations p := by
  obtain ⟨⟨_, _, _, _⟩, _, _, _⟩ := state
  obtain ⟨⟨_, _, _, _⟩, _, _, _⟩ := state'
  obtain ⟨rfl, rfl, rfl, rfl⟩ := h
  rfl

/-- What a generation resolves to, but for the lists kept, depends on the sidecar's progress
alone. -/
theorem resolveChannel_unplugged (hrule : rule.Unplugged) (h : state.Same state') :
    Alike (fun r r' => r.1 = r'.1 ∧ r.2.1.toProgress = r'.2.1.toProgress ∧ r.2.2 = r'.2.2)
      (env.resolveChannel rule state fill windowStart)
      (env.resolveChannel rule state' fill windowStart) := by
  unfold Env.resolveChannel
  have hrotations : state'.resume.rotations = state.resume.rotations :=
    congrArg Progress.rotations h.progress.symm
  dsimp only
  rw [hrotations]
  set answer := rule.calendar.map fun cal => cal.onAirDrawn windowStart state.resume.rotations
  set fill' := Env.calendarFill rule (env.rolloverFill rule fill windowStart) windowStart
  have hairing := slotState_same h (answer.map Prod.fst)
  have hposition : (Env.slotState state' (answer.map Prod.fst)).resume.position =
      (Env.slotState state (answer.map Prod.fst)).resume.position :=
    congrArg Progress.position hairing.progress.symm
  refine (layBlocks_unplugged (fun b hb => hrule _ (selected_mem hb)) hairing _ 0
    (show Laying.Same {} {} from rfl)).bind ?_
  intro l l' hl
  obtain ⟨lists, rfl⟩ : ∃ lists, l' = { l with lists } := ⟨_, hl⟩
  have hseat : env.seatEntries (Env.slotState state' (answer.map Prod.fst)) fill' { l with lists } =
      env.seatEntries (Env.slotState state (answer.map Prod.fst)) fill' l := by
    unfold Env.seatEntries
    rw [hposition]
  have hrows : ∀ rows, env.constrainRows (Env.slotState state' (answer.map Prod.fst)) rows =
      env.constrainRows (Env.slotState state (answer.map Prod.fst)) rows := by
    intro rows
    unfold Env.constrainRows
    rw [hairing.tail]
  rw [hseat]
  refine Alike.bind (R := Eq) (Alike.refl (fun _ => rfl) _) ?_
  rintro ⟨rows, seat⟩ _ rfl
  dsimp only
  rw [hposition]
  by_cases hempty : rows.isEmpty = true
  · rw [if_pos hempty, if_pos hempty]
    exact .error _
  · rw [if_neg hempty, if_neg hempty, hrows]
    refine Alike.bind (R := Eq) (Alike.refl (fun _ => rfl) _) ?_
    rintro rows' _ rfl
    cases answer with
    | none => exact .ok ⟨rfl, rfl, rfl⟩
    | some answer =>
      obtain ⟨onAir, rotations⟩ := answer
      refine .ok ⟨rfl, ?_, ?_⟩
      · exact carry_same h _ _ _
      · exact List.map_congr_left fun p _ => carry_same h _ _ _

end Laying

section Drawn

variable {env : Env β} {rule : RuleConfig β} {P : ResolvedItem β → Prop}

/-- Everything the channel's blocks can air satisfies `P`. -/
structure Env.Draws (env : Env β) (rule : RuleConfig β) (P : ResolvedItem β → Prop) : Prop where
  catalog : ∀ {idx id item}, env.catalogItem idx id = .ok (some item) → P item
  entries : ∀ b ∈ rule.allBlocks, ∀ {resolve seed items}, b.body = .entries resolve →
    resolve seed = .ok items → ∀ item ∈ items, P item

end Drawn

end Resolve

end EtvStation
