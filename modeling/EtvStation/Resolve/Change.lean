import EtvStation.Pattern.Budget
import EtvStation.Resolve.Counted
import EtvStation.Resolve.Entries

/-! A generation under a calendar is cut at the calendar's next change: a block on air opens nothing
at or after it. -/
namespace EtvStation.Resolve

variable {β : Type}

section NextChange

variable {cal : Calendar} {now : OnAir}

theorem Calendar.changeFrom_bounds {until_ t c : ℤ} {fuel : ℕ}
    (h : cal.changeFrom now until_ fuel t = some c) : t ≤ c ∧ c < until_ := by
  induction fuel generalizing t with
  | zero => cases h
  | succ fuel ih =>
    rw [changeFrom] at h
    split_ifs at h with hlt
    · obtain rfl := Option.some.inj h
      exact ⟨le_rfl, hlt⟩
    · have := ih h
      simp only [MINUTE] at this
      omega

/-- The first change is the same one however far the walk looks past it. -/
theorem Calendar.changeFrom_of_lt {until_ until' t c : ℤ} {fuel fuel' : ℕ}
    (h : cal.changeFrom now until_ fuel t = some c) (hlt : c < until')
    (hfuel : until' - t ≤ fuel') : cal.changeFrom now until' fuel' t = some c := by
  induction fuel generalizing t fuel' with
  | zero => cases h
  | succ fuel ih =>
    have hbounds := changeFrom_bounds h
    cases fuel' with
    | zero => omega
    | succ fuel' =>
      rw [changeFrom] at h ⊢
      rw [if_pos (by omega)] at h
      rw [if_pos (by omega)]
      split_ifs at h ⊢
      · exact h
      · refine ih h ?_
        simp only [MINUTE]
        omega

theorem Calendar.nextChange_gt {from_ until_ c : ℤ} (h : cal.nextChange from_ until_ = some c) :
    from_ < c := by
  have hbounds := (changeFrom_bounds h).1
  simp only [MINUTE] at hbounds
  omega

/-- The airtime a generation asks its blocks for ends by the calendar's next change. -/
theorem calendarFill_le {env : Env β} {rule : RuleConfig β} (hcal : rule.calendar = some cal)
    {fill : ℕ} {windowStart c : ℤ}
    (hchange : cal.nextChange windowStart (windowStart + fill) = some c) :
    ∃ cut : ℕ, Env.calendarFill rule (env.rolloverFill rule (some fill) windowStart) windowStart =
      some cut ∧ windowStart + cut ≤ c := by
  obtain ⟨span, hspan, hle⟩ : ∃ span, env.rolloverFill rule (some fill) windowStart = some span ∧
      span ≤ fill := by
    unfold Env.rolloverFill
    rw [Option.map_some]
    refine ⟨_, rfl, ?_⟩
    split
    · split
      · exact min_le_left _ _
      · exact le_rfl
    · exact le_rfl
  have hgt := Calendar.nextChange_gt hchange
  rw [hspan]
  unfold Env.calendarFill
  simp only [hcal, Option.bind_some]
  cases hnext : cal.nextChange windowStart (windowStart + span) with
  | none =>
    refine ⟨span, rfl, not_lt.mp fun hlt => ?_⟩
    have hsome : cal.nextChange windowStart (windowStart + span) = some c := by
      refine Calendar.changeFrom_of_lt hchange hlt ?_
      simp only [MINUTE]
      omega
    rw [hnext] at hsome
    cases hsome
  | some c' =>
    have hlt := (Calendar.changeFrom_bounds hnext).2
    have hsame : cal.nextChange windowStart (windowStart + fill) = some c' := by
      refine Calendar.changeFrom_of_lt hnext (by omega) ?_
      simp only [MINUTE]
      omega
    obtain rfl := Option.some.inj (hchange.symm.trans hsame)
    exact ⟨_, rfl, by omega⟩

end NextChange

/-- Each item an entries list is cut to, but for the first, starts before the airtime asked for
is covered. -/
theorem itemsCovering_starts {fill laid count o : ℕ} {durations : List ℕ}
    (h : count + o < itemsCovering fill laid count durations) :
    o = 0 ∨ laid + (durations.take o).sum < fill := by
  induction durations generalizing laid count o with
  | nil =>
    rw [itemsCovering] at h
    omega
  | cons d durations ih =>
    rw [itemsCovering] at h
    cases o with
    | zero => exact Or.inl rfl
    | succ o =>
      right
      rw [List.take_succ_cons, List.sum_cons]
      split_ifs at h with hfull
      · omega
      · have hnext : count + 1 + o < itemsCovering fill (laid + d) (count + 1) durations := by omega
        rcases ih hnext with rfl | hrest
        · simp only [List.take_zero, List.sum_nil]
          omega
        · omega

/-- The script's timeline is cut at its first item that would start past the window. -/
theorem layUntil_starts {length : EntryId → ℕ} {fill laid k : ℕ} {ids : List EntryId}
    (h : k < (layUntil length fill laid ids).length) :
    laid + (((layUntil length fill laid ids).take k).map length).sum < fill := by
  induction ids generalizing laid k with
  | nil => exact absurd h (Nat.not_lt_zero k)
  | cons id ids ih =>
    rw [layUntil] at h ⊢
    split_ifs at h ⊢ with hfull
    · exact absurd h (Nat.not_lt_zero k)
    · cases k with
      | zero =>
        rw [List.take_zero, List.map_nil, List.sum_nil]
        omega
      | succ k =>
        have := ih (Nat.lt_of_succ_lt_succ h)
        rw [List.take_succ_cons, List.map_cons, List.sum_cons]
        omega

theorem layUntil_extends (length : EntryId → ℕ) (fill laid : ℕ) (ids : List EntryId) :
    layUntil length fill laid ids <+: ids := by
  induction ids generalizing laid with
  | nil => exact List.prefix_rfl
  | cons id ids ih =>
    rw [layUntil]
    split_ifs
    · exact List.nil_prefix
    · exact (List.prefix_cons_inj id).mpr (ih _)

/-- The `k`-th id of a block's draw was begun while less than `fill` was laid, by the block's own
count. -/
def OpensWithin (env : Env β) (b : BlockInclude β) (state : GenerationState) (fill : ℕ)
    (windowStart : ℤ) (rule : Option ChannelRule) (ids : List EntryId) (k : ℕ) : Prop :=
  match b.body with
  | .pattern block =>
    let w := env.station.walk block state windowStart (some fill)
    ∃ s, env.station.openWalk block w rule = .ok s ∧ w.DrawnIn fill s ids k
  | .sequencer _ => ∃ timeline durations mean,
    poolRuntimes env.station.cat timeline = .ok (durations, mean) ∧ ids <+: timeline ∧
      ((ids.take k).map (durations.getD · mean)).sum < fill
  | .entries _ => False

section Single

variable {env : Env β} {b : BlockInclude β} {state : GenerationState} {fill : ℕ} {windowStart : ℤ}
  {rule : Option ChannelRule} {build : BlockBuild}

theorem drawn_opensWithin
    (hcycles : ∀ block, b.body = .pattern block → block.cycles = none)
    (h : env.drawn b state (some fill) windowStart rule = some (.ok build)) :
    ∀ k < build.ids.length, OpensWithin env b state fill windowStart rule build.ids k := by
  intro k hk
  unfold OpensWithin
  unfold Env.drawn at h
  cases hbody : b.body with
  | pattern block =>
    simp only [hbody, Option.some.injEq] at h ⊢
    obtain ⟨s, hopen, hdrawn⟩ := Station.build_drawnIn (hcycles block hbody) h
    exact ⟨s, hopen, hdrawn k hk⟩
  | sequencer block =>
    simp only [hbody, Option.some.injEq] at h ⊢
    obtain ⟨_, -, h⟩ := Lib.bind_eq_ok.mp h
    obtain ⟨_, -, h⟩ := Lib.bind_eq_ok.mp h
    obtain ⟨timeline, -, h⟩ := Lib.bind_eq_ok.mp h
    dsimp only at h
    split at h
    · cases h
    obtain ⟨arranged, hcut, h⟩ := Lib.bind_eq_ok.mp h
    obtain rfl := Except.ok.inj h
    unfold truncateToWindow at hcut
    dsimp only at hcut
    split_ifs at hcut with hempty
    · obtain rfl := Except.ok.inj hcut
      rw [List.isEmpty_iff.mp hempty] at hk
      exact absurd hk (Nat.not_lt_zero k)
    · obtain ⟨⟨durations, mean⟩, hruntimes, hcut⟩ := Lib.bind_eq_ok.mp hcut
      obtain rfl := Except.ok.inj hcut
      refine ⟨timeline, durations, mean, hruntimes, layUntil_extends _ _ _ _, ?_⟩
      have hstarts := layUntil_starts hk
      rw [Nat.zero_add] at hstarts
      exact hstarts
  | entries resolve =>
    simp only [hbody] at h
    cases h

/-- A pool block on air alone: its items are those it drew, and nothing cuts or reorders them. -/
theorem layBlock_pool {channel : RuleConfig β} {seed : UInt64} {pos idx : ℕ} {l : Laying β}
    {fill : Option ℕ} (hpool : b.isPattern = true)
    (h : env.layBlock channel state seed fill windowStart {} pos idx b = .ok l) :
    ∃ build found rule, env.drawn b state fill windowStart rule = some (.ok build) ∧
      build.ids.mapM (env.catalogItem idx) = .ok found ∧
      l.rows.map (·.item) = (kept b.mode idx found).map (fun e => { e.1 with block := idx }) ∧
      (∀ row ∈ l.rows, row.limits.isUnconstrained = true) ∧
      ∀ span ∈ l.spans, span.2.2 = true := by
  obtain ⟨⟨block, pools, lists⟩, hblock, h⟩ := Lib.bind_eq_ok.mp h
  obtain rfl := Except.ok.inj h
  obtain ⟨rule, hblock⟩ : ∃ rule, env.resolveBlock b idx seed state fill windowStart rule =
      .ok (block, pools, lists) := ⟨_, hblock⟩
  have hdrawn : ∃ build found, env.drawn b state fill windowStart rule = some (.ok build) ∧
      build.ids.mapM (env.catalogItem idx) = .ok found ∧
      block.items = (kept b.mode idx found).map Prod.fst ∧
      block.steps = (kept b.mode idx found).map Prod.snd := by
    have hresolve : ∀ x : Except String BlockBuild,
        env.resolvePool b idx x = .ok (block, pools, lists) →
        ∃ build found, x = .ok build ∧ build.ids.mapM (env.catalogItem idx) = .ok found ∧
          block.items = (kept b.mode idx found).map Prod.fst ∧
          block.steps = (kept b.mode idx found).map Prod.snd := by
      intro x h
      obtain ⟨build, hbuild, h⟩ := Lib.bind_eq_ok.mp h
      obtain ⟨items, hitems, h⟩ := Lib.bind_eq_ok.mp h
      obtain ⟨rfl, -⟩ := Prod.mk.inj (Except.ok.inj h)
      obtain ⟨found, hfound, hkept⟩ := Lib.bind_eq_ok.mp (mapError_eq_ok hitems)
      obtain rfl := Except.ok.inj hkept
      refine ⟨build, found, mapError_eq_ok hbuild, hfound, ?_⟩
      cases b.mode <;> exact ⟨rfl, rfl⟩
    unfold Env.resolveBlock at hblock
    unfold Env.drawn
    cases hbody : b.body with
    | pattern pattern =>
      simp only [hbody, Option.some.injEq] at hblock ⊢
      exact hresolve _ hblock
    | sequencer sequencer =>
      simp only [hbody, Option.some.injEq] at hblock ⊢
      exact hresolve _ hblock
    | entries resolve => simp [BlockInclude.isPattern, hbody] at hpool
  obtain ⟨build, found, hbuild, hfound, hitems, hsteps⟩ := hdrawn
  have hzip : block.items.zip block.steps = kept b.mode idx found := by
    rw [hitems, hsteps, List.zip_map']
    exact List.map_id _
  refine ⟨build, found, rule, hbuild, hfound, ?_, fun row hrow => ?_, fun span hspan => ?_⟩
  · dsimp only
    rw [hzip, List.nil_append, List.map_map]
    rfl
  · rcases List.mem_append.mp hrow with hrow | hrow
    · exact absurd hrow List.not_mem_nil
    · obtain ⟨_, -, rfl⟩ := List.mem_map.mp hrow
      rw [hpool, if_pos rfl]
      rfl
  · rw [List.mem_singleton.mp hspan]
    exact hpool

end Single

theorem selected_mem {rule : RuleConfig β} {answer : Option OnAir} {e : ℕ × BlockInclude β}
    (h : e ∈ Env.selected rule answer) : e.2 ∈ rule.allBlocks := by
  unfold Env.selected at h
  split at h
  · next index _ =>
    obtain ⟨b, hb, rfl⟩ := Option.map_eq_some_iff.mp (Option.mem_toList.mp h)
    exact List.mem_of_getElem? hb
  · obtain ⟨e', he, rfl⟩ := List.mem_map.mp h
    exact List.mem_append_left _ (List.fst_mem_of_mem_zipIdx he)

/-- What is seated of a list without rows has none. -/
theorem seatEntries_nil {env : Env β} {state : GenerationState} {fill : Option ℕ} {l : Laying β}
    {rows : List (Row β)} {seat : Option EntriesSeat} (hnone : l.rows = [])
    (h : env.seatEntries state fill l = .ok (rows, seat)) : rows = [] := by
  have hcut : ∀ lo hi, (env.cutEntriesWindow [] lo hi state.resume.position fill).1 = [] := by
    intro lo hi
    simp [Env.cutEntriesWindow]
  unfold Env.seatEntries at h
  rw [hnone] at h
  dsimp only at h
  split_ifs at h
  · exact (Prod.mk.inj (Except.ok.inj h)).1.symm
  · rw [← hcut 0 _]
    exact (congrArg Prod.fst (Except.ok.inj h)).symm
  · split at h
    · rw [← hcut _ _]
      exact (congrArg Prod.fst (Except.ok.inj h)).symm
    · cases h

/-- A generation is cut at the calendar's next change. Authored lists on air, drawn with the seed of
the generation where an order is random, are read round as one and hold no item that starts at or
after the change, by the lengths the cut counts with and in the order before the adjacency pass. A
pool block on air alone airs some of what it drew, all of it begun while what it had laid ended
before the change. -/
theorem resolveChannel_cut {env : Env β} {rule : RuleConfig β} {cal : Calendar}
    {state : GenerationState} {fill : ℕ} {windowStart change : ℤ} {items : List (ResolvedItem β)}
    {out : ResumeMap} {progress : List Progress} (hcal : rule.calendar = some cal)
    (hcycles : ∀ b ∈ rule.allBlocks, ∀ block, b.body = .pattern block → block.cycles = none)
    (hchange : cal.nextChange windowStart (windowStart + fill) = some change)
    (h : env.resolveChannel rule state (some fill) windowStart = .ok (items, out, progress)) :
    let onAir := (cal.onAirDrawn windowStart state.resume.rotations).1
    let airing := Env.slotState state (some onAir)
    let position := airing.resume.position
    ((∀ b ∈ Env.selected rule (some onAir), b.2.isPattern = false) →
      ∃ list, Authors (env.seed windowStart) (Env.selected rule (some onAir)) list ∧ list ≠ [] ∧
        ∃ order laid, order.Perm (List.range laid) ∧
        items = order.filterMap (fun o => list[(position + o) % list.length]?) ∧
        ((∀ b ∈ Env.selected rule (some onAir), b.2.constraints.limits.isUnconstrained = true) →
          order = List.range laid) ∧
        ∀ o ∈ order, windowStart +
          ((((env.estimatedRuntimes list).rotate (position % list.length)).take o).sum : ℕ) <
            change) ∧
    ∀ idx b, Env.selected rule (some onAir) = [(idx, b)] → b.isPattern = true →
      ∃ cut : ℕ, windowStart + cut ≤ change ∧ ∃ build found channelRule,
        env.drawn b airing (some cut) windowStart channelRule = some (.ok build) ∧
        build.ids.mapM (env.catalogItem idx) = .ok found ∧
        items = (kept b.mode idx found).map (fun e => { e.1 with block := idx }) ∧
        ∀ k < build.ids.length,
          OpensWithin env b airing cut windowStart channelRule build.ids k := by
  intro onAir airing position
  obtain ⟨cut, hcut, hle⟩ : ∃ cut : ℕ, Env.calendarFill rule
      (env.rolloverFill rule (some fill) windowStart) windowStart = some cut ∧
        windowStart + cut ≤ change := calendarFill_le hcal hchange
  have hgt := Calendar.nextChange_gt hchange
  unfold Env.resolveChannel at h
  simp only [hcal, Option.map_some] at h
  rw [hcut] at h
  obtain ⟨l, hlay, h⟩ := Lib.bind_eq_ok.mp h
  obtain ⟨⟨rows, seat⟩, hseat, h⟩ := Lib.bind_eq_ok.mp h
  by_cases hempty : rows.isEmpty = true
  · simp only [hempty, if_true] at h
    cases h
  simp only [hempty] at h
  obtain ⟨rows', hconstrain, h⟩ := Lib.bind_eq_ok.mp h
  obtain ⟨rfl, -⟩ := Prod.mk.inj (Except.ok.inj h)
  obtain ⟨order, hperm, rfl, hunlimited⟩ := constrainRows_perm hconstrain
  constructor
  · intro hentries
    obtain ⟨list, hlists⟩ := layBlocks_authors hentries hlay
    have hne : list ≠ [] := by
      rintro rfl
      obtain ⟨lists, hdrawn, hfused⟩ := hlists
      have hlaid : ∃ l', env.layBlocks rule airing (env.seed windowStart) (some cut) windowStart 0
          (Env.selected rule (some onAir)) {} = .ok l' ∧ _ :=
        layBlocks_entries 0 hdrawn {} fun _ hspan => absurd hspan List.not_mem_nil
      obtain ⟨l', hlay', hitems, -⟩ := hlaid
      obtain rfl := Except.ok.inj (hlay.symm.trans hlay')
      rw [← hfused] at hitems
      rw [seatEntries_nil (List.map_eq_nil_iff.mp hitems) hseat] at hempty
      exact hempty rfl
    refine ⟨list, hlists, hne, ?_⟩
    have hseated : ∃ l rows start laid, env.layBlocks rule airing (env.seed windowStart) (some cut)
        windowStart 0 (Env.selected rule (some onAir)) {} = .ok l ∧ _ :=
      seatEntries_authored hlists hne airing _ windowStart
    obtain ⟨l', seated, start, laid, hlay', hseat', -, -, -, -, hlaid, hitems, -, hfree⟩ := hseated
    obtain rfl := Except.ok.inj (hlay.symm.trans hlay')
    obtain ⟨rfl, -⟩ := Prod.mk.inj (Except.ok.inj (hseat.symm.trans hseat'))
    have hlen : rows.length = laid := by
      have := congrArg List.length hitems
      rwa [Lib.length_loop hne, List.length_map] at this
    rw [hlen] at hperm hunlimited
    have hin : ∀ o ∈ order, o < laid := fun o ho => List.mem_range.mp (hperm.mem_iff.mp ho)
    refine ⟨order, laid, hperm, items_of_order hne hitems hin, fun hun => hunlimited (hfree hun),
      fun o ho => ?_⟩
    have hlt := hin o ho
    rw [hlaid] at hlt
    have hcover : 0 + o < itemsCovering cut 0 0
        ((env.estimatedRuntimes list).rotate (position % list.length)) := by
      rw [Nat.zero_add]
      exact hlt
    rcases itemsCovering_starts hcover with rfl | hstarts
    · simpa using hgt
    · omega
  · intro idx b hsel hpool
    rw [show Env.selected rule (some _) = [(idx, b)] from hsel] at hlay
    obtain ⟨l', hblock, hrest⟩ := Lib.bind_eq_ok.mp hlay
    obtain rfl := Except.ok.inj hrest
    obtain ⟨build, found, channelRule, hbuild, hfound, hitems, hfree, hspans⟩ :=
      layBlock_pool hpool hblock
    have hnone : l'.spans.filter (fun span => !span.2.2) = [] :=
      List.filter_eq_nil_iff.mpr fun span hspan => by simp [hspans span hspan]
    unfold Env.seatEntries at hseat
    simp only [hnone, List.isEmpty_nil, if_true] at hseat
    obtain ⟨rfl, -⟩ := Prod.mk.inj (Except.ok.inj hseat)
    refine ⟨cut, hle, build, found, channelRule, hbuild, hfound, ?_, ?_⟩
    · rw [hunlimited hfree, Lib.filterMap_range, hitems]
    · refine drawn_opensWithin (fun block hbody => hcycles b ?_ block hbody) hbuild
      have hmem : (idx, b) ∈ Env.selected rule (some onAir) := by
        rw [hsel]
        exact List.mem_singleton_self _
      exact selected_mem hmem

def nightfallCalendar : Calendar where
  onAir t := if t < MINUTE then .anyTime else .slot "late" 1 none
  onAirDrawn t r := (if t < MINUTE then .anyTime else .slot "late" 1 none, r)

/-- Two films to a visit, on air until another slot takes over after a minute. -/
def nightfall : RuleConfig Unit where
  blocks := [{ body := .pattern {
    pools := [{ name := "films", expr := some "films", advance := .resume }]
    pattern := [{ pool := "films", take := .count 2 }] } }]
  slots := [("late", { body := .entries fun _ => .ok [(clip "talk" 1).1] })]
  calendar := some nightfallCalendar

theorem nightfall_change : nightfallCalendar.nextChange 0 (0 + (7200000000000 : ℕ)) = some MINUTE := by
  have hfuel : ((0 : ℤ) + (7200000000000 : ℕ) - 0).toNat = 7199999999999 + 1 := by omega
  unfold Calendar.nextChange
  rw [hfuel, Calendar.changeFrom]
  decide

theorem nightfall_airs : (filmEnv.resolveChannel nightfall {} (some 7200000000000) 0).toOption.map
    (fun r => (r.1.map (·.id), (filmEnv.estimatedRuntimes r.1).take 1)) =
      some (["f", "g"], [3600000000000]) := by
  decide

theorem resolveChannel_cut_nightfall : ∃ items out progress b,
    filmEnv.resolveChannel nightfall {} (some 7200000000000) 0 = .ok (items, out, progress) ∧
    Env.selected nightfall (some .anyTime) = [(0, b)] ∧
    ∃ cut : ℕ, 0 + cut ≤ MINUTE ∧ ∃ build found channelRule,
      filmEnv.drawn b {} (some cut) 0 channelRule = some (.ok build) ∧
      build.ids.mapM (filmEnv.catalogItem 0) = .ok found ∧
      items = (kept b.mode 0 found).map (fun e => { e.1 with block := 0 }) ∧
      ∀ k < build.ids.length, OpensWithin filmEnv b {} cut 0 channelRule build.ids k := by
  have hairs := nightfall_airs
  cases hrun : filmEnv.resolveChannel nightfall {} (some 7200000000000) 0 with
  | error e => simp [hrun, Except.toOption] at hairs
  | ok result =>
    obtain ⟨items, out, progress⟩ := result
    have hcal : nightfall.calendar = some nightfallCalendar := rfl
    have hcycles : ∀ b ∈ nightfall.allBlocks, ∀ block, b.body = .pattern block →
        block.cycles = none := by
      intro b hb block hbody
      rcases List.mem_pair.mp hb with rfl | rfl
      · obtain rfl := Body.pattern.inj hbody
        rfl
      · cases hbody
    have hcut := (resolveChannel_cut hcal hcycles nightfall_change hrun).2
    exact ⟨items, out, progress, _, rfl, rfl, hcut 0 _ rfl rfl⟩

/-- The visit in progress at the change is finished: its second film starts after it. -/
theorem nightfall_overruns : ∃ items out progress,
    filmEnv.resolveChannel nightfall {} (some 7200000000000) 0 = .ok (items, out, progress) ∧
    nightfallCalendar.nextChange 0 (0 + (7200000000000 : ℕ)) = some MINUTE ∧ 1 < items.length ∧
    MINUTE ≤ 0 + (((filmEnv.estimatedRuntimes items).take 1).sum : ℕ) := by
  have hairs := nightfall_airs
  cases hrun : filmEnv.resolveChannel nightfall {} (some 7200000000000) 0 with
  | error e => simp [hrun, Except.toOption] at hairs
  | ok result =>
    obtain ⟨items, out, progress⟩ := result
    simp only [hrun, Except.toOption, Option.map_some, Option.some.injEq, Prod.mk.injEq] at hairs
    have hlen := congrArg List.length hairs.1
    rw [List.length_map] at hlen
    refine ⟨items, out, progress, rfl, nightfall_change, ?_, ?_⟩
    · rw [hlen]
      decide
    · rw [hairs.2]
      decide

end EtvStation.Resolve
