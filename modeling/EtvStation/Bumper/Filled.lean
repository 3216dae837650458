import EtvStation.Bumper.Gap

/-! A filled generation. The pass moves no programme and lengthens none; every gap of an aligned
block runs to its grid line. -/
namespace EtvStation.Bumper

variable {β : Type}

theorem le_boundaryAtOrAfter (zone : Zone) (t : ℤ) {every : ℕ} (h : 0 < every) :
    t ≤ boundaryAtOrAfter zone t every := by
  unfold boundaryAtOrAfter
  have hstep : (max (every : ℤ) 1) = every := by omega
  dsimp only
  rw [hstep]
  set x := t - zone.localMidnightAtOrBefore t with hx
  have hlines : x ≤ every * (x + every - 1).tdiv every := by
    by_cases hneg : 0 ≤ x + every - 1
    · rw [Int.tdiv_eq_ediv_of_nonneg hneg]
      have hdiv := Int.mul_ediv_add_emod (x + every - 1) every
      have hmod := Int.emod_lt_of_pos (x + every - 1) (show (0 : ℤ) < every by omega)
      omega
    · obtain ⟨z, hz⟩ : ∃ z, x + every - 1 = -z := ⟨-(x + every - 1), by omega⟩
      rw [hz, Int.neg_tdiv, Int.tdiv_eq_ediv_of_nonneg (by omega)]
      have hdiv := Int.mul_ediv_add_emod z every
      have hmod := Int.emod_nonneg z (show (every : ℤ) ≠ 0 by omega)
      rw [mul_neg]
      omega
  omega

def FillEnv.drawn (env : FillEnv β) (plan : FillPlan) (at_ : ℤ) (prev : Option (ResolvedItem β))
    (ahead : List (ResolvedItem β)) (block : ℕ) (state : PassState) : List (Piece β) :=
  if onGrid plan.every at_ (boundaryAtOrAfter env.zone at_ plan.every) then []
  else ((env.gap plan at_ prev ahead block).fillLoop MAX_DRAWS_PER_GAP at_ state).1

/-- Whether an instant is within a millisecond of its line, or of the one before. -/
def NearLine (every : ℕ) (at_ boundary : ℤ) : Prop :=
  boundary - at_ < MILLISECOND ∨
    boundary - every ≤ at_ ∧ at_ - (boundary - every) < MILLISECOND

/-- A gap is filled rightly: what follows starts on the line, or at once when that is within a
millisecond of one, and pool items air at the length they have in their pool. -/
structure FillEnv.GapSound (env : FillEnv β) (plan : FillPlan) (at_ : ℤ)
    (prev : Option (ResolvedItem β)) (ahead : List (ResolvedItem β)) (block : ℕ)
    (state : PassState) : Prop where
  lands : let next := at_ + totalNs (env.fillGap plan at_ prev ahead block state).1
    let boundary := boundaryAtOrAfter env.zone at_ plan.every
    next = boundary ∨ next = at_ ∧ NearLine plan.every at_ boundary
  own : (env.fillGap plan at_ prev ahead block state).1.filter isPool =
    (env.drawn plan at_ prev ahead block state).filter isPool
  taken : ∀ p ∈ env.drawn plan at_ prev ahead block state, isPool p →
    ∃ name items, env.pools (block, name) = some items ∧ p ∈ items

/-- The line after a gap's start is not more than a step away, and no draw of the gap takes pool
items up to less than half a millisecond from it. -/
def FillEnv.GapFine (env : FillEnv β) (plan : FillPlan) (at_ : ℤ)
    (prev : Option (ResolvedItem β)) (ahead : List (ResolvedItem β)) (block : ℕ)
    (state : PassState) : Prop :=
  if onGrid plan.every at_ (boundaryAtOrAfter env.zone at_ plan.every) then
    boundaryAtOrAfter env.zone at_ plan.every - at_ ≤ plan.every
  else ¬ (env.gap plan at_ prev ahead block).Strands MAX_DRAWS_PER_GAP at_ state

section Taken

variable {g : GapEnv β}

theorem orBlack_taken {cursor : ℤ} {pieces : List (Piece β)} {state : PassState}
    (h : ∀ p ∈ pieces, isPool p → ∃ name items, g.env.pools (g.block, name) = some items ∧
      p ∈ items) : ∀ p ∈ (g.orBlack cursor pieces state).pieces, isPool p →
      ∃ name items, g.env.pools (g.block, name) = some items ∧ p ∈ items := by
  unfold GapEnv.orBlack
  split_ifs
  · intro p hp hpool
    rcases List.mem_append.mp hp with hp | hp
    · exact h p hp hpool
    · obtain rfl := List.mem_singleton.mp hp
      cases hpool
  · exact h

theorem black_taken {cursor length : ℤ} : ∀ p ∈ [g.env.blackPiece g.block cursor length],
    isPool p → ∃ name items, g.env.pools (g.block, name) = some items ∧ p ∈ items := by
  intro p hp hpool
  obtain rfl := List.mem_singleton.mp hp
  cases hpool

theorem drawAt_taken (draw : ℕ) (cursor : ℤ) (state : PassState) :
    ∀ p ∈ (g.drawAt draw cursor state).pieces, isPool p →
      ∃ name items, g.env.pools (g.block, name) = some items ∧ p ∈ items := by
  unfold GapEnv.drawAt
  dsimp only
  cases (g.order draw (g.around.boundary - cursor) state.used).1 with
  | nil => exact black_taken
  | cons first order =>
    dsimp only
    cases first.source with
    | pool name =>
      refine orBlack_taken fun p hp _ => ?_
      obtain ⟨q, hq, rfl⟩ := List.mem_map.mp hp
      obtain ⟨⟨items, hitems, hmem⟩, -⟩ := (poolPicks_spec g.env g.plan g.block name
        (g.around.boundary - cursor) state.used).1 q hq
      exact ⟨name, items, hitems, hmem⟩
    | script script =>
      dsimp only
      split
      · exact black_taken
      · refine orBlack_taken fun p hp hpool => ?_
        obtain ⟨item, -, rfl⟩ := List.mem_map.mp hp
        cases hpool

theorem fillLoop_taken (left : ℕ) (cursor : ℤ) (state : PassState) :
    ∀ p ∈ (g.fillLoop left cursor state).1, isPool p →
      ∃ name items, g.env.pools (g.block, name) = some items ∧ p ∈ items := by
  have hrest : ∀ cursor capped pieces, g.rest cursor capped = some pieces →
      ∀ p ∈ pieces, isPool p →
        ∃ name items, g.env.pools (g.block, name) = some items ∧ p ∈ items := by
    intro cursor capped pieces h
    unfold GapEnv.rest at h
    dsimp only at h
    split_ifs at h
    · obtain rfl := Option.some.inj h
      exact fun p hp => absurd hp List.not_mem_nil
    · obtain rfl := Option.some.inj h
      exact black_taken
  induction left generalizing cursor state with
  | zero =>
    rw [GapEnv.fillLoop]
    cases h : g.rest cursor true with
    | none => exact fun p hp => absurd hp List.not_mem_nil
    | some pieces => exact hrest _ _ _ h
  | succ left ih =>
    rw [GapEnv.fillLoop]
    cases h : g.rest cursor false with
    | some pieces => exact hrest _ _ _ h
    | none =>
      dsimp only
      split_ifs
      · exact drawAt_taken _ _ _
      · intro p hp
        rcases List.mem_append.mp hp with hp | hp
        · exact drawAt_taken _ _ _ p hp
        · exact ih _ _ p hp

end Taken

/-- A gap is filled rightly exactly when it is fine to fill. -/
theorem FillEnv.gapSound_iff (env : FillEnv β) {plan : FillPlan}
    (hevery : MILLISECOND ≤ plan.every) (at_ : ℤ) (prev : Option (ResolvedItem β))
    (ahead : List (ResolvedItem β)) (block : ℕ) (state : PassState) :
    env.GapSound plan at_ prev ahead block state ↔ env.GapFine plan at_ prev ahead block state := by
  have hle := le_boundaryAtOrAfter env.zone at_
    (show 0 < plan.every by simp only [MILLISECOND] at hevery; omega)
  set boundary := boundaryAtOrAfter env.zone at_ plan.every with hboundary
  by_cases hgrid : onGrid plan.every at_ boundary
  · have hgap : (env.fillGap plan at_ prev ahead block state).1 = [] := by
      unfold FillEnv.fillGap
      rw [← hboundary, if_pos hgrid]
    have hdrawn : env.drawn plan at_ prev ahead block state = [] := by
      unfold FillEnv.drawn
      rw [← hboundary, if_pos hgrid]
    have hfine : env.GapFine plan at_ prev ahead block state ↔ boundary - at_ ≤ plan.every := by
      unfold FillEnv.GapFine
      rw [← hboundary, if_pos hgrid]
    rw [hfine]
    simp only [onGrid, Bool.or_eq_true, decide_eq_true_eq] at hgrid
    constructor
    · intro h
      have hlands := h.lands
      rw [hgap] at hlands
      simp only [totalNs, List.map_nil, List.sum_nil, NearLine] at hlands
      simp only [MILLISECOND] at *
      omega
    · intro hstep
      refine ⟨?_, by rw [hgap, hdrawn], by simp [hdrawn]⟩
      rw [hgap]
      simp only [totalNs, List.map_nil, List.sum_nil, NearLine]
      simp only [MILLISECOND] at *
      omega
  · set pieces := ((env.gap plan at_ prev ahead block).fillLoop MAX_DRAWS_PER_GAP at_ state).1
      with hpieces
    have hgap : (env.fillGap plan at_ prev ahead block state).1 = landOn at_ boundary 8 pieces := by
      unfold FillEnv.fillGap
      rw [← hboundary, if_neg hgrid]
    have hdrawn : env.drawn plan at_ prev ahead block state = pieces := by
      unfold FillEnv.drawn
      rw [← hboundary, if_neg hgrid]
    have hfills := (env.gap plan at_ prev ahead block).fillLoop_fills
      MAX_DRAWS_PER_GAP at_ state
    have hreach : ∀ p, pieces.getLast? = some p → at_ + totalNs pieces - boundary ≤ p.2 :=
      hfills.reaches
    have hfine : env.GapFine plan at_ prev ahead block state ↔
        ¬ ∃ p, pieces.getLast? = some p ∧ p.1.bumper = none ∧
          at_ + totalNs pieces ≠ boundary := by
      unfold FillEnv.GapFine
      rw [← hboundary, if_neg hgrid, GapEnv.strands_iff]
      rfl
    rw [hfine, ← landOn_pool_iff 7 hreach, ← hgap, ← hdrawn]
    refine ⟨fun h => h.own, fun hown => ⟨?_, hown, ?_⟩⟩
    · dsimp only
      rw [hgap]
      by_cases hnil : pieces = []
      · right
        rw [hnil, landOn_nil]
        have hdone := hfills.nil hnil
        change boundary ≤ at_ ∨ roundMs (boundary - at_) = 0 at hdone
        have hround := GapEnv.roundMs_bounds (show 0 ≤ boundary - at_ by omega)
        refine ⟨by simp [totalNs], Or.inl ?_⟩
        rcases hdone with hdone | hdone
        · simp only [MILLISECOND]
          omega
        · rw [hdone] at hround
          simp only [MILLISECOND] at *
          omega
      · left
        have hlast := List.getLast?_eq_some_getLast hnil
        by_cases hmiss : at_ + totalNs pieces = boundary
        · rw [landOn_of_eq _ hmiss, hmiss]
        · exact (landOn_last 7 hlast hmiss (hreach _ hlast)).2
    · rw [hdrawn]
      exact fillLoop_taken _ _ _

/-- `P` of every gap after an item of an aligned block, the items laid from `at_`. -/
def FillEnv.EveryGap (env : FillEnv β)
    (P : FillPlan → ℤ → Option (ResolvedItem β) → List (ResolvedItem β) → ℕ → PassState → Prop) :
    List (Piece β) → ℤ → PassState → Prop
  | [], _, _ => True
  | (item, duration) :: rest, at_, state =>
    (∀ plan, env.planFor item = some plan →
      P plan (at_ + duration) (some item) (rest.map Prod.fst) item.block state) ∧
    EveryGap env P rest
      (at_ + duration + totalNs (env.after item (at_ + duration) (rest.map Prod.fst) state).1)
      (env.after item (at_ + duration) (rest.map Prod.fst) state).2

/-- `P` of every gap the pass fills. -/
structure FillEnv.EveryGapOf (env : FillEnv β)
    (P : FillPlan → ℤ → Option (ResolvedItem β) → List (ResolvedItem β) → ℕ → PassState → Prop)
    (items : List (Piece β)) (start : ℤ) (leading : Bool) : Prop where
  lead : leading → ∀ first ∈ items.head?, ∀ plan, env.planFor first.1 = some plan →
    P plan start none (items.map Prod.fst) first.1.block {}
  after : env.EveryGap P items (start + totalNs (env.fillLead items start leading {}).1)
    (env.fillLead items start leading {}).2

/-- The schedule with each item beside its length and its state. -/
def Laid.entries (laid : Laid β) : List (Piece β × Progress) :=
  (laid.items.zip laid.durations).zip laid.progress

structure FillEnv.Filled (env : FillEnv β) (laid : Laid β) (skip : ℕ) (start : ℤ)
    (leading : Bool) (endProgress : Progress) (out : Laid β) : Prop where
  /-- One length and one state an item. -/
  lengths : out.durations.length = out.items.length ∧ out.progress.length = out.items.length
  /-- The items come back in order, with their own lengths and states. -/
  order : laid.entries.Sublist out.entries
  /-- Between them stand the pieces of each gap, with the state entering the item after. -/
  woven : let aired := (laid.items.zip laid.durations).drop skip
    let lead := env.fillLead aired start leading {}
    out.entries = laid.entries.take skip ++
      carry (((laid.entries.drop skip).head?.map Prod.snd).getD endProgress) lead.1 ++
      weave endProgress (laid.entries.drop skip)
        (env.fillAfter aired (start + totalNs lead.1) lead.2).1
  /-- Every gap runs to its line, and pool items keep their length. -/
  gaps : env.EveryGapOf env.GapSound ((laid.items.zip laid.durations).drop skip) start leading

theorem everyGap_iff {env : FillEnv β}
    {P Q : FillPlan → ℤ → Option (ResolvedItem β) → List (ResolvedItem β) → ℕ → PassState → Prop}
    (h : ∀ item plan, env.planFor item = some plan → ∀ at_ prev ahead block state,
      P plan at_ prev ahead block state ↔ Q plan at_ prev ahead block state)
    (items : List (Piece β)) (at_ : ℤ) (state : PassState) :
    env.EveryGap P items at_ state ↔ env.EveryGap Q items at_ state := by
  induction items generalizing at_ state with
  | nil => exact Iff.rfl
  | cons entry items ih =>
    obtain ⟨item, duration⟩ := entry
    simp only [FillEnv.EveryGap, ih]
    refine and_congr_left fun _ => forall_congr' fun plan => forall_congr' fun hplan => ?_
    exact h item plan hplan _ _ _ _ _

theorem everyGapOf_iff {env : FillEnv β}
    {P Q : FillPlan → ℤ → Option (ResolvedItem β) → List (ResolvedItem β) → ℕ → PassState → Prop}
    (h : ∀ item plan, env.planFor item = some plan → ∀ at_ prev ahead block state,
      P plan at_ prev ahead block state ↔ Q plan at_ prev ahead block state)
    (items : List (Piece β)) (start : ℤ) (leading : Bool) :
    env.EveryGapOf P items start leading ↔ env.EveryGapOf Q items start leading := by
  constructor
  · rintro ⟨hlead, hafter⟩
    exact ⟨fun hl first hfirst plan hplan => (h _ _ hplan _ _ _ _ _).mp
      (hlead hl first hfirst plan hplan), (everyGap_iff h _ _ _).mp hafter⟩
  · rintro ⟨hlead, hafter⟩
    exact ⟨fun hl first hfirst plan hplan => (h _ _ hplan _ _ _ _ _).mpr
      (hlead hl first hfirst plan hplan), (everyGap_iff h _ _ _).mpr hafter⟩

theorem weave_sublist (endProgress : Progress) (entries : List (Piece β × Progress))
    (gaps : List (List (Piece β))) : entries.Sublist (weave endProgress entries gaps) := by
  induction entries generalizing gaps with
  | nil => exact List.nil_sublist _
  | cons entry entries ih =>
    rw [weave]
    exact ((ih gaps.tail).trans (List.sublist_append_right _ _)).cons_cons _

theorem weave_nil (endProgress : Progress) (entries : List (Piece β × Progress))
    {gaps : List (List (Piece β))} (h : ∀ gap ∈ gaps, gap = []) :
    weave endProgress entries gaps = entries := by
  induction entries generalizing gaps with
  | nil => rfl
  | cons entry entries ih =>
    have hhead : gaps.headD [] = [] := by
      cases gaps with
      | nil => rfl
      | cons gap gaps => exact h gap List.mem_cons_self
    rw [weave, hhead, ih fun gap hgap => h gap (List.mem_of_mem_tail hgap)]
    rfl

/-- Where no block aligns, no gap is filled. -/
theorem planFor_of_none {env : FillEnv β} (h : env.plans.all Option.isNone)
    (item : ResolvedItem β) : env.planFor item = none := by
  unfold FillEnv.planFor
  cases hplan : env.plans[item.block]? with
  | none => rfl
  | some plan =>
    have := List.all_eq_true.mp h plan (List.mem_of_getElem? hplan)
    rw [Option.isNone_iff_eq_none.mp this]
    rfl

theorem fillAfter_none {env : FillEnv β} (h : ∀ item, env.planFor item = none)
    (items : List (Piece β)) (at_ : ℤ) (state : PassState) :
    ∀ gap ∈ (env.fillAfter items at_ state).1, gap = [] := by
  induction items generalizing at_ state with
  | nil => simp [FillEnv.fillAfter]
  | cons entry items ih =>
    obtain ⟨item, duration⟩ := entry
    intro gap hgap
    simp only [FillEnv.fillAfter, FillEnv.after, h] at hgap
    rcases List.mem_cons.mp hgap with rfl | hgap
    · rfl
    · exact ih _ _ gap hgap

theorem fillLead_none {env : FillEnv β} (h : ∀ item, env.planFor item = none)
    (items : List (Piece β)) (start : ℤ) (leading : Bool) (state : PassState) :
    (env.fillLead items start leading state).1 = [] := by
  unfold FillEnv.fillLead
  cases items.head? with
  | none => rfl
  | some first => simp only [h]

theorem entries_of_triples (out : List (Piece β × Progress)) (records : List BumperRow) :
    (⟨out.map (·.1.1), out.map (·.1.2), out.map Prod.snd, records⟩ : Laid β).entries = out := by
  unfold Laid.entries
  induction out with
  | nil => rfl
  | cons entry out ih =>
    simp only [List.map_cons, List.zip_cons_cons, ih]

/-- The pass makes one schedule of the items and the pieces of every gap. -/
theorem fillGaps_woven (env : FillEnv β) {laid : Laid β}
    (hlengths : laid.durations.length = laid.items.length ∧
      laid.progress.length = laid.items.length)
    (skip : ℕ) (start : ℤ) (leading : Bool) (endProgress : Progress) :
    let out := fillGaps env laid skip start leading endProgress
    let aired := (laid.items.zip laid.durations).drop skip
    let lead := env.fillLead aired start leading {}
    (out.durations.length = out.items.length ∧ out.progress.length = out.items.length) ∧
      out.entries = laid.entries.take skip ++
        carry (((laid.entries.drop skip).head?.map Prod.snd).getD endProgress) lead.1 ++
        weave endProgress (laid.entries.drop skip)
          (env.fillAfter aired (start + totalNs lead.1) lead.2).1 := by
  dsimp only
  by_cases hidle : env.plans.all Option.isNone || decide (laid.items.length ≤ skip)
  · rw [fillGaps, if_pos hidle]
    refine ⟨hlengths, ?_⟩
    rcases Bool.or_eq_true _ _ ▸ hidle with hnone | hskip
    · have hplan := planFor_of_none hnone
      rw [fillLead_none hplan, weave_nil _ _ (fillAfter_none hplan _ _ _), carry, List.map_nil,
        List.append_nil]
      exact (List.take_append_drop _ _).symm
    · have hskip : laid.items.length ≤ skip := of_decide_eq_true hskip
      have haired : (laid.items.zip laid.durations).drop skip = [] :=
        List.drop_eq_nil_of_le (by rw [List.length_zip]; omega)
      have hentries : laid.entries.drop skip = [] :=
        List.drop_eq_nil_of_le (by simp only [Laid.entries, List.length_zip]; omega)
      rw [haired, hentries]
      simp only [FillEnv.fillLead, List.head?_nil, carry, List.map_nil, List.append_nil, weave]
      exact (List.take_of_length_le (by simp only [Laid.entries, List.length_zip]; omega)).symm
  · rw [fillGaps, if_neg hidle]
    exact ⟨by simp, entries_of_triples _ _⟩

/-- The pass fills a generation rightly exactly when every gap of it is fine to fill. -/
theorem fillGaps_filled_iff (env : FillEnv β) {laid : Laid β}
    (hlengths : laid.durations.length = laid.items.length ∧
      laid.progress.length = laid.items.length)
    (hevery : ∀ plan, some plan ∈ env.plans → MILLISECOND ≤ plan.every)
    (skip : ℕ) (start : ℤ) (leading : Bool) (endProgress : Progress) :
    env.Filled laid skip start leading endProgress
        (fillGaps env laid skip start leading endProgress) ↔
      env.EveryGapOf env.GapFine ((laid.items.zip laid.durations).drop skip) start leading := by
  have hplans : ∀ item plan, env.planFor item = some plan → MILLISECOND ≤ plan.every := by
    intro item plan hplan
    exact hevery plan (List.mem_of_getElem? (Option.join_eq_some_iff.mp hplan))
  rw [← everyGapOf_iff fun item plan hplan at_ prev ahead block state =>
    env.gapSound_iff (hplans item plan hplan) at_ prev ahead block state]
  obtain ⟨hout, hwoven⟩ := fillGaps_woven env hlengths skip start leading endProgress
  refine ⟨fun h => h.gaps, fun hgaps => ⟨hout, ?_, hwoven, hgaps⟩⟩
  rw [hwoven]
  conv_lhs => rw [← List.take_append_drop skip laid.entries]
  exact List.Sublist.append (List.sublist_append_left _ _) (weave_sublist _ _ _)

/-- A clock on UTC, half-hour lines and a pool of shorts that may fill a gap to the end. -/
def shortsEnv (minFill shortNs : ℕ) : FillEnv Unit where
  channel := "one"
  idPrefix := "bumper:"
  zone := ⟨0, fun _ => 0, fun _ => by decide⟩
  plans := [some ⟨1800000000000, minFill, [{ source := .pool "shorts", weight := 1 }]⟩]
  pools key := if key = (0, "shorts") then
    some [(⟨"short", 0, .local_ "/shorts/1.mkv" none none, none, false, ()⟩, shortNs)] else none
  evaluates _ _ _ := true
  build _ _ _ _ _ := .error "no script"
  lenMs _ := none
  stillGraph _ := ""
  dress _ := ()
  blank := ()
  airDate _ := "1970-01-01"

/-- One programme of twenty-five minutes from a line. -/
def evening : Laid Unit where
  items := [⟨"film", 0, .local_ "/film.mkv" none none, none, false, ()⟩]
  durations := [1500000000000]
  progress := [{}]

theorem fillGaps_filled_iff_evening :
    (shortsEnv 2000000000 240000000000).Filled evening 0 0 true {}
        (fillGaps (shortsEnv 2000000000 240000000000) evening 0 0 true {}) ↔
      (shortsEnv 2000000000 240000000000).EveryGapOf
        (shortsEnv 2000000000 240000000000).GapFine
        ((evening.items.zip evening.durations).drop 0) 0 true :=
  fillGaps_filled_iff _ ⟨rfl, rfl⟩ (by simp [shortsEnv, MILLISECOND]) 0 0 true {}

/-- The short leaves a third of a millisecond of its gap, and airs that much longer than it
is. -/
theorem evening_stretches_short :
    (fillGaps (shortsEnv 0 299999700000) evening 0 0 true {}).durations =
        [1500000000000, 300000000000] ∧
      ¬ (shortsEnv 0 299999700000).Filled evening 0 0 true {}
        (fillGaps (shortsEnv 0 299999700000) evening 0 0 true {}) := by
  refine ⟨by decide +kernel, fun h => ?_⟩
  have hown := (h.gaps.after.1 _ rfl).own
  have hlengths := congrArg (List.map Prod.snd) hown
  revert hlengths
  decide +kernel

end EtvStation.Bumper
