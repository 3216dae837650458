import EtvStation.Pattern.Reachable

/-! A visit is never cut short in silence: it gives what it resolves to, or, where its pool lets
a series run out, what the series had. -/
namespace EtvStation.PoolRuntime

section Turns

variable {rt : PoolRuntime}

theorem seriesAt_isSome (h : rt.series ≠ []) (i : ℕ) : (rt.seriesAt i).isSome = true := by
  have hempty : rt.series.isEmpty = false := by
    rw [Bool.eq_false_iff, ne_eq, List.isEmpty_iff]
    exact h
  rw [seriesAt, hempty]
  rfl

theorem seriesAfter_eq {si : ℕ} (h : si < rt.series.length) :
    rt.seriesAfter si = some ((si + 1) % rt.series.length) := by
  have hempty : rt.series.isEmpty = false := by
    rw [Bool.eq_false_iff, ne_eq, List.isEmpty_iff]
    exact List.ne_nil_of_length_pos (Nat.zero_lt_of_lt h)
  rw [seriesAfter, seriesAt, hempty]
  rfl

theorem eligibleFrom_isSome (h : rt.series ≠ []) (start : ℕ) (ch : ChannelHistory) :
    (rt.eligibleFrom start ch).1.isSome = true := by
  unfold eligibleFrom
  split_ifs with hfree hempty
  · rfl
  · exact absurd (List.isEmpty_iff.mp hempty) h
  · rfl

theorem pick_isSome (h : rt.series ≠ []) (roll : RollKey) (nonce : UInt64) :
    (rt.pick roll nonce).isSome = true := by
  unfold pick
  cases rt.cfg.select with
  | roundRobin => exact seriesAt_isSome h _
  | random => exact seriesAt_isSome h _

theorem eligiblePick_isSome (h : rt.series ≠ []) (roll : RollKey) (nonce : UInt64)
    (ch : ChannelHistory) : (rt.eligiblePick roll nonce ch).1.isSome = true := by
  obtain ⟨first, hfirst⟩ := Option.isSome_iff_exists.mp (pick_isSome h roll nonce)
  unfold eligiblePick
  rw [hfirst]
  dsimp only
  split_ifs with hfree hrandom
  · rfl
  · cases rt.reroll roll nonce (rt.noteBlocked first ch) with
    | some si => rfl
    | none => rfl
  · rfl

theorem firstSeries_isSome (h : rt.series ≠ []) (roll : RollKey) (nonce : UInt64)
    (ch : ChannelHistory) : (rt.firstSeries roll nonce ch).1.isSome = true := by
  have hhold : rt.endHold.series ≠ [] := by
    rw [rt.endHold_chose.series_eq]
    exact h
  have hpick := eligiblePick_isSome hhold roll nonce ch
  unfold firstSeries
  cases rt.period with
  | none => exact eligiblePick_isSome h roll nonce ch
  | some period =>
    obtain ⟨periodStart, periodEnd⟩ := period
    dsimp only
    cases rt.hold.bind fun hold => (rt.heldSeries hold periodStart).map fun si => (hold, si) with
    | some held => rfl
    | none =>
      dsimp only
      generalize rt.endHold.eligiblePick roll nonce ch = picked at hpick ⊢
      obtain ⟨first, rt₁, ch₁⟩ := picked
      cases first with
      | none => cases hpick
      | some si => rfl

/-- Whoever a short visit turns to, it turns to somebody unless the pool says to stop. -/
theorem shortTurn_isSome (h : rt.series ≠ []) (hshort : rt.cfg.onShort ≠ .short) (si : ℕ)
    (ch : ChannelHistory) : (rt.shortTurn si ch).1.isSome = true := by
  obtain ⟨next, hnext⟩ := Option.isSome_iff_exists.mp (seriesAt_isSome h (si + 1))
  unfold shortTurn
  cases honShort : rt.cfg.onShort with
  | next =>
    dsimp only
    rw [seriesAfter, hnext]
    exact eligibleFrom_isSome h next ch
  | wrap => rfl
  | short => exact absurd honShort hshort

end Turns

section Loop

variable (cat : Catalog) {take : ℕ} {s : Serving} {si : ℕ}

/-- What one pass on `si` leaves. -/
def Serving.pass (take : ℕ) (s : Serving) (si : ℕ) : Serving :=
  s.took cat (s.rt.takeFrom si (take - s.out.length)).2 si
    (s.rt.takeFrom si (take - s.out.length)).1

/-- The visit after the turn passed on from `si`. -/
def Serving.turned (s : Serving) (si : ℕ) : Serving :=
  { s with
    rt := (s.rt.shortTurn si s.channel).2.1
    channel := (s.rt.shortTurn si s.channel).2.2 }

theorem turned_rt (s : Serving) (si : ℕ) : s.rt.Chose (s.turned si).rt :=
  s.rt.shortTurn_chose si s.channel

/-- A pass that still wants something draws from the cursor on, no more than it wants. -/
theorem pass_continues (hr : InRange s.rt.series) (hsi : si < s.rt.series.length)
    (hneed : s.out.length < take) :
    s.Continues (s.pass cat take si) [(si, (s.rt.takeFrom si (take - s.out.length)).1)] ∧
      s.out.length < (s.pass cat take si).out.length ∧
      (s.pass cat take si).out.length ≤ take := by
  have hwant : 0 < take - s.out.length := Nat.sub_pos_of_lt hneed
  have hget := exists_getElem? hsi
  obtain ⟨hne, -⟩ := takeFrom_drew hget (hr _ (List.mem_of_getElem? hget)) hwant
  have hpos := List.length_pos_iff.mpr hne
  have hle : (s.rt.takeFrom si (take - s.out.length)).1.length ≤ take - s.out.length := by
    simp only [takeFrom, List.length_take, List.length_drop]
    omega
  have hout : (s.pass cat take si).out.length =
      s.out.length + (s.rt.takeFrom si (take - s.out.length)).1.length := List.length_append
  refine ⟨took_continues cat hsi hr hwant (Chose.refl _), ?_, ?_⟩
  · omega
  · omega

theorem serveLoop_pass (passes : ℕ) (hr : InRange s.rt.series) (hsi : si < s.rt.series.length)
    (hneed : s.out.length < take) :
    serveLoop cat take (passes + 1) (some si) s =
      if take ≤ (s.pass cat take si).out.length then s.pass cat take si
      else serveLoop cat take passes
        ((s.pass cat take si).rt.shortTurn si (s.pass cat take si).channel).1
        ((s.pass cat take si).turned si) := by
  have hwant : 0 < take - s.out.length := Nat.sub_pos_of_lt hneed
  have hget := exists_getElem? hsi
  obtain ⟨hne, -⟩ := takeFrom_drew hget (hr _ (List.mem_of_getElem? hget)) hwant
  have hempty : (s.rt.takeFrom si (take - s.out.length)).1.isEmpty = false := by
    rw [Bool.eq_false_iff, ne_eq, List.isEmpty_iff]
    exact hne
  simp only [serveLoop, hempty, Bool.false_eq_true, if_false]
  rfl

/-- Where a pass leaves the pool, the next one starts from. -/
theorem turned_ready (hr : InRange s.rt.series) (hsi : si < s.rt.series.length)
    (hneed : s.out.length < take) :
    InRange ((s.pass cat take si).turned si).rt.series ∧
      ((s.pass cat take si).turned si).rt.series.length = s.rt.series.length ∧
      ((s.pass cat take si).turned si).rt.cfg = s.rt.cfg := by
  obtain ⟨hcont, -, -⟩ := pass_continues cat hr hsi hneed
  have hchose := turned_rt (s.pass cat take si) si
  rw [hchose.series_eq, hchose.cfg_eq, hcont.drew.length_eq, hcont.moved.cfg_eq]
  exact ⟨hcont.drew.inRange hr, rfl, rfl⟩

/-- The loop fills the visit exactly, and no longer bound would let it draw more. -/
theorem serveLoop_fills (passes : ℕ) (hr : InRange s.rt.series)
    (hsi : si < s.rt.series.length) (hshort : s.rt.cfg.onShort ≠ .short)
    (hneed : s.out.length < take) (hpasses : take - s.out.length ≤ passes) :
    (serveLoop cat take passes (some si) s).out.length = take := by
  induction passes generalizing s si with
  | zero => omega
  | succ passes ih =>
    obtain ⟨hcont, hmore, hle⟩ := pass_continues cat hr hsi hneed
    obtain ⟨hrange, hlength, hcfg⟩ := turned_ready cat hr hsi hneed
    rw [serveLoop_pass cat passes hr hsi hneed]
    split_ifs with hdone
    · omega
    · have hne : (s.pass cat take si).rt.series ≠ [] := by
        have hlen := hcont.drew.length_eq
        apply List.ne_nil_of_length_pos
        omega
      have hshort' : (s.pass cat take si).rt.cfg.onShort ≠ .short := by
        rw [hcont.moved.cfg_eq]
        exact hshort
      obtain ⟨next, hnext⟩ := Option.isSome_iff_exists.mp
        (shortTurn_isSome hne hshort' si (s.pass cat take si).channel)
      have hlt : si < (s.pass cat take si).rt.series.length := by
        rw [hcont.drew.length_eq]
        exact hsi
      have hnextlt := shortTurn_lt hlt hnext
      rw [hnext]
      apply ih hrange
      · rw [hlength, ← hcont.drew.length_eq]
        exact hnextlt
      · rw [hcfg]
        exact hshort
      · exact Nat.lt_of_not_le hdone
      · have hsame : ((s.pass cat take si).turned si).out = (s.pass cat take si).out := rfl
        rw [hsame]
        omega

/-- A pool that stops when a series runs out gives one pass, of one item at least. -/
theorem serveLoop_short (passes : ℕ) (hr : InRange s.rt.series)
    (hsi : si < s.rt.series.length) (hshort : s.rt.cfg.onShort = .short)
    (hneed : s.out.length < take) :
    s.out.length < (serveLoop cat take (passes + 1) (some si) s).out.length ∧
      (serveLoop cat take (passes + 1) (some si) s).out.length ≤ take := by
  obtain ⟨hcont, hmore, hle⟩ := pass_continues cat hr hsi hneed
  rw [serveLoop_pass cat passes hr hsi hneed]
  split_ifs with hdone
  · exact ⟨hmore, hle⟩
  · have hcfg : (s.pass cat take si).rt.cfg.onShort = .short := by
      rw [hcont.moved.cfg_eq]
      exact hshort
    have hstop : ((s.pass cat take si).rt.shortTurn si (s.pass cat take si).channel).1 = none := by
      unfold shortTurn
      rw [hcfg]
    rw [hstop]
    cases passes with
    | zero => exact ⟨hmore, hle⟩
    | succ n => exact ⟨hmore, hle⟩

end Loop

section Visits

variable {cat : Catalog} {rt rt' : PoolRuntime} {from_ : TakeFrom} {roll : RollKey}
  {ch ch' : ChannelHistory} {out : List EntryId}

/-- What a visit that draws `take` items or fewer gave: all of them, unless its pool lets a
series run out. -/
structure Filled (onShort : OnShort) (take drawn : ℕ) : Prop where
  full : onShort ≠ .short → drawn = take
  le : drawn ≤ take
  some : 0 < take → 0 < drawn

theorem serveDraws_filled (hr : InRange rt.series) {si : ℕ} (hsi : si < rt.series.length)
    (take : ℕ) (nonce : UInt64) :
    Filled rt.cfg.onShort take
      (rt.serveDraws cat from_ (some si) take roll nonce ch).1.length := by
  cases take with
  | zero =>
    rw [(serveDraws_zero cat rt from_ (some si) roll nonce ch).1]
    exact ⟨fun _ => rfl, le_rfl, id⟩
  | succ n =>
    have hget := exists_getElem? hsi
    obtain ⟨c, hc, -, hplaced⟩ := placeCursor_series hget
      (hr _ (List.mem_of_getElem? hget)) (Nat.succ_pos n) from_ roll nonce
    have hcfg := (placeCursor_moved rt from_ si (n + 1) roll nonce).cfg_eq
    set placed := rt.placeCursor from_ si (n + 1) roll nonce with hp
    have hlen : placed.series.length = rt.series.length := by rw [hplaced, List.length_set]
    have hrange : InRange placed.series := by
      rw [hplaced]
      exact hr.set hc
    have hsi' : si < placed.series.length := by
      rw [hlen]
      exact hsi
    have hout : (rt.serveDraws cat from_ (some si) (n + 1) roll nonce ch).1 =
        (serveLoop cat (n + 1) (n + 1 + placed.series.length + 1) (some si)
          { rt := placed, channel := ch }).out := rfl
    have hneed : ({ rt := placed, channel := ch } : Serving).out.length < n + 1 := Nat.succ_pos n
    rw [hout, ← hcfg]
    by_cases hshort : placed.cfg.onShort = .short
    · obtain ⟨hpos, hle⟩ := serveLoop_short cat (n + 1 + placed.series.length) hrange hsi'
        hshort hneed
      exact ⟨fun hne => absurd hshort hne, hle, fun _ => hpos⟩
    · have hfull := serveLoop_fills cat (n + 1 + placed.series.length + 1) hrange hsi' hshort
        hneed (by simp only [List.length_nil]; omega)
      rw [hfull]
      exact ⟨fun _ => rfl, le_rfl, id⟩

/-- How many items a visit resolves to: its slots, or what the series it opens on is asked for
less the `done` that aired before. -/
def resolvedTake (rt : PoolRuntime) (take : Take) (roll : RollKey) (done : ℕ)
    (ch : ChannelHistory) : Option ℕ :=
  let opened := ({ rt with visitResumable := false } : PoolRuntime).firstSeries roll 0 ch
  match rt.cfg.rotate with
  | .slot => some (resolveTake take roll).slots
  | .visit | .span _ => opened.2.1.serveTake (resolveTake take roll) opened.1 done

/-- The count a visit was asked for, by its step or by an override. -/
def authoredVisit (rt : PoolRuntime) (take : Take) (roll : RollKey) (ch : ChannelHistory) :
    Option ℕ :=
  let opened := ({ rt with visitResumable := false } : PoolRuntime).firstSeries roll 0 ch
  match rt.cfg.rotate with
  | .slot => some (resolveTake take roll).slots
  | .visit | .span _ => opened.2.1.authoredTake (resolveTake take roll) opened.1

/-- A visit that opens on a series knows how much to draw. -/
theorem serveTake_ne_none (rt : PoolRuntime) (want : Draw) (si done : ℕ) :
    rt.serveTake want (some si) done ≠ none := by
  intro hnone
  unfold serveTake at hnone
  split at hnone
  · cases hnone
  · cases hnone
  · cases hnone
  · next hfirst => cases hfirst

theorem serve_filled (hr : InRange rt.series) (hne : rt.series ≠ []) {want : Draw}
    {nonce : UInt64} {done : ℕ}
    (h : rt.serve cat want from_ roll nonce done ch = .ok (out, rt', ch')) :
    ∃ n, (rt.firstSeries roll nonce ch).2.1.serveTake want (rt.firstSeries roll nonce ch).1 done =
        some n ∧ Filled rt.cfg.onShort n out.length := by
  obtain ⟨si, hsi⟩ := Option.isSome_iff_exists.mp (firstSeries_isSome hne roll nonce ch)
  have hchose := rt.firstSeries_chose roll nonce ch
  have hlt : si < (rt.firstSeries roll nonce ch).2.1.series.length := by
    rw [hchose.series_eq]
    exact firstSeries_lt hsi
  rcases serve_cases h with ⟨hnone, -, -⟩ | ⟨take, htake, heq⟩
  · rw [hsi] at hnone
    exact absurd hnone (serveTake_ne_none _ _ _ _)
  · refine ⟨take, htake, ?_⟩
    have hrange : InRange (rt.firstSeries roll nonce ch).2.1.series := by
      rw [hchose.series_eq]
      exact hr
    have hfilled := @serveDraws_filled cat _ from_ roll (rt.firstSeries roll nonce ch).2.2 hrange
      si hlt take nonce
    rw [hsi] at heq
    rw [← heq, hchose.cfg_eq] at hfilled
    exact hfilled

/-- Only a count above the maximum is refused. -/
theorem serve_error {want : Draw} {nonce : UInt64} {done : ℕ} {m : String}
    (h : rt.serve cat want from_ roll nonce done ch = .error m) :
    ∃ a, (rt.firstSeries roll nonce ch).2.1.authoredTake want (rt.firstSeries roll nonce ch).1 =
      some a ∧ MAX_TAKE < a ∧ m = takeError a := by
  unfold serve at h
  generalize rt.firstSeries roll nonce ch = f at h ⊢
  obtain ⟨first, rt₁, ch₁⟩ := f
  dsimp only at h ⊢
  cases htake : rt₁.serveTake want first done with
  | none =>
    rw [htake] at h
    cases h
  | some take =>
    rw [htake] at h
    dsimp only at h
    cases hauthored : rt₁.authoredTake want first with
    | none =>
      rw [hauthored] at h
      cases h
    | some a =>
      rw [hauthored] at h
      dsimp only at h
      split_ifs at h with hmax
      exact ⟨a, rfl, hmax, (Except.error.inj h).symm⟩

/-- A slot asks for one item, whatever the overrides say. -/
theorem slot_take (hslot : rt.cfg.rotate = .slot) (nonce : UInt64) :
    (rt.firstSeries roll nonce ch).2.1.serveTake (.count 1) (rt.firstSeries roll nonce ch).1 0 =
        some 1 ∧
      (rt.firstSeries roll nonce ch).2.1.authoredTake (.count 1)
        (rt.firstSeries roll nonce ch).1 = some 1 := by
  have hnone : (rt.firstSeries roll nonce ch).2.1.overrideTake (rt.firstSeries roll nonce ch).1 =
      none := by
    unfold overrideTake
    rw [(rt.firstSeries_chose roll nonce ch).cfg_eq, hslot]
  unfold serveTake authoredTake
  rw [hnone]
  exact ⟨rfl, rfl⟩

theorem serveSlots_filled {left slot : ℕ} {out out' : List EntryId} (hr : InRange rt.series)
    (hne : rt.series ≠ []) (hslot : rt.cfg.rotate = .slot)
    (h : serveSlots cat from_ roll left slot out rt ch = .ok (out', rt', ch')) :
    out'.length = out.length + left := by
  induction left generalizing slot rt ch out with
  | zero =>
    simp only [serveSlots, Except.ok.injEq, Prod.mk.injEq] at h
    rw [← h.1, Nat.add_zero]
  | succ left ih =>
    rw [serveSlots] at h
    have hdry : rt.isDry = false := by
      rw [isDry, Bool.eq_false_iff, ne_eq, List.isEmpty_iff]
      exact hne
    rw [hdry] at h
    obtain ⟨⟨ids, rt₁, ch₁⟩, hone, h⟩ := Lib.bind_eq_ok.mp h
    have hkept := serve_kept hr hone
    obtain ⟨n, htake, hfilled⟩ := serve_filled hr hne hone
    rw [(slot_take hslot _).1] at htake
    obtain rfl := Option.some.inj htake
    have hids : ids.length = 1 := by
      have hle := hfilled.le
      have hpos := hfilled.some Nat.one_pos
      omega
    have hne₁ : rt₁.series ≠ [] := by
      apply List.ne_nil_of_length_pos
      rw [hkept.length_eq]
      exact List.length_pos_iff.mpr hne
    have hslot₁ : rt₁.cfg.rotate = .slot := by
      rw [serve_cfg cat hone]
      exact hslot
    have hrest := ih hkept.inRange hne₁ hslot₁ h
    rw [hrest, List.length_append, hids]
    omega

theorem serveSlots_ok {left slot : ℕ} {out : List EntryId} (hslot : rt.cfg.rotate = .slot)
    {m : String} : serveSlots cat from_ roll left slot out rt ch ≠ .error m := by
  induction left generalizing slot rt ch out with
  | zero =>
    intro h
    cases h
  | succ left ih =>
    intro h
    rw [serveSlots] at h
    split_ifs at h
    cases hone : rt.serve cat (.count 1) from_ roll (UInt64.ofNat slot) 0 ch with
    | error e =>
      obtain ⟨a, hauthored, hmax, -⟩ := serve_error hone
      rw [(slot_take hslot _).2] at hauthored
      obtain rfl := Option.some.inj hauthored
      exact absurd hmax (by decide)
    | ok served =>
      obtain ⟨ids, rt₁, ch₁⟩ := served
      rw [hone] at h
      have hslot₁ : rt₁.cfg.rotate = .slot := by
        rw [serve_cfg cat hone]
        exact hslot
      exact ih hslot₁ h

theorem visit_error {take : Take} {done : ℕ} {m : String}
    (h : rt.visit cat take from_ roll done ch = .error m) :
    ∃ a, rt.authoredVisit take roll ch = some a ∧ MAX_TAKE < a ∧ m = takeError a := by
  unfold visit at h
  dsimp only at h
  by_cases hnone : (decide (resolveTake take roll = .count 0) ||
      ({ rt with visitResumable := false } : PoolRuntime).isDry) = true
  · rw [if_pos hnone] at h
    cases h
  rw [if_neg hnone] at h
  unfold authoredVisit
  cases hrotate : rt.cfg.rotate with
  | slot =>
    rw [hrotate] at h
    dsimp only at h ⊢
    by_cases hmax : (resolveTake take roll).slots > MAX_TAKE
    · rw [if_pos hmax] at h
      exact ⟨_, rfl, hmax, (Except.error.inj h).symm⟩
    · rw [if_neg hmax] at h
      cases hslots : serveSlots cat from_ roll (resolveTake take roll).slots 0 []
          { rt with visitResumable := false } ch with
      | error e =>
        have hopened : ({ rt with visitResumable := false } : PoolRuntime).cfg.rotate = .slot :=
          hrotate
        exact absurd hslots (serveSlots_ok hopened)
      | ok served =>
        rw [hslots] at h
        cases h
  | visit =>
    rw [hrotate] at h
    exact serve_error h
  | span n =>
    rw [hrotate] at h
    exact serve_error h

/-- A visit with something to give answers exactly what it resolves to; where its pool stops at
a series' end, no more and not nothing. It fails only for a count above the maximum, and leaves
every cursor on an item. -/
theorem visit_filled {rt : PoolRuntime} (h : rt.Reachable) (hne : rt.series ≠ []) {take : Take}
    {roll : RollKey} (hwant : resolveTake take roll ≠ .count 0) (cat : Catalog) (from_ : TakeFrom)
    (done : ℕ) (ch : ChannelHistory) :
    ∃ n, rt.resolvedTake take roll done ch = some n ∧
      (∀ m, rt.visit cat take from_ roll done ch = .error m →
        ∃ a, rt.authoredVisit take roll ch = some a ∧ MAX_TAKE < a ∧ m = takeError a) ∧
      ∀ out rt' ch', rt.visit cat take from_ roll done ch = .ok (out, rt', ch') →
        (rt.cfg.onShort ≠ .short ∨ rt.cfg.rotate = .slot → out.length = n) ∧
          (rt.cfg.onShort = .short → out.length ≤ n ∧ (0 < n → 0 < out.length)) ∧
          InRange rt'.series := by
  have hrange := h.shelved.inRange
  have hdry : rt.isDry ≠ true := by
    rw [isDry, ne_eq, List.isEmpty_iff]
    exact hne
  have hresolved : ∃ n, rt.resolvedTake take roll done ch = some n := by
    have hopened : ({ rt with visitResumable := false } : PoolRuntime).series ≠ [] := hne
    obtain ⟨si, hsi⟩ := Option.isSome_iff_exists.mp (firstSeries_isSome hopened roll 0 ch)
    unfold resolvedTake
    cases rt.cfg.rotate with
    | slot => exact ⟨_, rfl⟩
    | visit =>
      apply Option.ne_none_iff_exists'.mp
      dsimp only
      rw [hsi]
      exact serveTake_ne_none _ _ _ _
    | span p =>
      apply Option.ne_none_iff_exists'.mp
      dsimp only
      rw [hsi]
      exact serveTake_ne_none _ _ _ _
  obtain ⟨n, hn⟩ := hresolved
  refine ⟨n, hn, fun m => visit_error, fun out rt' ch' hvisit => ?_⟩
  have hkept := visit_kept hrange hvisit
  have hopened : InRange { rt with visitResumable := false }.series := hrange
  rcases visit_cases hvisit with ⟨hnone, -, -⟩ | ⟨hslot, rt₁, hslots, -⟩ | ⟨hslot, hserve⟩
  · exact absurd hnone (not_or.mpr ⟨hwant, hdry⟩)
  · have hlen := serveSlots_filled hopened hne hslot hslots
    rw [List.length_nil, Nat.zero_add] at hlen
    unfold resolvedTake at hn
    rw [hslot] at hn
    obtain rfl := Option.some.inj hn
    exact ⟨fun _ => hlen, fun _ => ⟨hlen.le, fun hpos => hlen ▸ hpos⟩, hkept.inRange⟩
  · obtain ⟨take', htake, hfilled⟩ := serve_filled hopened hne hserve
    have hsame : take' = n := by
      unfold resolvedTake at hn
      cases hrotate : rt.cfg.rotate with
      | slot => exact absurd hrotate hslot
      | visit =>
        rw [hrotate] at hn
        exact Option.some.inj (htake.symm.trans hn)
      | span p =>
        rw [hrotate] at hn
        exact Option.some.inj (htake.symm.trans hn)
    rw [hsame] at hfilled
    refine ⟨fun hfull => ?_, fun _ => ⟨hfilled.le, hfilled.some⟩, hkept.inRange⟩
    rcases hfull with hshort | hslot'
    · exact hfilled.full hshort
    · exact absurd hslot' hslot

/-- Four items of a pool that holds five. -/
theorem visit_filled_shelf : ∃ rt : PoolRuntime, rt.series ≠ [] ∧
    ∃ n, rt.resolvedTake (.count 4) ⟨7, 0, 0⟩ 0 {} = some n ∧
      ∀ out rt' ch', rt.visit shelfCatalog (.count 4) .start ⟨7, 0, 0⟩ 0 {} =
        .ok (out, rt', ch') → out.length = n := by
  obtain ⟨rt, hreach, hcfg, hlen⟩ := @openShelf_reachable { name := "p" }
    ["a1", "b1", "a2", "b2", "b3"] (fun rt => rt.series.length = 2) (by decide)
  have hne : rt.series ≠ [] := by
    apply List.ne_nil_of_length_pos
    rw [of_decide_eq_true hlen]
    exact Nat.two_pos
  obtain ⟨n, hn, -, hfull⟩ :=
    visit_filled hreach hne (by decide : resolveTake (.count 4) ⟨7, 0, 0⟩ ≠ .count 0) shelfCatalog
      .start 0 {}
  refine ⟨rt, hne, n, hn, fun out rt' ch' hvisit => ?_⟩
  apply (hfull out rt' ch' hvisit).1
  left
  rw [hcfg]
  decide

end Visits

end EtvStation.PoolRuntime
