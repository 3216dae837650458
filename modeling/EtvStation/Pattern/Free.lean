import EtvStation.Pattern.Standing

/-! Pools nothing constrains: no adjacency limits, no channel rule, no span, no overrides.
What such a pool draws is decided by where its series stand, which of them rest, and whose
turn it is; two pools that agree on these draw alike. -/
namespace EtvStation

theorem conflictsWithRecent_of_unconstrained {limits : Limits} (h : limits.isUnconstrained = true)
    (recent : List ItemKeys) (cand : ItemKeys) :
    conflictsWithRecent recent cand limits = false := by
  simp [conflictsWithRecent, h]

namespace ChannelHistory

variable {ch : ChannelHistory}

theorem allows_of_unconstrained (h : ch.isUnconstrained = true) (id : EntryId) :
    ch.allows id = true := by
  simp [allows, conflictsWithRecent_of_unconstrained h]

theorem remember_of_unconstrained (h : ch.isUnconstrained = true) (cat : Catalog)
    (ids : List EntryId) : ch.remember cat ids = ch := by
  simp [remember, h]

end ChannelHistory

namespace PoolRuntime

/-- Nothing outside a pool's own series and rotation has a say in its draws. -/
structure Free (rt : PoolRuntime) : Prop where
  limits : rt.limits.isUnconstrained = true
  overrides : rt.takeOverrides = ∅
  period : rt.period = none

/-- The first series from `start` on that is not resting, `start` when all are. -/
def freeFrom (rt : PoolRuntime) (start : ℕ) : ℕ :=
  ((rt.turnsFrom start).find? fun si => !rt.rested si).getD start

def freeReroll (rt : PoolRuntime) (roll : RollKey) (nonce : UInt64) : Option ℕ :=
  (List.range RANDOM_REROLLS).findSome? fun k =>
    (rt.seriesAt (roll.u64At (nonce + UInt64.ofNat (k + 1) * REROLL_STRIDE)).toNat).filter
      fun si => !rt.rested si

/-- The series an unconstrained visit opens on. -/
def freePick (rt : PoolRuntime) (roll : RollKey) (nonce : UInt64) : Option ℕ :=
  (rt.pick roll nonce).map fun first =>
    if rt.rested first then
      (if rt.cfg.select = .random then rt.freeReroll roll nonce else none).getD
        (rt.freeFrom first)
    else first

/-- Who fills the rest of an unconstrained visit that `si` left short. -/
def freeTurn (rt : PoolRuntime) (si : ℕ) : Option ℕ :=
  match rt.cfg.onShort with
  | .next => (rt.seriesAfter si).map rt.freeFrom
  | .wrap => some si
  | .short => none

section Choices

variable {rt : PoolRuntime} {ch : ChannelHistory}

theorem ownAllows_of_limits (h : rt.limits.isUnconstrained = true) (si : ℕ) :
    rt.ownAllows si = true := by
  unfold ownAllows
  split
  · simp [conflictsWithRecent_of_unconstrained h]
  · rfl

theorem channelAllows_of_unconstrained (hc : ch.isUnconstrained = true) (si : ℕ) :
    rt.channelAllows si ch = true := by
  unfold channelAllows
  split
  · exact ChannelHistory.allows_of_unconstrained hc _
  · rfl

theorem admits_of_limits (h : rt.limits.isUnconstrained = true) (hc : ch.isUnconstrained = true)
    (si : ℕ) : rt.admits si ch = !rt.rested si := by
  simp [admits, ownAllows_of_limits h, channelAllows_of_unconstrained hc]

theorem noteBlocked_of_free (hc : ch.isUnconstrained = true) (si : ℕ) :
    rt.noteBlocked si ch = ch := by
  simp [noteBlocked, channelAllows_of_unconstrained hc]

theorem scanFrom_of_limits (h : rt.limits.isUnconstrained = true)
    (hc : ch.isUnconstrained = true) (start : ℕ) :
    rt.scanFrom start ch = (rt.freeFrom start, rt, ch) := by
  have hpred : (fun si => rt.admits si ch) = fun si => !rt.rested si :=
    funext fun si => admits_of_limits h hc si
  have hown : (fun si => !rt.rested si && rt.ownAllows si) = fun si => !rt.rested si :=
    funext fun si => by simp [ownAllows_of_limits h]
  unfold scanFrom freeFrom ownEligibleFrom
  rw [hpred, hown]
  cases (rt.turnsFrom start).find? fun si => !rt.rested si with
  | some si => rfl
  | none => simp [h, channelAllows_of_unconstrained hc]

/-- A series that is not resting serves at its own turn. -/
theorem freeFrom_of_not_rested {start : ℕ} (hlt : start < rt.series.length)
    (h : rt.rested start = false) : rt.freeFrom start = start := by
  have hhead : rt.turnsFrom start = start :: (rt.turnsFrom start).tail := by
    obtain ⟨n, hn⟩ : ∃ n, rt.series.length = n + 1 := ⟨_, (Nat.succ_pred (by omega)).symm⟩
    have hmod : (start + 0) % (n + 1) = start := Nat.mod_eq_of_lt (by omega)
    rw [turnsFrom, hn, List.range_succ_eq_map, List.map_cons, hmod, List.tail_cons]
  rw [freeFrom, hhead, List.find?_cons_of_pos (by simp [h]), Option.getD_some]

theorem rested_lt {si : ℕ} (h : rt.rested si = true) : si < rt.series.length := by
  by_contra hge
  simp [rested, nth, List.getD_eq_getElem?_getD,
    List.getElem?_eq_none (Nat.le_of_not_lt hge)] at h

theorem not_rested_of_isUnconstrained (hu : rt.isUnconstrained ch = true) (si : ℕ) :
    rt.rested si = false := by
  by_contra h
  have h : rt.rested si = true := by simpa using h
  simp only [isUnconstrained, Bool.and_eq_true, Bool.not_eq_true'] at hu
  have hany : (List.range rt.series.length).any rt.rested = true :=
    List.any_eq_true.mpr ⟨si, List.mem_range.mpr (rested_lt h), h⟩
  exact absurd hu.2 (by simp [hany])

theorem eligibleFrom_of_limits (h : rt.limits.isUnconstrained = true)
    (hc : ch.isUnconstrained = true) {start : ℕ} (hlt : start < rt.series.length) :
    rt.eligibleFrom start ch = (some (rt.freeFrom start), rt, ch) := by
  unfold eligibleFrom
  split_ifs with hu hempty
  · rw [freeFrom_of_not_rested hlt (not_rested_of_isUnconstrained hu start)]
  · simp [List.isEmpty_iff.mp hempty] at hlt
  · simp only [noteBlocked_of_free hc, scanFrom_of_limits h hc]

theorem reroll_of_limits (h : rt.limits.isUnconstrained = true)
    (hc : ch.isUnconstrained = true) (roll : RollKey) (nonce : UInt64) :
    rt.reroll roll nonce ch = rt.freeReroll roll nonce := by
  unfold reroll freeReroll
  congr 1
  funext k
  dsimp only
  cases rt.seriesAt (roll.u64At (nonce + UInt64.ofNat (k + 1) * REROLL_STRIDE)).toNat with
  | none => rfl
  | some si => simp [admits_of_limits h hc, Option.filter]

theorem eligiblePick_of_limits (h : rt.limits.isUnconstrained = true)
    (hc : ch.isUnconstrained = true) (roll : RollKey) (nonce : UInt64) :
    rt.eligiblePick roll nonce ch = (rt.freePick roll nonce, rt, ch) := by
  unfold eligiblePick freePick
  cases hpick : rt.pick roll nonce with
  | none => rfl
  | some first =>
    dsimp only
    rw [admits_of_limits h hc, noteBlocked_of_free hc, reroll_of_limits h hc]
    cases hrest : rt.rested first with
    | false => simp [hrest]
    | true =>
      have hu : rt.isUnconstrained ch = false := by
        by_contra hu
        have := not_rested_of_isUnconstrained (by simpa using hu) first
        simp [hrest] at this
      simp only [hu, Bool.not_true, Bool.or_self, Bool.false_eq_true, if_false, Option.map_some,
        hrest, if_true]
      cases (if rt.cfg.select = .random then rt.freeReroll roll nonce else none) with
      | some si => rfl
      | none => simp [scanFrom_of_limits h hc]

theorem firstSeries_of_free (h : rt.Free) (hc : ch.isUnconstrained = true) (roll : RollKey)
    (nonce : UInt64) : rt.firstSeries roll nonce ch = (rt.freePick roll nonce, rt, ch) := by
  simp only [firstSeries, h.period, eligiblePick_of_limits h.limits hc]

theorem shortTurn_of_limits (h : rt.limits.isUnconstrained = true)
    (hc : ch.isUnconstrained = true) (si : ℕ) :
    rt.shortTurn si ch = (rt.freeTurn si, rt, ch) := by
  unfold shortTurn freeTurn
  cases rt.cfg.onShort with
  | next =>
    cases hafter : rt.seriesAfter si with
    | none => rfl
    | some next => exact eligibleFrom_of_limits h hc (seriesAt_lt hafter)
  | wrap => simp [h, channelAllows_of_unconstrained hc]
  | short => rfl

theorem remember_of_limits (h : rt.limits.isUnconstrained = true) (ids : List EntryId) :
    rt.remember ids = rt := by
  simp [remember, h]

theorem shortTurn_of_free (h : rt.Free) (hc : ch.isUnconstrained = true) (si : ℕ) :
    rt.shortTurn si ch = (rt.freeTurn si, rt, ch) := shortTurn_of_limits h.limits hc si

theorem remember_of_free (h : rt.Free) (ids : List EntryId) : rt.remember ids = rt :=
  remember_of_limits h.limits ids

theorem overrideTake_of_empty (h : rt.takeOverrides = ∅) (first : Option ℕ) :
    rt.overrideTake first = none := by
  unfold overrideTake takeOverrideFor
  rw [h]
  split
  · cases first <;> simp [List.findSome?_eq_none_iff]
  · cases first <;> simp [List.findSome?_eq_none_iff]
  · rfl

theorem overrideTake_of_free (h : rt.Free) (first : Option ℕ) : rt.overrideTake first = none :=
  overrideTake_of_empty h.overrides first

theorem Free.of_moved {rt' : PoolRuntime} (h : rt.Free) (hm : rt.Moved rt') : rt'.Free := by
  obtain ⟨_, _, _, _, _, _, _, _, rfl, _⟩ := hm
  exact ⟨h.limits, h.overrides, h.period⟩

end Choices

theorem seriesAt_congr {a b : PoolRuntime} (h : b.series.length = a.series.length) (i : ℕ) :
    b.seriesAt i = a.seriesAt i := by
  have hempty : b.series.isEmpty = a.series.isEmpty := by
    rw [Bool.eq_iff_iff, List.isEmpty_iff_length_eq_zero, List.isEmpty_iff_length_eq_zero, h]
  simp only [seriesAt, hempty, h]

/-- Two pools that agree on all an unconstrained visit reads. A series of one never rests, so
whether it is finished is not asked. -/
structure Agree (a b : PoolRuntime) : Prop where
  cfg_eq : b.cfg = a.cfg
  core_eq : b.series.map Series.core = a.series.map Series.core
  lap_eq : b.lap = a.lap
  turn_eq : a.cfg.select = .roundRobin → b.seriesAt b.rotation = a.seriesAt a.rotation

namespace Agree

variable {a b c : PoolRuntime}

theorem refl (a : PoolRuntime) : a.Agree a := ⟨rfl, rfl, rfl, fun _ => rfl⟩

theorem symm (h : a.Agree b) : b.Agree a :=
  ⟨h.cfg_eq.symm, h.core_eq.symm, h.lap_eq.symm, fun hs =>
    (h.turn_eq (h.cfg_eq ▸ hs)).symm⟩

theorem trans (h : a.Agree b) (h' : b.Agree c) : a.Agree c :=
  ⟨h'.cfg_eq.trans h.cfg_eq, h'.core_eq.trans h.core_eq, h'.lap_eq.trans h.lap_eq, fun hs =>
    (h'.turn_eq (h.cfg_eq ▸ hs)).trans (h.turn_eq hs)⟩

theorem length_eq (h : a.Agree b) : b.series.length = a.series.length := by
  simpa using congrArg List.length h.core_eq

theorem nth_core (h : a.Agree b) (si : ℕ) : (b.nth si).core = (a.nth si).core := by
  have hget := congrArg (fun l => l[si]?) h.core_eq
  simp only [List.getElem?_map] at hget
  unfold nth
  rw [List.getD_eq_getElem?_getD, List.getD_eq_getElem?_getD]
  cases ha : a.series[si]? <;> cases hb : b.series[si]? <;> simp_all

theorem ids_eq (h : a.Agree b) (si : ℕ) : (b.nth si).ids = (a.nth si).ids := by
  change (b.nth si).core.ids = (a.nth si).core.ids
  rw [h.nth_core]

theorem key_eq (h : a.Agree b) (si : ℕ) : (b.nth si).key = (a.nth si).key := by
  change (b.nth si).core.key = (a.nth si).core.key
  rw [h.nth_core]

theorem cursor_eq (h : a.Agree b) (si : ℕ) : (b.nth si).cursor = (a.nth si).cursor := by
  change (b.nth si).core.cursor = (a.nth si).core.cursor
  rw [h.nth_core]

theorem seriesAt_eq (h : a.Agree b) (i : ℕ) : b.seriesAt i = a.seriesAt i :=
  seriesAt_congr h.length_eq i

theorem rested_eq (h : a.Agree b) (si : ℕ) : b.rested si = a.rested si := by
  have hfin : ((b.nth si).finished && 1 < (b.nth si).ids.length) =
      ((a.nth si).finished && 1 < (a.nth si).ids.length) :=
    congrArg Series.finished (h.nth_core si)
  unfold rested
  rw [h.cfg_eq, h.key_eq, h.lap_eq]
  rw [h.ids_eq] at hfin ⊢
  by_cases hlen : 1 < (a.nth si).ids.length
  · have hfin : (b.nth si).finished = (a.nth si).finished := by simpa [hlen] using hfin
    rw [hfin]
  · simp [hlen]

theorem turnsFrom_eq (h : a.Agree b) (start : ℕ) : b.turnsFrom start = a.turnsFrom start := by
  simp only [turnsFrom, h.length_eq]

theorem freeFrom_eq (h : a.Agree b) (start : ℕ) : b.freeFrom start = a.freeFrom start := by
  have hpred : (fun si => !b.rested si) = fun si => !a.rested si :=
    funext fun si => by rw [h.rested_eq]
  rw [freeFrom, freeFrom, h.turnsFrom_eq, hpred]

theorem freePick_eq (h : a.Agree b) (roll : RollKey) (nonce : UInt64) :
    b.freePick roll nonce = a.freePick roll nonce := by
  have hpick : b.pick roll nonce = a.pick roll nonce := by
    unfold pick
    rw [h.cfg_eq]
    cases hsel : a.cfg.select with
    | roundRobin => exact h.turn_eq hsel
    | random => exact h.seriesAt_eq _
  have hreroll : b.freeReroll roll nonce = a.freeReroll roll nonce := by
    unfold freeReroll
    congr 1
    funext k
    rw [h.seriesAt_eq]
    congr 1
    funext si
    rw [h.rested_eq]
  rw [freePick, freePick, hpick, hreroll, h.cfg_eq]
  congr 1
  funext first
  rw [h.rested_eq, h.freeFrom_eq]

theorem freeTurn_eq (h : a.Agree b) (si : ℕ) : b.freeTurn si = a.freeTurn si := by
  unfold freeTurn
  rw [h.cfg_eq, seriesAfter, h.seriesAt_eq]
  cases a.cfg.onShort with
  | next => exact congrArg (fun f => (a.seriesAfter si).map f) (funext h.freeFrom_eq)
  | wrap => rfl
  | short => rfl

theorem takeFrom_fst (h : a.Agree b) (si want : ℕ) :
    (b.takeFrom si want).1 = (a.takeFrom si want).1 := by
  simp only [takeFrom, Series.remaining, h.ids_eq, h.cursor_eq]

theorem takeFrom_snd (h : a.Agree b) (si want : ℕ) :
    (a.takeFrom si want).2.Agree (b.takeFrom si want).2 := by
  have hmap : ∀ (l : List Series) (n : ℕ), (l.modify si (·.advanceTo n)).map Series.core =
      (l.map Series.core).modify si fun s => (s.advanceTo n).core := fun l n => by
    apply List.ext_getElem? fun i => ?_
    simp only [List.getElem?_map, List.getElem?_modify]
    cases l[i]? with
    | none => rfl
    | some s =>
      by_cases hi : si = i
      · subst hi
        simp only [if_true, Option.map_eq_map, Option.map_some]
        rfl
      · simp [hi]
  have hcore : (b.takeFrom si want).2.series.map Series.core =
      (a.takeFrom si want).2.series.map Series.core := by
    simp only [takeFrom, modifyNth, hmap, h.core_eq, Series.remaining, h.ids_eq, h.cursor_eq]
  have hlen : ∀ (rt : PoolRuntime), (rt.takeFrom si want).2.series.length = rt.series.length :=
    fun rt => by simp [takeFrom, modifyNth]
  have hat : ∀ (rt : PoolRuntime) i, (rt.takeFrom si want).2.seriesAt i = rt.seriesAt i :=
    fun rt i => seriesAt_congr (hlen rt) i
  exact ⟨h.cfg_eq, hcore, h.lap_eq, fun hs => by
    rw [hat, hat]
    exact h.turn_eq hs⟩

end Agree

end PoolRuntime

end EtvStation
