import EtvStation.Variety.Dice
import EtvStation.Variety.Periods
import Mathlib.Data.Int.LeastGreatest

/-! Where a channel's dice roll over. The lines between their periods stand on the local clock,
and the instant a line resolves to is moved on by whole hours until the clock is past it. -/
namespace EtvStation

/-- `x` is the first instant after `after` at which the clock has left a period it was in. -/
structure FirstEntered (z : Zone) (cadences : List ℕ) (after x : ℤ) : Prop where
  later : after < x
  still : ∀ u, after ≤ u → u < x → ∀ c ∈ cadences,
    periodAt (z.localSecs u) c = periodAt (z.localSecs after) c
  entered : ∃ c ∈ cadences, periodAt (z.localSecs x) c ≠ periodAt (z.localSecs after) c

namespace ChannelVariety

variable (v : ChannelVariety)

/-- The channel's dice and each pool's are the same at `u` as at `t`. -/
def SameDice (pools : List SeededPool) (t u : ℤ) : Prop :=
  ∀ pool ∈ none :: pools.map some, v.dice u pool = v.dice t pool

/-- The dice are those of `after` up to `r`, where some pool or the channel is in another period. -/
structure RollsAt (pools : List SeededPool) (after r : ℤ) : Prop where
  later : after < r
  still : ∀ u, after ≤ u → u < r → v.SameDice pools after u
  entered : ∃ pool ∈ none :: pools.map some,
    (v.dice r pool).seedPeriod ≠ (v.dice after pool).seedPeriod ∨
      (v.dice r pool).temperaturePeriod ≠ (v.dice after pool).temperaturePeriod

/-- A rollover is named for just where the dice roll, and none when they never do. -/
def RollsOnTime (pools : List SeededPool) (after : ℤ) : Prop :=
  match v.nextRollover after pools with
  | some r => v.RollsAt pools after r
  | none => ∀ u, after ≤ u → v.SameDice pools after u

/-- The instant the line at the end of a rotation's period resolves to. -/
def lineInstant (z : Zone) (after : ℤ) (rotate : ℕ) : ℤ :=
  z.localToUtc (endLine z after rotate) after

/-- No line resolves to more than 48 hours before the first change, and one that the clock passes
there resolves to it, or to whole hours before it. -/
structure LinesReach (z : Zone) (cadences : List ℕ) (after x : ℤ) : Prop where
  near : ∀ c ∈ cadences, x ≤ lineInstant z after c + 48 * HOUR
  whole : ∃ c ∈ cadences, ∃ k : ℕ, k ≤ 48 ∧ lineInstant z after c + k * HOUR = x ∧
    (k < 48 → periodAt (z.localSecs x) c ≠ periodAt (z.localSecs after) c)

def cadencesOf (pool : Option SeededPool) : List ℕ :=
  (seedCadence (v.seedSpec pool).1).toList ++
    ((v.temperatureSpec pool).1.bind temperatureCadence).toList

theorem seedPeriod_dice (t : ℤ) (pool : Option SeededPool) : (v.dice t pool).seedPeriod =
    (seedCadence (v.seedSpec pool).1).map (periodAt (v.tz.localSecs t)) := by
  unfold dice
  cases hspec : v.seedSpec pool with
  | mk spec salt => cases spec <;> rfl

theorem temperaturePeriod_dice (t : ℤ) (pool : Option SeededPool) :
    (v.dice t pool).temperaturePeriod = ((v.temperatureSpec pool).1.bind temperatureCadence).map
      (periodAt (v.tz.localSecs t)) := by
  unfold dice
  cases hspec : v.temperatureSpec pool with
  | mk spec salt =>
    cases spec with
    | none => rfl
    | some spec => cases spec <;> rfl

/-- The dice are a function of the periods the clock is in. -/
theorem dice_congr {t u : ℤ} {pool : Option SeededPool}
    (h : ∀ c ∈ v.cadencesOf pool, periodAt (v.tz.localSecs u) c = periodAt (v.tz.localSecs t) c) :
    v.dice u pool = v.dice t pool := by
  unfold cadencesOf at h
  unfold dice
  cases hseed : v.seedSpec pool with
  | mk seedSpec seedSalt =>
    cases htemp : v.temperatureSpec pool with
    | mk tempSpec tempSalt =>
      rw [hseed, htemp] at h
      have hseeds : ∀ r, seedSpec = .rotate r →
          periodAt (v.tz.localSecs u) r.rotate = periodAt (v.tz.localSecs t) r.rotate := by
        rintro r rfl
        exact h r.rotate (by simp [seedCadence])
      have htemps : ∀ r, tempSpec = some (.rotate r) →
          periodAt (v.tz.localSecs u) r.rotate = periodAt (v.tz.localSecs t) r.rotate := by
        rintro r rfl
        exact h r.rotate (by simp [temperatureCadence])
      cases seedSpec with
      | fixed n =>
        match tempSpec with
        | none => rfl
        | some (.fixed _) => rfl
        | some (.rotate r) => simp only [htemps r rfl]
      | rotate r =>
        match tempSpec with
        | none => simp only [hseeds r rfl]
        | some (.fixed _) => simp only [hseeds r rfl]
        | some (.rotate r') => simp only [hseeds r rfl, htemps r' rfl]

theorem periods_eq_iff {t u : ℤ} {pool : Option SeededPool} :
    (v.dice u pool).seedPeriod = (v.dice t pool).seedPeriod ∧
      (v.dice u pool).temperaturePeriod = (v.dice t pool).temperaturePeriod ↔
    ∀ c ∈ v.cadencesOf pool, periodAt (v.tz.localSecs u) c = periodAt (v.tz.localSecs t) c := by
  constructor
  · rintro ⟨hseed, htemp⟩ c hc
    rw [seedPeriod_dice, seedPeriod_dice] at hseed
    rw [temperaturePeriod_dice, temperaturePeriod_dice] at htemp
    unfold cadencesOf at hc
    simp only [List.mem_append, Option.mem_toList] at hc
    rcases hc with hc | hc
    · rw [Option.mem_def.mp hc] at hseed
      exact Option.some.inj hseed
    · rw [Option.mem_def.mp hc] at htemp
      exact Option.some.inj htemp
  · intro h
    rw [v.dice_congr h]
    exact ⟨rfl, rfl⟩

theorem dice_eq_iff {t u : ℤ} {pool : Option SeededPool} : v.dice u pool = v.dice t pool ↔
    ∀ c ∈ v.cadencesOf pool, periodAt (v.tz.localSecs u) c = periodAt (v.tz.localSecs t) c := by
  constructor
  · intro h
    rw [← periods_eq_iff, h]
    exact ⟨rfl, rfl⟩
  · exact v.dice_congr

/-- The rotations asked about are those somebody draws under. -/
theorem mem_cadences {pools : List SeededPool} {c : ℕ} : c ∈ v.cadences pools ↔
    ∃ pool ∈ none :: pools.map some, c ∈ v.cadencesOf pool := by
  have hnone : c ∈ v.cadencesOf none ↔ seedCadence (v.seed.getD defaultSeed) = some c ∨
      v.temperature.bind temperatureCadence = some c := by
    unfold cadencesOf seedSpec temperatureSpec
    cases v.seed <;> cases v.temperature <;> simp
  have hsome : ∀ p : SeededPool, c ∈ v.cadencesOf (some p) ↔
      (p.seed.bind seedCadence = some c ∨
        p.seed = none ∧ seedCadence (v.seed.getD defaultSeed) = some c) ∨
      (p.temperature.bind temperatureCadence = some c ∨
        p.temperature = none ∧ v.temperature.bind temperatureCadence = some c) := by
    intro p
    unfold cadencesOf seedSpec temperatureSpec
    cases hs : p.seed <;> cases ht : p.temperature <;> cases v.seed <;> cases v.temperature <;>
      simp [hs, ht]
  simp only [List.mem_cons, List.mem_map, exists_eq_or_imp, hnone, exists_exists_and_eq_and, hsome]
  unfold cadences
  simp only [List.mem_append, Option.mem_toList, List.mem_filterMap]
  constructor
  · rintro (((hs | ⟨p, hp, hs⟩) | ht) | ⟨p, hp, ht⟩)
    · exact Or.inl (Or.inl hs)
    · exact Or.inr ⟨p, hp, Or.inl (Or.inl hs)⟩
    · exact Or.inl (Or.inr ht)
    · exact Or.inr ⟨p, hp, Or.inr (Or.inl ht)⟩
  · rintro ((hs | ht) | ⟨p, hp, (hs | ⟨-, hs⟩) | ht | ⟨-, ht⟩⟩)
    · exact Or.inl (Or.inl (Or.inl hs))
    · exact Or.inl (Or.inr ht)
    · exact Or.inl (Or.inl (Or.inr ⟨p, hp, hs⟩))
    · exact Or.inl (Or.inl (Or.inl hs))
    · exact Or.inr ⟨p, hp, ht⟩
    · exact Or.inl (Or.inr ht)

theorem sameDice_iff {pools : List SeededPool} {t u : ℤ} : v.SameDice pools t u ↔
    ∀ c ∈ v.cadences pools, periodAt (v.tz.localSecs u) c = periodAt (v.tz.localSecs t) c := by
  simp only [SameDice, dice_eq_iff, mem_cadences]
  constructor
  · rintro h c ⟨pool, hpool, hc⟩
    exact h pool hpool c hc
  · intro h pool hpool c hc
    exact h c ⟨pool, hpool, hc⟩

/-- Where the dice roll is where the clock first leaves a period. -/
theorem rollsAt_iff {pools : List SeededPool} {after r : ℤ} : v.RollsAt pools after r ↔
    FirstEntered v.tz (v.cadences pools) after r := by
  have hentered : (∃ pool ∈ none :: pools.map some,
      (v.dice r pool).seedPeriod ≠ (v.dice after pool).seedPeriod ∨
        (v.dice r pool).temperaturePeriod ≠ (v.dice after pool).temperaturePeriod) ↔
      ∃ c ∈ v.cadences pools,
        periodAt (v.tz.localSecs r) c ≠ periodAt (v.tz.localSecs after) c := by
    simp only [← not_and_or, periods_eq_iff, mem_cadences]
    constructor
    · rintro ⟨pool, hpool, hne⟩
      simp only [not_forall] at hne
      obtain ⟨c, hc, hne⟩ := hne
      exact ⟨c, ⟨pool, hpool, hc⟩, hne⟩
    · rintro ⟨c, ⟨pool, hpool, hc⟩, hne⟩
      exact ⟨pool, hpool, fun h => hne (h c hc)⟩
  constructor
  · intro h
    exact ⟨h.later, fun u hle hlt => v.sameDice_iff.mp (h.still u hle hlt), hentered.mp h.entered⟩
  · intro h
    exact ⟨h.later, fun u hle hlt => v.sameDice_iff.mpr (h.still u hle hlt), hentered.mpr h.entered⟩

/-- Stepping on, an hour at a time, ends at the first instant past `after` in another period, or
when the steps run out. -/
theorem stepPast_spec (z : Zone) (after current : ℤ) (rotate fuel : ℕ) (t : ℤ) :
    ∃ k ≤ fuel, stepPast z after current rotate fuel t = t + k * HOUR ∧
      (k < fuel → after < t + k * HOUR ∧ periodAt (z.localSecs (t + k * HOUR)) rotate ≠ current) ∧
      ∀ j : ℕ, j < k →
        ¬ (after < t + j * HOUR ∧ periodAt (z.localSecs (t + j * HOUR)) rotate ≠ current) := by
  induction fuel generalizing t with
  | zero => exact ⟨0, le_rfl, by simp [stepPast], nofun, nofun⟩
  | succ fuel ih =>
    by_cases hstop : after < t ∧ periodAt (z.localSecs t) rotate ≠ current
    · exact ⟨0, by omega, by simp [stepPast, hstop], fun _ => by simpa using hstop, nofun⟩
    · obtain ⟨k, hk, heq, hgood, hbefore⟩ := ih (t + HOUR)
      have hshift : ∀ j : ℕ, t + HOUR + j * HOUR = t + ((j + 1 : ℕ) : ℤ) * HOUR := by
        intro j
        push_cast
        ring
      simp only [hshift] at heq hgood hbefore
      refine ⟨k + 1, by omega, ?_, fun hlt => hgood (by omega), fun j hj => ?_⟩
      · rw [stepPast, if_neg hstop, heq]
      · cases j with
        | zero => simpa using hstop
        | succ j => exact hbefore j (by omega)

section First

variable {z : Zone} {cadences : List ℕ} {after x : ℤ} (h : FirstEntered z cadences after x)
include h

/-- No instant before the first change is one the steps end at. -/
theorem le_of_past {c : ℕ} (hc : c ∈ cadences) {t : ℤ} (ht : after < t)
    (hne : periodAt (z.localSecs t) c ≠ periodAt (z.localSecs after) c) : x ≤ t := by
  by_contra hlt
  exact hne (h.still t ht.le (not_le.mp hlt) c hc)

theorem le_rollover_iff {c : ℕ} (hc : c ∈ cadences) :
    x ≤ rollover z after c ↔ x ≤ lineInstant z after c + 48 * HOUR := by
  obtain ⟨k, hk, heq, hgood, -⟩ := stepPast_spec z after (periodAt (z.localSecs after) c) c 48
    (lineInstant z after c)
  have hroll : rollover z after c = lineInstant z after c + k * HOUR := heq
  rw [hroll]
  rcases hk.lt_or_eq with hlt | rfl
  · have hle := le_of_past h hc (hgood hlt).1 (hgood hlt).2
    have hhours : (k : ℤ) * HOUR ≤ 48 * HOUR := by
      simp only [HOUR]
      omega
    constructor <;> intro _ <;> omega
  · exact Iff.rfl

theorem rollover_eq_iff {c : ℕ} (hc : c ∈ cadences) : rollover z after c = x ↔
    ∃ k : ℕ, k ≤ 48 ∧ lineInstant z after c + k * HOUR = x ∧
      (k < 48 → periodAt (z.localSecs x) c ≠ periodAt (z.localSecs after) c) := by
  obtain ⟨k, hk, heq, hgood, hbefore⟩ := stepPast_spec z after (periodAt (z.localSecs after) c) c 48
    (lineInstant z after c)
  have hroll : rollover z after c = lineInstant z after c + k * HOUR := heq
  rw [hroll]
  constructor
  · rintro rfl
    exact ⟨k, hk, rfl, fun hlt => (hgood hlt).2⟩
  · rintro ⟨k', hk', rfl, hleft⟩
    rcases lt_trichotomy k k' with hlt | rfl | hgt
    · have hle := le_of_past h hc (hgood (by omega)).1 (hgood (by omega)).2
      simp only [HOUR] at hle
      omega
    · rfl
    · exact absurd ⟨h.later, hleft (by omega)⟩ (hbefore k' hgt)

end First

theorem firstEntered_unique {z : Zone} {cadences : List ℕ} {after x y : ℤ}
    (hx : FirstEntered z cadences after x) (hy : FirstEntered z cadences after y) : x = y := by
  obtain ⟨c, hc, hne⟩ := hx.entered
  obtain ⟨c', hc', hne'⟩ := hy.entered
  have hle := le_of_past hy hc hx.later hne
  have hge := le_of_past hx hc' hy.later hne'
  omega

/-- The clock leaves every period in the end. -/
theorem exists_firstEntered (z : Zone) {cadences : List ℕ} (hne : cadences ≠ []) (after : ℤ) :
    ∃ x, FirstEntered z cadences after x := by
  obtain ⟨c, hc⟩ := List.exists_mem_of_ne_nil _ hne
  obtain ⟨secs, hsecs⟩ : ∃ secs : ℤ, secs = (max c 1 : ℕ) := ⟨_, rfl⟩
  have hpos : 0 < secs := by omega
  obtain ⟨line, hline⟩ : ∃ line, line = (periodAt (z.localSecs after) c + 1) * secs := ⟨_, rfl⟩
  have hleaves : ∃ u, after < u ∧ periodAt (z.localSecs u) c ≠ periodAt (z.localSecs after) c := by
    refine ⟨max (after + 1) ((line + 86400) * SECOND), by omega, ?_⟩
    set u := max (after + 1) ((line + 86400) * SECOND) with hu
    have hoffset := (z.offset_bounds u).1
    have hpassed : line ≤ z.localSecs u := by
      have hsecond : line + 86400 ≤ u / SECOND :=
        (Int.le_ediv_iff_mul_le (by decide)).mpr (le_max_right _ _)
      unfold Zone.localSecs
      omega
    have hperiod : periodAt (z.localSecs after) c + 1 ≤ periodAt (z.localSecs u) c :=
      by
      rw [hline] at hpassed
      unfold periodAt at hpassed ⊢
      rw [← hsecs] at hpassed ⊢
      exact (Int.le_ediv_iff_mul_le hpos).mpr hpassed
    omega
  obtain ⟨u, hu, hchanged⟩ := hleaves
  obtain ⟨x, ⟨hx, hentered⟩, hleast⟩ := Int.exists_least_of_bdd
    (P := fun u => after < u ∧ ∃ c ∈ cadences,
      periodAt (z.localSecs u) c ≠ periodAt (z.localSecs after) c)
    ⟨after, fun u h => h.1.le⟩ ⟨u, hu, c, hc, hchanged⟩
  refine ⟨x, hx, fun u hle hlt c hc => ?_, hentered⟩
  by_contra hdiffers
  rcases hle.lt_or_eq with hlater | rfl
  · have := hleast u ⟨hlater, c, hc, hdiffers⟩
    omega
  · exact hdiffers rfl

/-- The rollover of a channel lands on time exactly when its lines reach the first change. -/
theorem rollsOnTime_iff (pools : List SeededPool) (after : ℤ) : v.RollsOnTime pools after ↔
    ∀ x, FirstEntered v.tz (v.cadences pools) after x →
      LinesReach v.tz (v.cadences pools) after x := by
  unfold RollsOnTime
  cases hnext : v.nextRollover after pools with
  | none =>
    have hempty : v.cadences pools = [] := by
      simpa [nextRollover] using hnext
    have hsame : ∀ u, after ≤ u → v.SameDice pools after u := by
      intro u _
      rw [sameDice_iff, hempty]
      nofun
    refine ⟨fun _ x hx => ?_, fun _ => hsame⟩
    obtain ⟨c, hc, -⟩ := hx.entered
    rw [hempty] at hc
    cases hc
  | some r =>
    rw [nextRollover, List.min?_eq_some_iff] at hnext
    obtain ⟨hmem, hleast⟩ := hnext
    obtain ⟨c, hc, hroll⟩ := List.mem_map.mp hmem
    change v.RollsAt pools after r ↔ _
    rw [rollsAt_iff]
    constructor
    · intro hr x hx
      obtain rfl := firstEntered_unique hr hx
      constructor
      · intro c' hc'
        exact (le_rollover_iff hr hc').mp (hleast _ (List.mem_map_of_mem hc'))
      · exact ⟨c, hc, (rollover_eq_iff hr hc).mp hroll⟩
    · intro hreach
      obtain ⟨x, hx⟩ := exists_firstEntered v.tz (List.ne_nil_of_mem hc) after
      obtain ⟨c', hc', hland⟩ := (hreach x hx).whole
      have hle : r ≤ x := by
        rw [← (rollover_eq_iff hx hc').mpr hland]
        exact hleast _ (List.mem_map_of_mem hc')
      have hge : x ≤ r := by
        rw [← hroll]
        exact (le_rollover_iff hx hc).mpr ((hreach x hx).near c hc)
      obtain rfl := le_antisymm hge hle
      exact hx

end ChannelVariety

/-- Lord Howe Island at a start of summer time, 2025-10-04T15:30Z: the clock goes from 02:00 to
02:30. -/
def lordHowe : Zone where
  primary := 37800
  offset := tableOffset 37800 [(1759591800000000000, 39600)]
  offset_lt t := by
    simp only [tableOffset, List.filter]
    split <;> decide

def hourlySeeds : ChannelVariety := ⟨some (.rotate ⟨3600, none⟩), none, "hourly", lordHowe⟩

theorem lordHowe_offset (t : ℤ) : lordHowe.offset t = 37800 ∨ lordHowe.offset t = 39600 := by
  simp only [lordHowe, tableOffset, List.filter]
  split
  · right
    rfl
  · left
    rfl

/-- Ten minutes before, the rollover is named for 03:00, half an hour after the clock has passed
02:00: until then the list would air under another hour's seed. -/
theorem lordHowe_rolls_late :
    hourlySeeds.nextRollover 1759591200000000000 [] = some 1759593600000000000 ∧
      ¬ ∀ (v : ChannelVariety) (pools : List SeededPool) (after : ℤ),
        (∀ t, |v.tz.offset (t + 1) - v.tz.offset t| ≤ 7200) →
        (∀ c ∈ v.cadences pools, 0 < c ∧ 3600 ∣ c) → v.RollsOnTime pools after := by
  have hnext : hourlySeeds.nextRollover 1759591200000000000 [] = some 1759593600000000000 := by decide
  refine ⟨hnext, fun hall => ?_⟩
  have hontime := hall hourlySeeds [] 1759591200000000000 ?_ ?_
  · unfold ChannelVariety.RollsOnTime at hontime
    rw [hnext] at hontime
    have hsame := hontime.still 1759591800000000000 (by decide) (by decide) none
      List.mem_cons_self
    have hperiod := congrArg Dice.seedPeriod hsame
    rw [ChannelVariety.seedPeriod_dice, ChannelVariety.seedPeriod_dice] at hperiod
    revert hperiod
    decide
  · intro t
    have hbefore := lordHowe_offset t
    have hafter := lordHowe_offset (t + 1)
    change |lordHowe.offset (t + 1) - lordHowe.offset t| ≤ 7200
    rw [abs_le]
    omega
  · intro c hc
    obtain rfl : c = 3600 := by simpa [hourlySeeds, ChannelVariety.cadences,
      ChannelVariety.seedCadence] using hc
    decide

end EtvStation
