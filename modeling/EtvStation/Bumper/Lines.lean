import EtvStation.Bumper.Filled

/-! The clock grid of an `align:`. Its lines are the whole aligns after each local midnight; the
pass counts them in elapsed time from the midnight before the instant it asks about. -/
namespace EtvStation

namespace Zone

variable (z : Zone)

/-- The midnight of the local day at `u`. -/
def ownMidnight (u : ℤ) : ℤ := z.toUtcAssumeLocal (localDate (z.toLocal u)) 0

/-- A line of the grid is a whole number of aligns after the midnight of its own local day. -/
def IsLine (every : ℕ) (u : ℤ) : Prop := ∃ k : ℕ, u = z.ownMidnight u + k * every

/-- `line` is the first line at or after `t`. -/
structure FirstLine (every : ℕ) (t line : ℤ) : Prop where
  ahead : t ≤ line
  isLine : z.IsLine every line
  first : ∀ u, t ≤ u → u < line → ¬ z.IsLine every u

/-- The time from `t` until a whole number of aligns has passed since the midnight before. Offsets
that jump by half a day can put that midnight after `t`; the division then rounds towards it. -/
def toWhole (every : ℕ) (t : ℤ) : ℤ :=
  let late := z.localMidnightAtOrBefore t - t
  if late < every then late % every else every - 1 + (late + 1) % every

/-- The midnights from `t` on until that time is over keep to one grid: the last of them is whole
aligns from the midnight before `t`, and those that are not have no line of theirs in between. -/
structure LinesMeet (every : ℕ) (t : ℤ) : Prop where
  lands : let u := t + z.toWhole every t
    z.ownMidnight u ≤ u ∧ (every : ℤ) ∣ z.ownMidnight u - z.localMidnightAtOrBefore t
  clear : ∀ u, t ≤ u → u < t + z.toWhole every t →
    t + every ≤ z.localMidnightAtOrBefore t ∨
      ¬ (every : ℤ) ∣ z.ownMidnight u - z.localMidnightAtOrBefore t →
    u < z.ownMidnight u ∨ ¬ (every : ℤ) ∣ u - z.ownMidnight u

theorem isLine_iff {every : ℕ} (h : 0 < every) (u : ℤ) :
    z.IsLine every u ↔ z.ownMidnight u ≤ u ∧ (every : ℤ) ∣ u - z.ownMidnight u := by
  constructor
  · rintro ⟨k, hk⟩
    have hnonneg : (0 : ℤ) ≤ k * every := by positivity
    exact ⟨by omega, k, by rw [mul_comm]; omega⟩
  · rintro ⟨hle, k, hk⟩
    have hk0 : 0 ≤ k := by
      by_contra hneg
      have := mul_neg_of_pos_of_neg (show (0 : ℤ) < every by omega) (not_le.mp hneg)
      omega
    obtain ⟨n, rfl⟩ := Int.eq_ofNat_of_zero_le hk0
    exact ⟨n, by rw [mul_comm]; omega⟩

theorem dvd_toWhole (every : ℕ) (t : ℤ) :
    (every : ℤ) ∣ t + z.toWhole every t - z.localMidnightAtOrBefore t := by
  unfold toWhole
  set late := z.localMidnightAtOrBefore t - t with hlate
  dsimp only
  split_ifs
  · have hmod := Int.emod_add_mul_ediv late every
    exact ⟨-(late / every), by rw [mul_neg]; omega⟩
  · have hmod := Int.emod_add_mul_ediv (late + 1) every
    exact ⟨1 - (late + 1) / every, by rw [mul_sub, mul_one]; omega⟩

/-- Before the time is over no whole number of aligns has passed. -/
theorem not_dvd_of_lt_toWhole {every : ℕ} (h : 0 < every) {t u : ℤ}
    (hbefore : z.localMidnightAtOrBefore t < t + every) (hle : t ≤ u)
    (hlt : u < t + z.toWhole every t) : ¬ (every : ℤ) ∣ u - z.localMidnightAtOrBefore t := by
  intro hdvd
  have hgap : (every : ℤ) ∣ t + z.toWhole every t - u := by
    have := Int.dvd_sub (z.dvd_toWhole every t) hdvd
    rwa [sub_sub_sub_cancel_right] at this
  have hstep := Int.le_of_dvd (by omega) hgap
  have hmod := Int.emod_lt_of_pos (z.localMidnightAtOrBefore t - t) (show (0 : ℤ) < every by omega)
  simp only [toWhole, if_pos (show z.localMidnightAtOrBefore t - t < every by omega)] at hstep
  omega

theorem boundaryAtOrAfter_eq {every : ℕ} (h : 0 < every) (t : ℤ) :
    Bumper.boundaryAtOrAfter z t every = t + z.toWhole every t := by
  unfold Bumper.boundaryAtOrAfter toWhole
  have hstep : max (every : ℤ) 1 = every := by omega
  dsimp only
  rw [hstep]
  set midnight := z.localMidnightAtOrBefore t
  split_ifs with hlate
  · rw [Int.tdiv_eq_ediv_of_nonneg (by omega)]
    have hdiv := Int.mul_ediv_add_emod (t - midnight + every - 1) every
    have hmod := Int.emod_add_mul_ediv (midnight - t) every
    have hlt := Int.emod_lt_of_pos (t - midnight + every - 1) (show (0 : ℤ) < every by omega)
    have hnonneg := Int.emod_nonneg (t - midnight + every - 1) (show (every : ℤ) ≠ 0 by omega)
    have hlt' := Int.emod_lt_of_pos (midnight - t) (show (0 : ℤ) < every by omega)
    have hnonneg' := Int.emod_nonneg (midnight - t) (show (every : ℤ) ≠ 0 by omega)
    have hquot : (t - midnight + every - 1) / every = -((midnight - t) / every) := by
      rw [Int.ediv_eq_iff_of_pos (by omega)]
      constructor <;> rw [neg_mul, mul_comm] <;> omega
    rw [hquot, mul_neg]
    omega
  · rw [show t - midnight + every - 1 = -(midnight - t + 1 - every) by ring, Int.neg_tdiv,
      Int.tdiv_eq_ediv_of_nonneg (by omega), Int.sub_ediv_of_dvd _ (dvd_refl _),
      Int.ediv_self (by omega)]
    have hmod := Int.emod_add_mul_ediv (midnight - t + 1) every
    rw [neg_sub, mul_sub, mul_one]
    omega

/-- A zone that never changes its clock keeps every grid that tiles a day. -/
theorem fixed_linesMeet {offset : ℤ} {hoffset : |offset| * SECOND < DAY} {every : ℕ}
    (h : (every : ℤ) ∣ DAY) (t : ℤ) : (fixed offset hoffset).LinesMeet every t := by
  have hpos : (0 : ℤ) < every := by
    rcases Nat.eq_zero_or_pos every with hzero | hpos
    · rw [hzero] at h
      exact absurd h (by decide)
    · omega
  have hown : ∀ u, (fixed offset hoffset).ownMidnight u =
      localDate ((fixed offset hoffset).toLocal u) * DAY - offset * SECOND := by
    intro u
    simp only [ownMidnight, toUtcAssumeLocal, shift, fixed, add_zero]
  have hmeet : ∀ u, (every : ℤ) ∣ (fixed offset hoffset).ownMidnight u -
      (fixed offset hoffset).localMidnightAtOrBefore t := by
    intro u
    rw [hown, fixed_localMidnight, sub_sub_sub_cancel_right, ← sub_mul]
    exact Dvd.dvd.mul_left h _
  have hbefore : ∀ u, (fixed offset hoffset).ownMidnight u ≤ u := by
    intro u
    rw [hown]
    simp only [localDate, toLocal, shift, fixed, DAY]
    omega
  refine ⟨⟨hbefore _, hmeet _⟩, fun u _ _ hother => ?_⟩
  rcases hother with hlate | hnot
  · have hmidnight := hbefore t
    rw [hown, ← fixed_localMidnight] at hmidnight
    omega
  · exact absurd (hmeet u) hnot

/-- The result is the first line at or after `t` exactly when the midnights up to it keep to the
grid that `t` counts from. -/
theorem boundary_firstLine_iff {every : ℕ} (h : 0 < every) (t : ℤ) :
    z.FirstLine every t (Bumper.boundaryAtOrAfter z t every) ↔ z.LinesMeet every t := by
  have hahead := Bumper.le_boundaryAtOrAfter z t h
  rw [boundaryAtOrAfter_eq z h] at hahead ⊢
  have hline : z.IsLine every (t + z.toWhole every t) ↔
      z.ownMidnight (t + z.toWhole every t) ≤ t + z.toWhole every t ∧
        (every : ℤ) ∣ z.ownMidnight (t + z.toWhole every t) - z.localMidnightAtOrBefore t := by
    rw [isLine_iff z h]
    have hwhole := z.dvd_toWhole every t
    refine and_congr_right fun _ => ?_
    constructor
    · intro hown
      have := Int.dvd_sub hwhole hown
      rwa [sub_sub_sub_cancel_left] at this
    · intro hmid
      have := Int.dvd_sub hwhole hmid
      rwa [sub_sub_sub_cancel_right] at this
  constructor
  · intro hfirst
    refine ⟨hline.mp hfirst.isLine, fun u hle hlt _ => ?_⟩
    have hnot := hfirst.first u hle hlt
    rw [isLine_iff z h] at hnot
    by_cases hbefore : z.ownMidnight u ≤ u
    · exact Or.inr fun hdvd => hnot ⟨hbefore, hdvd⟩
    · exact Or.inl (not_le.mp hbefore)
  · intro hmeet
    refine ⟨hahead, hline.mpr hmeet.lands, fun u hle hlt hon => ?_⟩
    obtain ⟨hbefore, hown⟩ := (isLine_iff z h u).mp hon
    have hother : t + every ≤ z.localMidnightAtOrBefore t ∨
        ¬ (every : ℤ) ∣ z.ownMidnight u - z.localMidnightAtOrBefore t := by
      by_cases hlate : t + every ≤ z.localMidnightAtOrBefore t
      · exact Or.inl hlate
      · right
        intro hmid
        have hsum := Int.dvd_add hown hmid
        rw [sub_add_sub_cancel] at hsum
        exact not_dvd_of_lt_toWhole z h (not_le.mp hlate) hle hlt hsum
    rcases hmeet.clear u hle hlt hother with hlater | hnot
    · omega
    · exact hnot hown

/-- Half-hour lines of a zone at two hours past UTC, asked a minute past a line. -/
theorem boundary_firstLine_halfHour : (fixed 7200 (by decide)).FirstLine 1800000000000
    60000000000 (Bumper.boundaryAtOrAfter (fixed 7200 (by decide)) 60000000000 1800000000000) :=
  (boundary_firstLine_iff _ (by decide) _).mpr (fixed_linesMeet (by decide) _)

end Zone

/-- Chicago around its start of summer time, 2026-03-08T08:00Z: the clock goes from 02:00 to 03:00,
and the primary offset is the local mean time. -/
def chicago : Zone where
  primary := -21036
  offset := tableOffset (-21600) [(1772956800000000000, -18000)]
  offset_lt t := by
    simp only [tableOffset, List.filter]
    split <;> decide

/-- Six-hour lines at 23:30 of the day that has 23 hours: the fourth from its midnight is 01:00 of
the next day, and the midnight in between is jumped over. -/
theorem chicago_jumps_midnight :
    Bumper.boundaryAtOrAfter chicago 1773030600000000000 21600000000000 = 1773036000000000000 ∧
      ¬ chicago.FirstLine 21600000000000 1773030600000000000
        (Bumper.boundaryAtOrAfter chicago 1773030600000000000 21600000000000) := by
  have hjump : Bumper.boundaryAtOrAfter chicago 1773030600000000000 21600000000000 =
      1773036000000000000 := by decide
  refine ⟨hjump, fun hfirst => ?_⟩
  refine hfirst.first 1773032400000000000 (by decide) (by rw [hjump]; decide) ⟨0, ?_⟩
  decide

end EtvStation
