import EtvStation.Calendar.Schedule
import EtvStation.Resolve.Change
import Mathlib.Data.Int.LeastGreatest

/-! Whether the boundaries of a calendar are all there. What is on air is asked of the local clock;
the boundaries are local lines resolved to instants, one instant for each. -/
namespace EtvStation.Resolve

namespace SlotRule

variable (rule : SlotRule)

theorem mem_lineMinutes {m : ℕ} : m ∈ rule.lineMinutes ↔ m < 1440 ∧
    (m = 0 ∨ ∃ s ∈ rule.order, ∃ e ∈ s.hours, m = e.1.start ∨ m = e.1.end_) := by
  simp only [lineMinutes, List.mem_dedup, List.mem_insertionSort, List.mem_filter,
    decide_eq_true_eq, List.mem_cons, List.mem_flatMap, List.not_mem_nil, or_false, and_comm]

/-- The clock reads at `u` the minute it read at `p`, or the next one, and that is no line. -/
def RunsOn (p u : ℤ) : Prop :=
  rule.clockMinute u = rule.clockMinute p ∨
    rule.clockMinute u = rule.clockMinute p + 1 ∧
      (rule.clockMinute u % 1440).toNat ∉ rule.lineMinutes

/-- The walk over the days gets to `day`: no day up to it has all its lines past. -/
def Walked (from_ until_ day : ℤ) : Prop :=
  rule.firstDay from_ ≤ day ∧
    ∀ d, rule.firstDay from_ ≤ d → d ≤ day → ∃ m ∈ rule.lineMinutes, rule.lineAt d m < until_

/-- `b` is one of the instants of a line, of a day the walk gets to. -/
structure Marked (from_ until_ b : ℤ) : Prop where
  line : ∃ day, rule.Walked from_ until_ day ∧
    ∃ m ∈ rule.lineMinutes, rule.lineAt day m < until_ ∧ b ∈ rule.lineInstants day m

/-- Another block is on air at `t` than at `from_`. -/
def Changed (from_ t : ℤ) : Prop := (rule.onAir t).sameBlock (rule.onAir from_) = false

/-- The minute walked before `u`. -/
def walkedBefore (from_ u : ℤ) : ℤ := max from_ (u - MINUTE)

/-- The instant at which the zone is asked for the offset of the line the clock shows at `u`. -/
def readAt (u : ℤ) : ℤ := rule.clockMinute u * MINUTE - rule.tz.primary * SECOND

/-- `u` is the first whole minute with another block than `from_`. -/
structure FirstChanged (from_ u : ℤ) : Prop where
  whole : MINUTE ∣ u
  after : from_ < u
  changed : rule.Changed from_ u
  before : ∀ w, MINUTE ∣ w → from_ < w → w < u → ¬ rule.Changed from_ w

theorem FirstChanged.ne {from_ u : ℤ} (h : rule.FirstChanged from_ u) :
    rule.onAir u ≠ rule.onAir (walkedBefore from_ u) := by
  intro hsame
  have hchanged := h.changed
  rw [Changed, hsame] at hchanged
  have hself : ¬ rule.Changed from_ from_ := by
    unfold Changed
    cases rule.onAir from_ <;> simp [OnAir.sameBlock]
  rcases max_choice from_ (u - MINUTE) with hmax | hmax
  · rw [walkedBefore, hmax] at hchanged
    exact hself hchanged
  · rw [walkedBefore, hmax] at hchanged
    rcases (max_eq_right_iff.mp hmax).eq_or_lt with heq | hlt
    · rw [← heq] at hchanged
      exact hself hchanged
    · refine h.before (u - MINUTE) (Int.dvd_sub h.whole dvd_rfl) hlt ?_ hchanged
      simp only [MINUTE]
      omega

/-- The instants whose offsets a window can turn on. -/
def Near (from_ until_ t : ℤ) : Prop := from_ - 4 * DAY ≤ t ∧ t ≤ until_ + 4 * DAY

/-- Around a window the zone changes on whole minutes, between offsets of whole minutes a day apart
at most, and no change skips a line, repeats it, or comes between it and where it is read. -/
structure Clear (from_ until_ : ℤ) : Prop where
  primary : |rule.tz.primary| * SECOND < DAY
  minutes : ∀ t, Near from_ until_ t → 60 ∣ rule.tz.offset t
  whole : ∀ t, Near from_ until_ t → rule.tz.offset (t + 1) ≠ rule.tz.offset t → MINUTE ∣ t + 1
  day : ∀ t u, Near from_ until_ t → Near from_ until_ u →
    rule.tz.shift t - rule.tz.shift u ≤ DAY
  lines : ∀ t, Near from_ until_ t → rule.tz.offset (t + 1) ≠ rule.tz.offset t →
    ∀ minute : ℤ, (minute % 1440).toNat ∈ rule.lineMinutes →
      minute * MINUTE - (t + 1) < min (min (rule.tz.shift t) (rule.tz.shift (t + 1)))
          (rule.tz.primary * SECOND) ∨
        max (max (rule.tz.shift t) (rule.tz.shift (t + 1))) (rule.tz.primary * SECOND) <
          minute * MINUTE - (t + 1)

section
variable {rule : SlotRule} {from_ until_ u : ℤ}

theorem Clear.primary_bounds (h : rule.Clear from_ until_) :
    -DAY < rule.tz.primary * SECOND ∧ rule.tz.primary * SECOND < DAY := by
  have hprimary := h.primary
  rw [show DAY = 86400 * SECOND from rfl] at hprimary ⊢
  have habs := abs_lt.mp (lt_of_mul_lt_mul_right hprimary (by decide))
  simp only [SECOND]
  omega

theorem clockMinute_bounds (rule : SlotRule) (u : ℤ) :
    rule.clockMinute u * MINUTE ≤ u + rule.tz.shift u ∧
      u + rule.tz.shift u < rule.clockMinute u * MINUTE + MINUTE := by
  simp only [clockMinute, Zone.toLocal, MINUTE]
  omega

/-- At a whole minute the clock reads a whole minute. -/
theorem Clear.clockMinute_mul (h : rule.Clear from_ until_) (hu : MINUTE ∣ u)
    (hnear : Near from_ until_ u) : rule.clockMinute u * MINUTE = u + rule.tz.shift u := by
  have hminutes := h.minutes u hnear
  simp only [clockMinute, Zone.toLocal, Zone.shift, MINUTE, SECOND] at hu ⊢
  omega

/-- No change comes between a whole minute and where the line the clock shows at it is read. -/
theorem Clear.read (h : rule.Clear from_ until_) (hu : MINUTE ∣ u) (hfrom : from_ < u)
    (huntil : u < until_) (hline : (rule.clockMinute u % 1440).toNat ∈ rule.lineMinutes) :
    (∀ t, u ≤ t → t ≤ rule.readAt u → rule.tz.offset t = rule.tz.offset u) ∧
      ∀ t, rule.readAt u ≤ t → t ≤ u → rule.tz.offset t = rule.tz.offset u := by
  have hprimary := h.primary_bounds
  have hshift := rule.tz.shift_bounds u
  have hnear : Near from_ until_ u := by
    simp only [Near, DAY]
    omega
  have hclock := h.clockMinute_mul hu hnear
  have hread : rule.readAt u = u + rule.tz.shift u - rule.tz.primary * SECOND := by
    rw [readAt, hclock]
  have hnearby : ∀ t, (u ≤ t ∧ t ≤ rule.readAt u) ∨ (rule.readAt u ≤ t ∧ t ≤ u) →
      Near from_ until_ t := by
    intro t ht
    simp only [Near, DAY] at *
    omega
  constructor
  · intro t hle hread'
    induction t, hle using Int.leInduction with
    | base => rfl
    | succ t hle ih =>
      have hoffset := ih (by omega)
      rw [← hoffset]
      by_contra hne
      have hlines := h.lines t (hnearby t (Or.inl ⟨hle, by omega⟩)) hne _ hline
      have hsame : rule.tz.shift t = rule.tz.shift u := by rw [Zone.shift, Zone.shift, hoffset]
      rw [hclock, lt_min_iff, lt_min_iff, max_lt_iff, max_lt_iff] at hlines
      omega
  · intro t hread' hle
    induction t, hle using Int.leInductionDown with
    | base => rfl
    | pred t hle ih =>
      have hoffset := ih (by omega)
      rw [← hoffset]
      by_contra hne
      have hlines := h.lines (t - 1) (hnearby _ (Or.inr ⟨hread', by omega⟩))
        (by rw [sub_add_cancel]; exact fun heq => hne heq.symm) _ hline
      have hsame : rule.tz.shift t = rule.tz.shift u := by rw [Zone.shift, Zone.shift, hoffset]
      rw [hclock, sub_add_cancel, lt_min_iff, lt_min_iff, max_lt_iff, max_lt_iff] at hlines
      omega

theorem Clear.walked (h : rule.Clear from_ until_) (hu : MINUTE ∣ u) (hfrom : from_ < u)
    (huntil : u < until_) (hline : (rule.clockMinute u % 1440).toNat ∈ rule.lineMinutes) :
    rule.Walked from_ until_ (rule.clockMinute u / 1440) := by
  have hprimary := h.primary_bounds
  have hnear : Near from_ until_ from_ ∧ Near from_ until_ u := by
    simp only [Near, DAY]
    omega
  have hclock := h.clockMinute_mul hu hnear.2
  obtain ⟨hlow, hhigh⟩ := clockMinute_bounds rule from_
  have hdrop := h.day from_ u hnear.1 hnear.2
  have hshift := rule.tz.shift_bounds u
  constructor
  · unfold firstDay
    simp only [MINUTE, DAY] at *
    omega
  intro d hfirst hlast
  rcases hlast.eq_or_lt with rfl | hlt
  · refine ⟨_, hline, lt_of_le_of_lt (le_of_eq ?_) huntil⟩
    have hsame : rule.tz.shift (rule.readAt u) = rule.tz.shift u := by
      obtain ⟨hahead, hbehind⟩ := h.read hu hfrom huntil hline
      rw [Zone.shift, Zone.shift]
      congr 1
      rcases le_total u (rule.readAt u) with hle | hle
      · exact hahead _ hle le_rfl
      · exact hbehind _ le_rfl hle
    have hnaive : rule.clockMinute u / 1440 * DAY +
        ((rule.clockMinute u % 1440).toNat : ℕ) * MINUTE = rule.clockMinute u * MINUTE := by
      simp only [DAY, MINUTE]
      omega
    unfold lineAt Zone.toUtcAssumeLocal
    rw [hnaive]
    change _ - rule.tz.shift (rule.readAt u) = u
    rw [hsame, hclock]
    ring
  · refine ⟨0, rule.mem_lineMinutes.mpr ⟨by omega, Or.inl rfl⟩, ?_⟩
    have hread := rule.tz.shift_bounds (d * DAY - rule.tz.primary * SECOND)
    have hrise := h.day u (d * DAY - rule.tz.primary * SECOND) hnear.2
    unfold lineAt Zone.toUtcAssumeLocal
    rw [Nat.cast_zero, zero_mul, add_zero]
    by_cases hfar : Near from_ until_ (d * DAY - rule.tz.primary * SECOND)
    · have hle := hrise hfar
      simp only [MINUTE, DAY] at *
      omega
    · simp only [Near, MINUTE, DAY] at *
      omega

end

end SlotRule

end EtvStation.Resolve
