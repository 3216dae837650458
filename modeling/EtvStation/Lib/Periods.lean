import Mathlib.Algebra.Order.Group.Int
import Mathlib.Tactic.NormNum

/-! A function that names, for every instant, the period it takes the instant to be in. -/
namespace EtvStation.Lib

variable (period : ℤ → ℤ × ℤ)

/-- The period named for `t` holds `t`, is named for each of its instants, and the next one starts
where it ends. -/
structure PeriodHolds (t : ℤ) : Prop where
  start_le : (period t).1 ≤ t
  lt_stop : t < (period t).2
  same : ∀ u, (period t).1 ≤ u → u < (period t).2 → period u = period t
  follows : (period (period t).2).1 = (period t).2

/-- From `t` to the next instant the period stays, or one ends and another starts just there. -/
def PeriodSteps (t : ℤ) : Prop :=
  period (t + 1) = period t ∨ (period t).2 = t + 1 ∧ (period (t + 1)).1 = t + 1

variable {period}

theorem PeriodHolds.steps {t : ℤ} (h : PeriodHolds period t) : PeriodSteps period t := by
  have hle := h.start_le
  have hlt := h.lt_stop
  by_cases hin : t + 1 < (period t).2
  · exact Or.inl (h.same (t + 1) (by omega) hin)
  · have hstop : (period t).2 = t + 1 := by omega
    have hfollows := h.follows
    rw [hstop] at hfollows
    exact Or.inr ⟨hstop, hfollows⟩

/-- A period that has ended is never left. -/
theorem PeriodSteps.stuck (h : ∀ t, PeriodSteps period t) {t : ℤ} (hstop : (period t).2 ≤ t)
    (n : ℕ) : period (t + n) = period t := by
  induction n with
  | zero => simp
  | succ n ih =>
    have hcast : t + ((n + 1 : ℕ) : ℤ) = t + n + 1 := by omega
    rw [hcast]
    cases h (t + n) with
    | inl hsame => rw [hsame, ih]
    | inr hmeet =>
      have hend := hmeet.1
      rw [ih] at hend
      omega

/-- Nor, going back, one that has not started. -/
theorem PeriodSteps.stuck_back (h : ∀ t, PeriodSteps period t) {t : ℤ} (hstart : t < (period t).1)
    (n : ℕ) : period (t - n) = period t := by
  induction n with
  | zero => simp
  | succ n ih =>
    have hcast : t - ((n + 1 : ℕ) : ℤ) + 1 = t - n := by omega
    cases h (t - ((n + 1 : ℕ) : ℤ)) with
    | inl hsame =>
      rw [hcast] at hsame
      rw [← hsame, ih]
    | inr hmeet =>
      have hbegin := hmeet.2
      rw [hcast, ih] at hbegin
      omega

theorem PeriodSteps.forward (h : ∀ t, PeriodSteps period t) {t : ℤ} (n : ℕ)
    (hn : t + n < (period t).2) : period (t + n) = period t := by
  induction n with
  | zero => simp
  | succ n ih =>
    have hcast : t + ((n + 1 : ℕ) : ℤ) = t + n + 1 := by omega
    rw [hcast] at hn ⊢
    have hbefore := ih (by omega)
    cases h (t + n) with
    | inl hsame => rw [hsame, hbefore]
    | inr hmeet =>
      have hend := hmeet.1
      rw [hbefore] at hend
      omega

theorem PeriodSteps.back (h : ∀ t, PeriodSteps period t) {t : ℤ} (n : ℕ)
    (hn : (period t).1 ≤ t - n) : period (t - n) = period t := by
  induction n with
  | zero => simp
  | succ n ih =>
    have hcast : t - ((n + 1 : ℕ) : ℤ) + 1 = t - n := by omega
    have hafter := ih (by push_cast at hn; omega)
    cases h (t - ((n + 1 : ℕ) : ℤ)) with
    | inl hsame =>
      rw [hcast] at hsame
      rw [← hsame, hafter]
    | inr hmeet =>
      have hbegin := hmeet.2
      rw [hcast, hafter] at hbegin
      push_cast at hn
      omega

/-- Periods that stay within some distance of their instants tile time exactly when they change
from one instant to the next only where one ends and the next starts. -/
theorem periodHolds_iff (far : ℕ) (hstop : ∀ t, t - far < (period t).2)
    (hstart : ∀ t, (period t).1 < t + far) :
    (∀ t, PeriodHolds period t) ↔ ∀ t, PeriodSteps period t := by
  constructor
  · intro h t
    exact (h t).steps
  · intro h t
    have hlt : ∀ t, t < (period t).2 := by
      intro t
      by_contra hended
      have hstuck := PeriodSteps.stuck h (not_lt.mp hended) far
      have hlater := hstop (t + far)
      rw [hstuck] at hlater
      omega
    have hle : ∀ t, (period t).1 ≤ t := by
      intro t
      by_contra hahead
      have hstuck := PeriodSteps.stuck_back h (not_le.mp hahead) far
      have hsooner := hstart (t - far)
      rw [hstuck] at hsooner
      omega
    have hsame : ∀ u, (period t).1 ≤ u → u < (period t).2 → period u = period t := by
      intro u hfrom hto
      by_cases hu : t ≤ u
      · have heq : t + ((u - t).toNat : ℤ) = u := by omega
        have := PeriodSteps.forward h (t := t) (u - t).toNat (by omega)
        rwa [heq] at this
      · have heq : t - ((t - u).toNat : ℤ) = u := by omega
        have := PeriodSteps.back h (t := t) (t - u).toNat (by omega)
        rwa [heq] at this
    refine ⟨hle t, hlt t, hsame, ?_⟩
    have hlast := hsame ((period t).2 - 1) (by have := hle t; have := hlt t; omega) (by omega)
    have hstep := h ((period t).2 - 1)
    rw [PeriodSteps, sub_add_cancel, hlast] at hstep
    cases hstep with
    | inl hstay =>
      have := hlt (period t).2
      rw [hstay] at this
      omega
    | inr hmeet => exact hmeet.2

/-- Where periods tile, two instants have one start exactly when one's period holds the other. -/
theorem start_eq_iff (h : ∀ t, PeriodHolds period t) (t u : ℤ) :
    (period u).1 = (period t).1 ↔ (period t).1 ≤ u ∧ u < (period t).2 := by
  constructor
  · intro heq
    have hle := (h u).start_le
    have hfirst := (h t).same (period t).1 le_rfl ((h t).start_le.trans_lt (h t).lt_stop)
    have hfirst' := (h u).same (period t).1 heq.le (by rw [← heq]; exact hle.trans_lt (h u).lt_stop)
    rw [hfirst] at hfirst'
    rw [hfirst']
    exact ⟨hle, (h u).lt_stop⟩
  · rintro ⟨hfrom, hto⟩
    rw [(h t).same u hfrom hto]

end EtvStation.Lib
