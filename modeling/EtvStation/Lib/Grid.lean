import Mathlib.Algebra.Order.Group.Int
import Mathlib.Logic.Function.Iterate
import Mathlib.Tactic.NormNum

/-! A grid of instants walked one line at a time. Every instant names a line to start from, and
the walk stops at the last line it is not before. -/
namespace EtvStation.Lib

/-- Step from `a` to the last line at or before `t`; `none` when the fuel runs out first. -/
def walkTo (next : ℤ → ℤ) (t : ℤ) : (fuel : ℕ) → ℤ → Option ℤ
  | 0, _ => none
  | fuel + 1, a => if t < next a then some a else walkTo next t fuel (next a)

/-- The walk from `a` towards `t` ends, at `b`. -/
def Lands (next : ℤ → ℤ) (t a b : ℤ) : Prop := ∃ fuel, walkTo next t fuel a = some b

variable {next : ℤ → ℤ} {t a b c : ℤ}

theorem walkTo_mono {fuel more : ℕ} (hle : fuel ≤ more) (h : walkTo next t fuel a = some b) :
    walkTo next t more a = some b := by
  induction fuel generalizing more a with
  | zero => simp [walkTo] at h
  | succ fuel ih =>
    obtain ⟨more, rfl⟩ : ∃ m, more = m + 1 := ⟨more - 1, by omega⟩
    simp only [walkTo] at h ⊢
    split_ifs at h ⊢ with hstop
    · exact h
    · exact ih (by omega) h

theorem Lands.unique (h : Lands next t a b) (h' : Lands next t a c) : b = c := by
  obtain ⟨m, hm⟩ := h
  obtain ⟨n, hn⟩ := h'
  have hb := walkTo_mono (le_max_left m n) hm
  have hc := walkTo_mono (le_max_right m n) hn
  exact Option.some.inj (hb.symm.trans hc)

theorem lands_here (h : t < next a) : Lands next t a a :=
  ⟨1, by simp [walkTo, h]⟩

theorem lands_next (h : next a ≤ t) : Lands next t a b ↔ Lands next t (next a) b := by
  constructor
  · rintro ⟨fuel, hfuel⟩
    cases fuel with
    | zero => simp [walkTo] at hfuel
    | succ fuel =>
      rw [walkTo, if_neg (by omega)] at hfuel
      exact ⟨fuel, hfuel⟩
  · rintro ⟨fuel, hfuel⟩
    refine ⟨fuel + 1, ?_⟩
    rw [walkTo, if_neg (by omega), hfuel]

/-- The walk lands on a line of the chain from `a`, with `t` short of the line after it. -/
theorem Lands.bounds (h : Lands next t a b) :
    (∃ n, next^[n] a = b) ∧ t < next b ∧ (a ≤ t → b ≤ t) := by
  obtain ⟨fuel, hfuel⟩ := h
  induction fuel generalizing a with
  | zero => simp [walkTo] at hfuel
  | succ fuel ih =>
    rw [walkTo] at hfuel
    split_ifs at hfuel with hstop
    · obtain rfl := Option.some.inj hfuel
      exact ⟨⟨0, rfl⟩, hstop, id⟩
    · obtain ⟨⟨n, hn⟩, hlt, hle⟩ := ih hfuel
      exact ⟨⟨n + 1, hn⟩, hlt, fun _ => hle (by omega)⟩

/-- Where every line has a later one after it, the walk ends. -/
theorem exists_lands (hnext : ∀ x, x < next x) (t a : ℤ) : ∃ b, Lands next t a b := by
  by_cases h : t < next a
  · exact ⟨a, lands_here h⟩
  · have hlt := hnext a
    obtain ⟨b, hb⟩ := exists_lands hnext t (next a)
    exact ⟨b, (lands_next (by omega)).mpr hb⟩
termination_by (t - a).toNat

/-- A later target is reached from where an earlier one was. -/
theorem Lands.later {u : ℤ} (h : Lands next t a b) (hle : t ≤ u) (hb : Lands next u b c) :
    Lands next u a c := by
  obtain ⟨fuel, hfuel⟩ := h
  induction fuel generalizing a with
  | zero => simp [walkTo] at hfuel
  | succ fuel ih =>
    rw [walkTo] at hfuel
    split_ifs at hfuel with hstop
    · obtain rfl := Option.some.inj hfuel
      exact hb
    · exact (lands_next (by omega)).mpr (ih hfuel)

theorem le_iterate (hnext : ∀ x, x < next x) (n : ℕ) (a : ℤ) : a ≤ next^[n] a := by
  induction n with
  | zero => rfl
  | succ n ih =>
    rw [Function.iterate_succ_apply']
    exact ih.trans (hnext _).le

/-- A chain of lines ends where any line of it that `t` has reached does. -/
theorem lands_iterate (hnext : ∀ x, x < next x) (n : ℕ) (hle : next^[n] a ≤ t) :
    Lands next t a b ↔ Lands next t (next^[n] a) b := by
  induction n generalizing a with
  | zero => rfl
  | succ n ih =>
    rw [Function.iterate_succ_apply] at hle
    rw [lands_next ((le_iterate hnext n _).trans hle), ih hle, ← Function.iterate_succ_apply]

section Tiling

variable (next : ℤ → ℤ) (start : ℤ → ℤ)

/-- Every instant is in one tile: the walk from its start ends on a line at or before it,
before the next, and every instant in between ends on the same one. -/
structure Tiles (t : ℤ) : Prop where
  progress : t < next t
  tile : ∃ b, Lands next t (start t) b ∧ b ≤ t ∧ t < next b ∧
    ∀ u, b ≤ u → u < next b → Lands next u (start u) b

/-- Two starts whose chains share the last line at or before `t`. -/
def Joined (t a a' : ℤ) : Prop :=
  ∃ m n, next^[m] a = next^[n] a' ∧ next^[m] a ≤ t ∧ t < next (next^[m] a)

variable {next start}

end Tiling

end EtvStation.Lib
