import Mathlib.Order.Monotone.Defs
import Mathlib.Data.List.Basic
import Mathlib.Order.Basic
import Mathlib.Data.Nat.Notation

/-! A bounded walk back through a history. Distance grows item by item and the walk ends at
the first item out of reach, so a history cut to what the walk reaches answers every later
walk as the whole history does. Histories are given newest first. -/
namespace EtvStation.Lib

/-- How a walk measures what it passes, and when it has gone too far. -/
structure Reckoning (α δ : Type) [Preorder δ] where
  step : δ → α → δ
  spent : δ → Bool
  le_step : ∀ d a, d ≤ step d a
  step_mono : ∀ a, Monotone fun d => step d a
  spent_mono : ∀ {d d'}, d ≤ d' → spent d → spent d'

namespace Reckoning

variable {α δ : Type} [Preorder δ] (R : Reckoning α δ)

/-- The items a walk starting at distance `d` reaches, each with its distance. -/
def reached (d : δ) : List α → List (α × δ)
  | [] => []
  | a :: as => if R.spent (R.step d a) then [] else (a, R.step d a) :: reached (R.step d a) as

@[simp] theorem reached_nil (d : δ) : R.reached d [] = [] := rfl

theorem reached_length_le (d : δ) (as : List α) : (R.reached d as).length ≤ as.length := by
  induction as generalizing d with
  | nil => simp
  | cons a as ih =>
    simp only [reached]
    split
    · simp
    · simpa using ih _

/-- A walk that starts farther out reaches no more. -/
theorem reached_length_anti (as : List α) {d d' : δ} (h : d ≤ d') :
    (R.reached d' as).length ≤ (R.reached d as).length := by
  induction as generalizing d d' with
  | nil => simp
  | cons a as ih =>
    have hstep : R.step d a ≤ R.step d' a := R.step_mono a h
    simp only [reached]
    split_ifs with h' hd hd
    · simp
    · simp
    · exact absurd (R.spent_mono hstep hd) h'
    · simpa using ih hstep

/-- Nothing past the reach is read. -/
theorem reached_take (d : δ) (as : List α) {k : ℕ} (hk : (R.reached d as).length ≤ k) :
    R.reached d (as.take k) = R.reached d as := by
  induction as generalizing d k with
  | nil => simp
  | cons a as ih =>
    cases k with
    | zero =>
      simp only [reached] at hk ⊢
      split_ifs at hk ⊢ with h
      · simp
      · simp at hk
    | succ k =>
      simp only [List.take_succ_cons, reached] at hk ⊢
      split_ifs at hk ⊢ with h
      · rfl
      · rw [ih _ (by simpa using hk)]

theorem reached_append_length (d : δ) (xs as : List α) :
    (R.reached d (xs ++ as)).length ≤ xs.length + (R.reached d as).length := by
  induction xs generalizing d with
  | nil => simp
  | cons x xs ih =>
    simp only [List.cons_append, reached, List.length_cons]
    split_ifs
    · simp
    · have hfar := R.reached_length_anti as (R.le_step d x)
      have hrest := ih (R.step d x)
      simp only [List.length_cons]
      omega

/-- `recent` is the newest part of `history`, and holds all a walk from `d` reaches. -/
def Keeps (d : δ) (recent history : List α) : Prop :=
  ∃ k, recent = history.take k ∧ (R.reached d history).length ≤ k

variable {R} {d : δ} {recent history : List α}

theorem Keeps.refl (d : δ) (history : List α) : R.Keeps d history history :=
  ⟨history.length, by simp, R.reached_length_le d history⟩

/-- A kept window answers a walk from `d`, or from farther out, as the history does. -/
theorem Keeps.reached_eq (h : R.Keeps d recent history) {d' : δ} (hd : d ≤ d') :
    R.reached d' recent = R.reached d' history := by
  obtain ⟨k, rfl, hk⟩ := h
  exact R.reached_take d' history (Nat.le_trans (R.reached_length_anti history hd) hk)

theorem Keeps.append (h : R.Keeps d recent history) (xs : List α) :
    R.Keeps d (xs ++ recent) (xs ++ history) := by
  obtain ⟨k, rfl, hk⟩ := h
  refine ⟨xs.length + k, by rw [List.take_length_add_append], ?_⟩
  have hlen := R.reached_append_length d xs history
  omega

/-- Cutting a kept window to its own reach keeps it. -/
theorem Keeps.trim (h : R.Keeps d recent history) :
    R.Keeps d (recent.take (R.reached d recent).length) history := by
  rw [h.reached_eq le_rfl]
  obtain ⟨k, rfl, hk⟩ := h
  exact ⟨(R.reached d history).length, by rw [List.take_take, Nat.min_eq_left hk], Nat.le_refl _⟩

end Reckoning

end EtvStation.Lib
