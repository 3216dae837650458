import Mathlib.Data.List.Basic
import Mathlib.Data.List.Nodup

/-! A sequence that goes round a set of members: complete passes, then a pass under way. -/
namespace EtvStation.Lib

variable {α : Type}

def IsPass (members pass : List α) : Prop := pass.Nodup ∧ ∀ m, m ∈ pass ↔ m ∈ members

/-- `done` passes over, `current` the one under way. -/
structure Passes (members : List α) (seq current : List α) : Prop where
  split : ∃ done : List (List α), seq = done.flatten ++ current ∧ ∀ p ∈ done, IsPass members p
  nodup : current.Nodup
  subset : current ⊆ members

theorem Passes.nil (members : List α) : Passes members [] [] :=
  ⟨⟨[], rfl, nofun⟩, List.nodup_nil, List.nil_subset _⟩

/-- A member the pass under way has not had goes on it. -/
theorem Passes.next {members seq current : List α} (h : Passes members seq current) {m : α}
    (hm : m ∈ members) (hnew : m ∉ current) : Passes members (seq ++ [m]) (current ++ [m]) := by
  obtain ⟨done, rfl, hdone⟩ := h.split
  refine ⟨⟨done, by simp, hdone⟩, ?_, ?_⟩
  · exact h.nodup.append (List.nodup_singleton m) (by simpa using hnew)
  · intro x hx
    rcases List.mem_append.mp hx with hx | hx
    · exact h.subset hx
    · obtain rfl := List.mem_singleton.mp hx
      exact hm

/-- A pass that has had every member is done. -/
theorem Passes.close {members seq current : List α} (h : Passes members seq current)
    (hall : ∀ m ∈ members, m ∈ current) : Passes members seq [] := by
  obtain ⟨done, rfl, hdone⟩ := h.split
  refine ⟨⟨done ++ [current], by simp, ?_⟩, List.nodup_nil, List.nil_subset _⟩
  intro p hp
  rcases List.mem_append.mp hp with hp | hp
  · exact hdone p hp
  · obtain rfl := List.mem_singleton.mp hp
    exact ⟨h.nodup, fun m => ⟨fun hm => h.subset hm, hall m⟩⟩

end EtvStation.Lib
