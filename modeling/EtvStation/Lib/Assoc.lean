import Mathlib.Data.List.Nodup

/-! Association lists with pairwise different keys: a lookup reads the one entry there is,
whatever the order. -/
namespace EtvStation.Lib

variable {κ ν : Type} [DecidableEq κ]

theorem lookup_eq_some_iff_mem {l : List (κ × ν)} (h : (l.map Prod.fst).Nodup) {k : κ} {v : ν} :
    l.lookup k = some v ↔ (k, v) ∈ l := by
  induction l with
  | nil => simp
  | cons e l ih =>
    obtain ⟨k', v'⟩ := e
    rw [List.map_cons, List.nodup_cons] at h
    by_cases hk : k = k'
    · subst hk
      have hnot : (k, v) ∉ l := fun hmem => h.1 (List.mem_map.mpr ⟨_, hmem, rfl⟩)
      simp [hnot, eq_comm]
    · have hne : (k == k') = false := by simpa using hk
      rw [List.lookup_cons, hne, ih h.2]
      simp [hk]

theorem lookup_perm {l l' : List (κ × ν)} (h : (l.map Prod.fst).Nodup) (hp : l'.Perm l) (k : κ) :
    l'.lookup k = l.lookup k := by
  have h' : (l'.map Prod.fst).Nodup := (hp.map _).nodup_iff.mpr h
  refine Option.ext fun v => ?_
  rw [lookup_eq_some_iff_mem h, lookup_eq_some_iff_mem h', hp.mem_iff]

end EtvStation.Lib
