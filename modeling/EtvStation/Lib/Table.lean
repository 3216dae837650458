import Mathlib.Data.List.Nodup
import EtvStation.Lib.Assoc

/-! Tables: rows under a primary key no two of them share, read by key and written row by row. -/
namespace EtvStation.Lib

structure Table (κ ν : Type) where
  rows : List (κ × ν)
  keyed : (rows.map Prod.fst).Nodup

namespace Table

variable {κ ν : Type}

def empty : Table κ ν := ⟨[], List.nodup_nil⟩

/-- `UPDATE`: every row is rewritten under its key. -/
def update (t : Table κ ν) (f : κ → ν → ν) : Table κ ν where
  rows := t.rows.map fun r => (r.1, f r.1 r.2)
  keyed := by
    have hkeys : (t.rows.map fun r => (r.1, f r.1 r.2)).map Prod.fst = t.rows.map Prod.fst := by
      simp [Function.comp_def]
    rw [hkeys]
    exact t.keyed

def any (t : Table κ ν) (p : κ → ν → Bool) : Bool := t.rows.any fun r => p r.1 r.2

variable [DecidableEq κ]

def get (t : Table κ ν) (k : κ) : Option ν := t.rows.lookup k

theorem mem_rows {t : Table κ ν} {k : κ} {v : ν} : (k, v) ∈ t.rows ↔ t.get k = some v :=
  (lookup_eq_some_iff_mem t.keyed).symm

theorem get_eq_none {t : Table κ ν} {k : κ} : t.get k = none ↔ k ∉ t.rows.map Prod.fst := by
  rw [Option.eq_none_iff_forall_ne_some]
  constructor
  · intro h hk
    obtain ⟨r, hr, rfl⟩ := List.mem_map.mp hk
    exact h r.2 (mem_rows.mp hr)
  · intro h v hv
    exact h (List.mem_map.mpr ⟨(k, v), mem_rows.mpr hv, rfl⟩)

/-- `INSERT … ON CONFLICT DO UPDATE`: `f` sees the row there is, if any. -/
def upsert (t : Table κ ν) (k : κ) (f : Option ν → ν) : Table κ ν :=
  if h : t.get k = none then
    { rows := t.rows ++ [(k, f none)]
      keyed := by
        rw [List.map_append, List.nodup_append]
        refine ⟨t.keyed, List.nodup_singleton _, ?_⟩
        intro a ha b hb hab
        rw [hab, List.mem_singleton.mp hb] at ha
        exact get_eq_none.mp h ha }
  else t.update fun k' v => if k' = k then f (some v) else v

@[simp] theorem get_empty (k : κ) : (empty : Table κ ν).get k = none := rfl

@[simp] theorem get_update (t : Table κ ν) (f : κ → ν → ν) (k : κ) :
    (t.update f).get k = (t.get k).map (f k) := by
  refine Option.ext fun w => ?_
  rw [← mem_rows, Option.map_eq_some_iff]
  constructor
  · intro h
    obtain ⟨r, hr, heq⟩ := List.mem_map.mp h
    obtain ⟨rfl, rfl⟩ := Prod.mk.inj heq
    exact ⟨r.2, mem_rows.mp hr, rfl⟩
  · rintro ⟨v, hv, rfl⟩
    exact List.mem_map.mpr ⟨(k, v), mem_rows.mpr hv, rfl⟩

@[simp] theorem get_upsert (t : Table κ ν) (k : κ) (f : Option ν → ν) (k' : κ) :
    (t.upsert k f).get k' = if k' = k then some (f (t.get k)) else t.get k' := by
  unfold upsert
  split
  · rename_i h
    refine Option.ext fun w => ?_
    rw [← mem_rows, List.mem_append, List.mem_singleton, Prod.mk.injEq]
    split_ifs with hk
    · rw [hk, h, mem_rows, h]
      simp [eq_comm]
    · rw [mem_rows]
      simp [hk]
  · rename_i h
    rw [get_update]
    split_ifs with hk
    · obtain ⟨v, hv⟩ := Option.ne_none_iff_exists'.mp h
      rw [hk, hv]
      rfl
    · cases t.get k' <;> simp

/-- A write by key leaves the other rows as they are. -/
theorem filter_upsert (t : Table κ ν) (k : κ) (f : Option ν → ν) :
    (t.upsert k f).rows.filter (fun r => r.1 ≠ k) = t.rows.filter fun r => r.1 ≠ k := by
  unfold upsert
  split_ifs
  · have hnone : [(k, f none)].filter (fun r => r.1 ≠ k) = [] := by simp
    rw [List.filter_append, hnone, List.append_nil]
  · rw [update, List.filter_map]
    refine (List.map_congr_left ?_).trans (List.map_id _)
    intro r hr
    have hne : r.1 ≠ k := of_decide_eq_true (List.mem_filter.mp hr).2
    rw [if_neg hne]
    rfl

theorem any_eq_true {t : Table κ ν} {p : κ → ν → Bool} :
    t.any p = true ↔ ∃ k v, t.get k = some v ∧ p k v = true := by
  rw [any, List.any_eq_true]
  constructor
  · rintro ⟨r, hr, hp⟩
    exact ⟨r.1, r.2, mem_rows.mp hr, hp⟩
  · rintro ⟨k, v, hget, hp⟩
    exact ⟨(k, v), mem_rows.mpr hget, hp⟩

end Table

end EtvStation.Lib
