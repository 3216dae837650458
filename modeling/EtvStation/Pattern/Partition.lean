import EtvStation.Pattern.Reachable

/-! The series of a pool share its ids out among them, whatever the constraints, the grouping and
the bucket order. -/
namespace EtvStation

namespace Grouped

variable {cols : ItemColumns} {cfg : Pool} {ids : List EntryId} {series : List Series}

theorem sublist (h : Grouped cols cfg ids series) {s : Series} (hs : s ∈ series) :
    s.ids.Sublist ids := by
  rw [h.ids_eq s hs]
  exact List.filter_sublist

theorem key_eq (h : Grouped cols cfg ids series) {s : Series} (hs : s ∈ series) {x : EntryId}
    (hx : x ∈ s.ids) : cols.key cfg x = s.key := by
  rw [h.ids_eq s hs] at hx
  exact of_decide_eq_true (List.mem_filter.mp hx).2

theorem eq_of_key (h : Grouped cols cfg ids series) {s t : Series} (hs : s ∈ series)
    (ht : t ∈ series) (hkey : s.key = t.key) : s = t :=
  List.inj_on_of_nodup_map h.keys_nodup hs ht hkey

theorem exists_mem (h : Grouped cols cfg ids series) {x : EntryId} (hx : x ∈ ids) :
    ∃ s ∈ series, x ∈ s.ids := by
  obtain ⟨s, hs, hkey⟩ := List.mem_map.mp (h.covered x hx)
  refine ⟨s, hs, ?_⟩
  rw [h.ids_eq s hs, List.mem_filter]
  exact ⟨hx, decide_eq_true hkey.symm⟩

/-- Every id is in one series and in no other. -/
theorem existsUnique (h : Grouped cols cfg ids series) {x : EntryId} (hx : x ∈ ids) :
    ∃! s, s ∈ series ∧ x ∈ s.ids := by
  obtain ⟨s, hs, hmem⟩ := h.exists_mem hx
  refine ⟨s, ⟨hs, hmem⟩, ?_⟩
  rintro t ⟨ht, hmem'⟩
  apply h.eq_of_key ht hs
  rw [← h.key_eq ht hmem', h.key_eq hs hmem]

theorem flatMap_nodup (h : Grouped cols cfg ids series) (hids : ids.Nodup) :
    (series.flatMap (·.ids)).Nodup := by
  rw [List.nodup_flatMap]
  refine ⟨fun s hs => (h.sublist hs).nodup hids, ?_⟩
  have hkeys : series.Pairwise fun s t => s.key ≠ t.key := List.pairwise_map.mp h.keys_nodup
  apply hkeys.imp_of_mem
  intro s t hs ht hne x hx hx'
  exact hne ((h.key_eq hs hx).symm.trans (h.key_eq ht hx'))

/-- The series hold the list and no more. -/
theorem flatMap_perm (h : Grouped cols cfg ids series) (hids : ids.Nodup) :
    (series.flatMap (·.ids)).Perm ids := by
  rw [List.perm_ext_iff_of_nodup (h.flatMap_nodup hids) hids]
  intro x
  rw [List.mem_flatMap]
  constructor
  · rintro ⟨s, hs, hx⟩
    exact (h.sublist hs).subset hx
  · exact fun hx => h.exists_mem hx

end Grouped

section

variable {cat : Catalog} {cfg : Pool} {ids : List EntryId} {block : Option Constraints}
  {seam : List EntryId} {want : Bool} {seed : UInt64} {r : ResolvedPool}

/-- The constrained list is grouped, and then the bucket order is all that is done to it. -/
theorem resolvePoolSeries_eq_ok (h : resolvePoolSeries cat cfg ids block seam want seed = .ok r) :
    ∃ cols, orderBuckets cat cfg seed
        (groupSeries cols cfg (constrainPool r.limits r.keys seam ids)) = .ok r.series ∧
      resolvePoolSeries cat { cfg with bucketOrder := none } ids block seam want seed =
        .ok { r with series := groupSeries cols cfg (constrainPool r.limits r.keys seam ids) } := by
  unfold resolvePoolSeries at h ⊢
  obtain ⟨⟨runtimes, mean⟩, hruntimes, h⟩ := Lib.bind_eq_ok.mp h
  obtain ⟨keys, hkeys, h⟩ := Lib.bind_eq_ok.mp h
  obtain ⟨cols, hcols, h⟩ := Lib.bind_eq_ok.mp h
  obtain ⟨series, hseries, h⟩ := Lib.bind_eq_ok.mp h
  obtain rfl := Except.ok.inj h
  refine ⟨cols, hseries, ?_⟩
  apply Lib.bind_eq_ok.mpr
  refine ⟨(runtimes, mean), hruntimes, ?_⟩
  apply Lib.bind_eq_ok.mpr
  refine ⟨keys, hkeys, ?_⟩
  apply Lib.bind_eq_ok.mpr
  exact ⟨cols, hcols, rfl⟩

/-- A list without repeats is shared out among series of distinct keys, none of them empty and each
in the order of the constrained list. A bucket order permutes whole series. -/
theorem resolvePoolSeries_partition (hids : ids.Nodup)
    (h : resolvePoolSeries cat cfg ids block seam want seed = .ok r) :
    (constrainPool r.limits r.keys seam ids).Perm ids ∧
    (r.series.flatMap (·.ids)).Perm ids ∧
    (∀ x ∈ ids, ∃! s, s ∈ r.series ∧ x ∈ s.ids) ∧
    (r.series.map (·.key)).Nodup ∧
    (∀ s ∈ r.series, s.ids ≠ [] ∧ s.ids.Sublist (constrainPool r.limits r.keys seam ids)) ∧
    ∃ r', resolvePoolSeries cat { cfg with bucketOrder := none } ids block seam want seed = .ok r' ∧
      r.series.Perm r'.series := by
  obtain ⟨cols, hbuckets, hplain⟩ := resolvePoolSeries_eq_ok h
  have hconstrained := constrainPool_perm r.limits r.keys seam ids
  have hnodup := hconstrained.nodup_iff.mpr hids
  have hperm := orderBuckets_perm hbuckets
  have hgrouped := (groupSeries_grouped cols cfg _).perm hperm
  refine ⟨hconstrained, (hgrouped.flatMap_perm hnodup).trans hconstrained, ?_,
    hgrouped.keys_nodup, ?_, _, hplain, hperm⟩
  · intro x hx
    exact hgrouped.existsUnique (hconstrained.mem_iff.mpr hx)
  · intro s hs
    exact ⟨hgrouped.ids_ne s hs, hgrouped.sublist hs⟩

end

/-- Two episodes of one show and a film, the series to be sequenced from the last id back. -/
def twoShows : Catalog where
  showIdsFor _ := .ok fun id => if id = "a1" ∨ id = "a2" then some "a" else none
  resolveOrder ids _ _ := .ok ids.reverse

theorem twoShows_partition :
    ∃ r, resolvePoolSeries twoShows { name := "p", bucketOrder := some "random" }
        ["a1", "film", "a2"] none [] false 0 = .ok r ∧
      (r.series.map (·.ids)).flatten.Perm ["a1", "film", "a2"] := by
  cases h : resolvePoolSeries twoShows { name := "p", bucketOrder := some "random" }
      ["a1", "film", "a2"] none [] false 0 with
  | error e => cases h
  | ok r =>
    obtain ⟨-, hperm, -⟩ := resolvePoolSeries_partition (by decide) h
    refine ⟨r, rfl, ?_⟩
    rwa [← List.flatMap_def]

end EtvStation
