import EtvStation.Lib.Outcome
import EtvStation.Pattern.Runtime

/-! Grouping a pool's list into series: every id goes to the series of its key, in list order,
and a bucket order only permutes whole series. -/
namespace EtvStation

/-- `series` is the list `ids` cut by key, nothing drawn from it yet. -/
structure Grouped (cols : ItemColumns) (cfg : Pool) (ids : List EntryId)
    (series : List Series) : Prop where
  keys_nodup : (series.map (·.key)).Nodup
  ids_eq : ∀ s ∈ series, s.ids = ids.filter fun x => cols.key cfg x = s.key
  ids_ne : ∀ s ∈ series, s.ids ≠ []
  covered : ∀ x ∈ ids, cols.key cfg x ∈ series.map (·.key)
  unplayed : ∀ s ∈ series, s.cursor = 0 ∧ s.finished = false
  showKey_eq : ∀ s ∈ series, ∃ x ∈ s.ids, s.showKey = cols.showKey x

namespace Grouped

variable {cols : ItemColumns} {cfg : Pool} {ids : List EntryId} {series : List Series}

theorem nil (cols : ItemColumns) (cfg : Pool) : Grouped cols cfg [] [] where
  keys_nodup := by simp
  ids_eq := by simp
  ids_ne := by simp
  covered := by simp
  unplayed := by simp
  showKey_eq := by simp

theorem perm {series' : List Series} (h : Grouped cols cfg ids series)
    (hp : series'.Perm series) : Grouped cols cfg ids series' where
  keys_nodup := (hp.map _).nodup_iff.mpr h.keys_nodup
  ids_eq s hs := h.ids_eq s (hp.mem_iff.mp hs)
  ids_ne s hs := h.ids_ne s (hp.mem_iff.mp hs)
  covered x hx := (hp.map _).mem_iff.mpr (h.covered x hx)
  unplayed s hs := h.unplayed s (hp.mem_iff.mp hs)
  showKey_eq s hs := h.showKey_eq s (hp.mem_iff.mp hs)

/-- An id of a new key opens a series. -/
theorem openSeries (h : Grouped cols cfg ids series) {id : EntryId}
    (hnew : cols.key cfg id ∉ series.map (·.key)) :
    Grouped cols cfg (ids ++ [id])
      (series ++ [{ key := cols.key cfg id, showKey := cols.showKey id, ids := [id] }]) := by
  have hother : ∀ s ∈ series, cols.key cfg id ≠ s.key := fun s hs heq =>
    hnew (heq ▸ List.mem_map_of_mem hs)
  have hfirst : ids.filter (fun x => cols.key cfg x = cols.key cfg id) = [] :=
    List.filter_eq_nil_iff.mpr fun x hx heq =>
      hnew (of_decide_eq_true heq ▸ h.covered x hx)
  constructor
  · rw [List.map_append, List.nodup_append]
    refine ⟨h.keys_nodup, by simp, ?_⟩
    rintro a ha b hb rfl
    obtain rfl : a = cols.key cfg id := by simpa using hb
    exact hnew ha
  · intro s hs
    rw [List.filter_append]
    rcases List.mem_append.mp hs with hs | hs
    · simp [h.ids_eq s hs, hother s hs]
    · obtain rfl := List.mem_singleton.mp hs
      simp [hfirst]
  · intro s hs
    rcases List.mem_append.mp hs with hs | hs
    · exact h.ids_ne s hs
    · obtain rfl := List.mem_singleton.mp hs
      simp
  · intro x hx
    rw [List.map_append, List.mem_append]
    rcases List.mem_append.mp hx with hx | hx
    · exact Or.inl (h.covered x hx)
    · obtain rfl := List.mem_singleton.mp hx
      simp
  · intro s hs
    rcases List.mem_append.mp hs with hs | hs
    · exact h.unplayed s hs
    · obtain rfl := List.mem_singleton.mp hs
      exact ⟨rfl, rfl⟩
  · intro s hs
    rcases List.mem_append.mp hs with hs | hs
    · exact h.showKey_eq s hs
    · obtain rfl := List.mem_singleton.mp hs
      exact ⟨id, by simp, rfl⟩

/-- An id of a known key joins the one series of that key. -/
theorem joinSeries (h : Grouped cols cfg ids series) {id : EntryId} {i : ℕ}
    (hi : series.findIdx? (·.key == cols.key cfg id) = some i) :
    Grouped cols cfg (ids ++ [id])
      (series.modify i (·.push id)) := by
  obtain ⟨hlt, hkey, -⟩ := List.findIdx?_eq_some_iff_getElem.mp hi
  have hkey : series[i].key = cols.key cfg id := by simpa using hkey
  have hkeys : (series.modify i (·.push id)).map (·.key) =
      series.map (·.key) := by
    apply List.ext_getElem? fun j => ?_
    simp only [List.getElem?_map, List.getElem?_modify]
    cases series[j]? with
    | none => rfl
    | some s => by_cases hj : i = j <;> simp [hj, Series.push]
  have hmem : ∀ s ∈ series.modify i (·.push id),
      (s ∈ series ∧ s.key ≠ cols.key cfg id) ∨
        s = series[i].push id := by
    intro s hs
    obtain ⟨j, hj⟩ := List.mem_iff_getElem?.mp hs
    rw [List.getElem?_modify] at hj
    by_cases hij : i = j
    · subst hij
      have hj : some (series[i].push id) = some s := by
        simpa [List.getElem?_eq_getElem hlt] using hj
      exact Or.inr (Option.some.inj hj).symm
    · simp only [hij, if_false] at hj
      have hjs : series[j]? = some s := by cases hjs : series[j]? <;> simp_all
      refine Or.inl ⟨List.mem_of_getElem? hjs, fun heq => hij ?_⟩
      obtain ⟨hjlt, rfl⟩ := List.getElem?_eq_some_iff.mp hjs
      refine (List.getElem?_inj (by simpa using hlt) h.keys_nodup).mp ?_
      rw [List.getElem?_map, List.getElem?_map, List.getElem?_eq_getElem hlt, hjs]
      simp [hkey, heq]
  have hgi := List.getElem_mem hlt
  constructor
  · rw [hkeys]
    exact h.keys_nodup
  · intro s hs
    rw [List.filter_append]
    rcases hmem s hs with ⟨hs, hne⟩ | rfl
    · simp [h.ids_eq s hs, Ne.symm hne]
    · simp [Series.push, h.ids_eq _ hgi, hkey]
  · intro s hs
    rcases hmem s hs with ⟨hs, -⟩ | rfl
    · exact h.ids_ne s hs
    · simp [Series.push]
  · intro x hx
    rw [hkeys]
    rcases List.mem_append.mp hx with hx | hx
    · exact h.covered x hx
    · obtain rfl := List.mem_singleton.mp hx
      exact hkey ▸ List.mem_map_of_mem hgi
  · intro s hs
    rcases hmem s hs with ⟨hs, -⟩ | rfl
    · exact h.unplayed s hs
    · simpa only [Series.push] using h.unplayed _ hgi
  · intro s hs
    rcases hmem s hs with ⟨hs, -⟩ | rfl
    · exact h.showKey_eq s hs
    · obtain ⟨x, hx, heq⟩ := h.showKey_eq _ hgi
      exact ⟨x, List.mem_append_left _ hx, heq⟩

theorem placeItem (h : Grouped cols cfg ids series) (id : EntryId) :
    Grouped cols cfg (ids ++ [id])
      (placeItem series (cols.key cfg id) (cols.showKey id) id) := by
  unfold EtvStation.placeItem
  split
  · next hi => exact h.joinSeries hi
  · next hnone =>
    refine h.openSeries fun hmem => ?_
    obtain ⟨s, hs, heq⟩ := List.mem_map.mp hmem
    simpa [heq] using List.findIdx?_eq_none_iff.mp hnone s hs

end Grouped

theorem groupSeries_grouped (cols : ItemColumns) (cfg : Pool) (ids : List EntryId) :
    Grouped cols cfg ids (groupSeries cols cfg ids) := by
  suffices h : ∀ (rest done : List EntryId) (series : List Series), Grouped cols cfg done series →
      Grouped cols cfg (done ++ rest)
        (rest.foldl (fun l id => placeItem l (cols.key cfg id) (cols.showKey id) id) series) from
    h ids [] [] (.nil cols cfg)
  intro rest
  induction rest with
  | nil => intro done series h; simpa using h
  | cons id rest ih =>
    intro done series h
    simpa using ih (done ++ [id]) _ (h.placeItem id)

section Buckets

theorem nodup_eraseDups {α : Type} [DecidableEq α] (l : List α) : l.eraseDups.Nodup := by
  induction h : l.length using Nat.strong_induction_on generalizing l with
  | _ n ih =>
    cases l with
    | nil => simp
    | cons a as =>
      have hlt : (as.filter fun b => !b == a).length < n := by
        have hle := List.length_filter_le (fun b => !b == a) as
        simp only [List.length_cons] at h
        omega
      rw [List.eraseDups_cons, List.nodup_cons]
      exact ⟨by simp, ih _ hlt _ rfl⟩

theorem bucketSequence_perm (series : List Series) (ordered : List EntryId) :
    (bucketSequence series ordered).Perm (List.range series.length) := by
  rw [List.perm_ext_iff_of_nodup _ List.nodup_range]
  · intro i
    simp only [bucketSequence, List.mem_append, List.mem_filter, List.mem_range,
      List.mem_eraseDups, List.mem_filterMap, Bool.not_eq_true']
    constructor
    · rintro (⟨id, -, hid⟩ | ⟨hi, -⟩)
      · exact (List.findIdx?_eq_some_iff_getElem.mp hid).1
      · exact hi
    · intro hi
      by_cases hplaced : ∃ id ∈ ordered, series.findIdx? (fun s => s.ids.contains id) = some i
      · exact Or.inl hplaced
      · exact Or.inr ⟨hi, by simpa using hplaced⟩
  · refine List.nodup_append.mpr ⟨nodup_eraseDups _, List.nodup_range.filter _, ?_⟩
    rintro a ha b hb rfl
    have hb' := (List.mem_filter.mp hb).2
    simp only [List.contains_iff_mem.mpr ha, Bool.not_true, Bool.false_eq_true] at hb'

theorem filterMap_range_getElem? {α : Type} (l : List α) :
    (List.range l.length).filterMap (fun i => l[i]?) = l := by
  induction l with
  | nil => simp
  | cons a l ih =>
    simpa [List.range_succ_eq_map, List.filterMap_map, Function.comp_def] using ih

theorem orderBuckets_perm {cat : Catalog} {cfg : Pool} {seed : UInt64}
    {series series' : List Series} (h : orderBuckets cat cfg seed series = .ok series') :
    series'.Perm series := by
  unfold orderBuckets at h
  split at h
  · exact Except.ok.inj h ▸ .refl _
  · obtain ⟨ordered, -, h⟩ := Lib.bind_eq_ok.mp h
    obtain rfl := Except.ok.inj h
    exact ((bucketSequence_perm series ordered).filterMap _).trans
      (.of_eq (filterMap_range_getElem? series))

end Buckets

end EtvStation
