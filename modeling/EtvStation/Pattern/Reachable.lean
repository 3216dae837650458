import EtvStation.Pattern.Grouping
import EtvStation.Pattern.Recent
import EtvStation.Pattern.Stops
import EtvStation.Resolve.Ordering

/-! The pools a walk can come by: opened from a resolved list, drawn from, refilled, rolled over
onto a new list. Whatever it went through, no id of a pool stands in two series and every cursor
names an item. -/
namespace EtvStation

/-- What a pool is cut into, its positions aside. -/
def Series.label (s : Series) : String × List EntryId := (s.key, s.ids)

/-- The series hold ids, no two share a key or an id, and every cursor names an item. -/
structure Shelved (series : List Series) : Prop where
  inRange : InRange series
  keys_nodup : (series.map (·.key)).Nodup
  disjoint : series.Pairwise fun s t => ∀ x ∈ s.ids, x ∉ t.ids

namespace Shelved

variable {series series' : List Series}

theorem of_labels (h : Shelved series) (hr : InRange series')
    (hlabels : series'.map Series.label = series.map Series.label) : Shelved series' := by
  have hkeys : series'.map (·.key) = series.map (·.key) := by
    have := congrArg (List.map Prod.fst) hlabels
    rwa [List.map_map, List.map_map] at this
  have hpair : ∀ l : List Series, (l.Pairwise fun s t => ∀ x ∈ s.ids, x ∉ t.ids) ↔
      (l.map Series.label).Pairwise fun a b => ∀ x ∈ a.2, x ∉ b.2 := by
    intro l
    rw [List.pairwise_map]
    rfl
  refine ⟨hr, ?_, ?_⟩
  · rw [hkeys]
    exact h.keys_nodup
  · rw [hpair, hlabels, ← hpair]
    exact h.disjoint

theorem of_grouped {cols : ItemColumns} {cfg : Pool} {ids : List EntryId}
    (h : Grouped cols cfg ids series) : Shelved series := by
  refine ⟨?_, h.keys_nodup, ?_⟩
  · intro s hs
    rw [(h.unplayed s hs).1]
    exact List.length_pos_iff.mpr (h.ids_ne s hs)
  · have hkeys := List.pairwise_map.mp h.keys_nodup
    refine hkeys.imp_of_mem fun hs ht hne x hx hx' => hne ?_
    rw [h.ids_eq _ hs, List.mem_filter] at hx
    rw [h.ids_eq _ ht, List.mem_filter] at hx'
    exact (of_decide_eq_true hx.2).symm.trans (of_decide_eq_true hx'.2)

end Shelved

theorem Series.seat_cursor_lt {s : Series} (cursor : String → Option EntryId)
    (h : s.cursor < s.ids.length) :
    (s.seat cursor).cursor < (s.seat cursor).ids.length ∧ (s.seat cursor).label = s.label := by
  unfold Series.seat
  have hne := List.ne_nil_of_length_pos (Nat.zero_lt_of_lt h)
  cases (cursor s.showKey).bind fun last => s.ids.idxOf? last with
  | some pos => exact ⟨Series.advanceTo_cursor_lt hne _, rfl⟩
  | none => exact ⟨h, rfl⟩

section Opening

variable {cat : Catalog} {cfg : Pool}

/-- The constraints put a list in another order and lose nothing of it. -/
theorem constrainPool_perm (limits : Limits) (keys : PoolKeys) (seam ids : List EntryId) :
    (constrainPool limits keys seam ids).Perm ids := by
  unfold constrainPool
  split_ifs with h
  · exact List.Perm.refl ids
  · have hperm := orderConstrained_perm (keys.many ids) (ids.map fun _ => limits) (keys.many seam)
    have hlen : (keys.many ids).length = ids.length := by rw [PoolKeys.many, List.length_map]
    rw [hlen] at hperm
    have hread : (List.range ids.length).map (fun i => ids.getD i "") = ids := by
      apply List.ext_getElem (by simp)
      intro i hi hi'
      simp [List.getD_eq_getElem?_getD, hi']
    exact (hperm.map _).trans (List.Perm.of_eq hread)

theorem constrainPool_mem {limits : Limits} {keys : PoolKeys} {seam ids : List EntryId}
    {x : EntryId} (h : x ∈ constrainPool limits keys seam ids) : x ∈ ids :=
  (constrainPool_perm limits keys seam ids).mem_iff.mp h

/-- A resolved list is cut into series of its own ids. -/
theorem resolvePoolSeries_grouped {ids : List EntryId} {block : Option Constraints}
    {seam : List EntryId} {want : Bool} {seed : UInt64} {r : ResolvedPool}
    (h : resolvePoolSeries cat cfg ids block seam want seed = .ok r) :
    ∃ cols kept, Grouped cols cfg kept r.series ∧ ∀ x ∈ kept, x ∈ ids := by
  unfold resolvePoolSeries at h
  obtain ⟨⟨runtimes, mean⟩, -, h⟩ := Lib.bind_eq_ok.mp h
  obtain ⟨keys, -, h⟩ := Lib.bind_eq_ok.mp h
  obtain ⟨cols, -, h⟩ := Lib.bind_eq_ok.mp h
  obtain ⟨series, hseries, h⟩ := Lib.bind_eq_ok.mp h
  obtain rfl := Except.ok.inj h
  have hperm := orderBuckets_perm hseries
  exact ⟨cols, _, (groupSeries_grouped cols cfg _).perm hperm, fun x => constrainPool_mem⟩

theorem resumeFrom_labels {rt : PoolRuntime} (cursor : String → Option EntryId)
    (prev : Option PoolResume) (h : InRange rt.series) :
    InRange (rt.resumeFrom cursor prev).series ∧
      (rt.resumeFrom cursor prev).series.map Series.label = rt.series.map Series.label := by
  have hcontinue : ∀ (rt : PoolRuntime) (p : PoolResume), (rt.continueFrom p).series = rt.series := by
    intro rt p
    unfold PoolRuntime.continueFrom
    dsimp only
    split <;> split_ifs <;> rfl
  have hseries : (rt.resumeFrom cursor prev).series = rt.series ∨
      (rt.resumeFrom cursor prev).series = rt.series.map (Series.seat cursor) := by
    unfold PoolRuntime.resumeFrom
    cases rt.cfg.advance with
    | restart => exact Or.inl rfl
    | resume =>
      right
      cases prev with
      | none => rfl
      | some p =>
        dsimp only
        split_ifs
        · rfl
        · rw [hcontinue]
  rcases hseries with heq | heq
  · rw [heq]
    exact ⟨h, rfl⟩
  · rw [heq]
    constructor
    · intro t ht
      obtain ⟨s, hs, rfl⟩ := List.mem_map.mp ht
      exact (Series.seat_cursor_lt cursor (h s hs)).1
    · rw [List.map_map]
      apply List.map_congr_left
      intro s hs
      exact (Series.seat_cursor_lt cursor (h s hs)).2

theorem poolRuntime_shelved {v : Variety} {ids : List EntryId} {block : Option Constraints}
    {state : GenerationState} {prev : Option PoolResume} {dice : Dice} {want : Bool}
    {extras : HashMap (String × EntryId) (Option ℕ)} {rt : PoolRuntime}
    (h : poolRuntime cat v cfg ids block state prev dice want extras = .ok rt) :
    Shelved rt.series := by
  unfold poolRuntime at h
  obtain ⟨resolved, hresolved, h⟩ := Lib.bind_eq_ok.mp h
  obtain ⟨titles, -, h⟩ := Lib.bind_eq_ok.mp h
  obtain ⟨cols, kept, hgrouped, -⟩ := resolvePoolSeries_grouped hresolved
  have hshelved := Shelved.of_grouped hgrouped
  have hopened : ∀ {r : PoolRuntime} {seam : List EntryId}, r.series = resolved.series →
      (r.remember seam).resumeFrom (state.cursorFor cfg) prev = rt → Shelved rt.series := by
    intro r seam hr heq
    have hsame : (r.remember seam).series = resolved.series := by
      rw [PoolRuntime.remember_series, hr]
    obtain ⟨hrange, hlabels⟩ := resumeFrom_labels (state.cursorFor cfg) prev
      (hsame ▸ hshelved.inRange)
    rw [heq] at hrange hlabels
    exact hshelved.of_labels hrange (hsame ▸ hlabels)
  dsimp only at h
  split_ifs at h
  · exact hopened rfl (Except.ok.inj h)
  · exact hopened rfl (Except.ok.inj h)

end Opening

section Lists

variable {w : Walk} {cfg : Pool} {dice : Dice} {src src' : SourceState}

/-- Series of ids the pool does not hold join it whole. -/
theorem extendWith_shelved {rt : PoolRuntime} (h : Shelved rt.series) {series : List Series}
    {cols : ItemColumns} {fresh : List EntryId} (hg : Grouped cols cfg fresh series)
    (hnew : ∀ x ∈ fresh, x ∉ rt.series.flatMap (·.ids)) (keys : PoolKeys)
    (runtimes : HashMap EntryId ℕ) : Shelved (rt.extendWith series keys runtimes).2.series := by
  have hseries : (rt.extendWith series keys runtimes).2.series = rt.series ++
      series.filter fun s => !(rt.series.map (·.key)).contains s.key := by
    unfold PoolRuntime.extendWith
    dsimp only
    split_ifs <;> rfl
  rw [hseries]
  have hall := Shelved.of_grouped hg
  have hmem : ∀ s ∈ series.filter fun s => !(rt.series.map (·.key)).contains s.key,
      s ∈ series ∧ s.key ∉ rt.series.map (·.key) := by
    intro s hs
    obtain ⟨hin, hkey⟩ := List.mem_filter.mp hs
    refine ⟨hin, fun hold => ?_⟩
    rw [List.contains_iff_mem.mpr hold] at hkey
    cases hkey
  constructor
  · intro s hs
    rcases List.mem_append.mp hs with hs | hs
    · exact h.inRange s hs
    · exact hall.inRange s (hmem s hs).1
  · rw [List.map_append]
    refine List.nodup_append.mpr ⟨h.keys_nodup, ?_, ?_⟩
    · exact hall.keys_nodup.sublist (List.filter_sublist.map _)
    · intro a ha b hb heq
      obtain ⟨s, hs, rfl⟩ := List.mem_map.mp hb
      exact (hmem s hs).2 (heq ▸ ha)
  · refine List.pairwise_append.mpr ⟨h.disjoint, hall.disjoint.sublist List.filter_sublist, ?_⟩
    intro s hs t ht x hx hx'
    rw [hg.ids_eq t (hmem t ht).1, List.mem_filter] at hx'
    exact hnew x hx'.1 (List.mem_flatMap.mpr ⟨s, hs, hx⟩)

theorem refillPool_shelved {rt rt' : PoolRuntime} {added : ℕ} (h : Shelved rt.series)
    (hrefill : w.refillPool cfg rt dice src = .ok (added, rt', src')) : Shelved rt'.series := by
  unfold Walk.refillPool at hrefill
  split_ifs at hrefill
  · obtain ⟨-, rfl, -⟩ := Prod.mk.inj (Except.ok.inj hrefill)
    exact h
  · obtain ⟨picked, -, hrefill⟩ := Lib.bind_eq_ok.mp hrefill
    dsimp only at hrefill
    split_ifs at hrefill
    · obtain ⟨-, rfl, -⟩ := Prod.mk.inj (Except.ok.inj hrefill)
      exact h
    · obtain ⟨r, hr, hrefill⟩ := Lib.bind_eq_ok.mp hrefill
      obtain ⟨-, rfl, -⟩ := Prod.mk.inj (Except.ok.inj hrefill)
      obtain ⟨cols, kept, hg, hkept⟩ := resolvePoolSeries_grouped hr
      have hcounted : Shelved { rt with refills := rt.refills + 1 }.series := h
      apply extendWith_shelved hcounted hg
      intro x hx hold
      have hfresh := (List.mem_filter.mp (hkept x hx)).2
      rw [List.contains_iff_mem.mpr hold] at hfresh
      cases hfresh

theorem replenished_shelved {rt rt' : PoolRuntime} (h : Shelved rt.series)
    (hrefill : w.replenished cfg rt dice src = .ok (rt', src')) : Shelved rt'.series := by
  unfold Walk.replenished at hrefill
  split_ifs at hrefill
  · obtain ⟨⟨added, rt₁, src₁⟩, hone, hrefill⟩ := Lib.bind_eq_ok.mp hrefill
    have hshelved := refillPool_shelved h hone
    obtain ⟨rfl, -⟩ := Prod.mk.inj (Except.ok.inj hrefill)
    split_ifs
    · exact hshelved
    · exact hshelved
  · obtain ⟨rfl, -⟩ := Prod.mk.inj (Except.ok.inj hrefill)
    exact h

theorem carriedSeries_label (old : PoolRuntime) {s : Series} (hs : s.cursor < s.ids.length) :
    (old.carriedSeries s).cursor < (old.carriedSeries s).ids.length ∧
      (old.carriedSeries s).label = s.label := by
  unfold PoolRuntime.carriedSeries
  dsimp only
  cases (old.lastAired s.key).bind fun last => s.ids.idxOf? last with
  | some pos => exact ⟨Nat.mod_lt _ (Nat.zero_lt_of_lt hs), rfl⟩
  | none => exact ⟨hs, rfl⟩

theorem rolled_shelved {rt rt' : PoolRuntime} {aired : List EntryId} (h : Shelved rt.series)
    (hroll : w.rolled cfg rt dice src aired = .ok (rt', src')) : Shelved rt'.series := by
  unfold Walk.rolled at hroll
  split_ifs at hroll
  · obtain ⟨rfl, -⟩ := Prod.mk.inj (Except.ok.inj hroll)
    exact h
  · obtain ⟨⟨lists, src₁⟩, -, hroll⟩ := Lib.bind_eq_ok.mp hroll
    obtain ⟨fresh, hfresh, hroll⟩ := Lib.bind_eq_ok.mp hroll
    obtain ⟨rfl, -⟩ := Prod.mk.inj (Except.ok.inj hroll)
    have hshelved := poolRuntime_shelved hfresh
    have hcarried := fun s hs => carriedSeries_label rt (hshelved.inRange s hs)
    refine hshelved.of_labels ?_ ?_
    · intro t ht
      obtain ⟨s, hs, rfl⟩ := List.mem_map.mp ht
      exact (hcarried s hs).1
    · refine (List.map_map).trans (List.map_congr_left fun s hs => ?_)
      exact (hcarried s hs).2

end Lists

/-! ## Visits -/

namespace PoolRuntime

variable {cat : Catalog} {rt rt' : PoolRuntime} {from_ : TakeFrom} {roll : RollKey}
  {ch ch' : ChannelHistory} {out : List EntryId}

/-- A served visit either had nothing to draw from, or drew as many as it asked for. -/
theorem serve_cases {want : Draw} {nonce : UInt64} {done : ℕ}
    (h : rt.serve cat want from_ roll nonce done ch = .ok (out, rt', ch')) :
    ((rt.firstSeries roll nonce ch).2.1.serveTake want (rt.firstSeries roll nonce ch).1 done =
        none ∧ out = [] ∧ rt' = (rt.firstSeries roll nonce ch).2.1) ∨
      ∃ take, (rt.firstSeries roll nonce ch).2.1.serveTake want
          (rt.firstSeries roll nonce ch).1 done = some take ∧
        (out, rt', ch') = (rt.firstSeries roll nonce ch).2.1.serveDraws cat from_
          (rt.firstSeries roll nonce ch).1 take roll nonce (rt.firstSeries roll nonce ch).2.2 := by
  unfold serve at h
  generalize rt.firstSeries roll nonce ch = f at h ⊢
  obtain ⟨first, rt₁, ch₁⟩ := f
  dsimp only at h ⊢
  cases htake : rt₁.serveTake want first done with
  | none =>
    simp only [htake, Except.ok.injEq, Prod.mk.injEq] at h
    exact Or.inl ⟨rfl, h.1.symm, h.2.1.symm⟩
  | some take =>
    rw [htake] at h
    refine Or.inr ⟨take, rfl, ?_⟩
    dsimp only at h
    split at h
    · split_ifs at h
      exact (Except.ok.inj h).symm
    · exact (Except.ok.inj h).symm

theorem takeFrom_series {si want : ℕ} {s : Series} (hs : rt.series[si]? = some s) :
    (rt.takeFrom si want).2.series =
      rt.series.set si (s.advanceTo (s.cursor + min want s.remaining)) := by
  simp only [takeFrom, nth_of_getElem? hs, modifyNth_series hs]

/-- Asked for nothing, a visit draws nothing and settles the series it opens on. -/
theorem serveDraws_zero (cat : Catalog) (rt : PoolRuntime) (from_ : TakeFrom) (first : Option ℕ)
    (roll : RollKey) (nonce : UInt64) (ch : ChannelHistory) :
    (rt.serveDraws cat from_ first 0 roll nonce ch).1 = [] ∧
      (rt.serveDraws cat from_ first 0 roll nonce ch).2.1.series =
        match first with
        | some si => ((rt.placeCursor from_ si 0 roll nonce).takeFrom si 0).2.series
        | none => rt.series := by
  have hempty : ∀ (rt : PoolRuntime) (si : ℕ), (rt.takeFrom si 0).1 = [] := by
    intro rt si
    simp only [takeFrom, Nat.zero_min, List.take_zero]
  unfold serveDraws
  cases first with
  | none =>
    constructor
    · rfl
    · rw [Serving.finish_series]
      rfl
  | some si =>
    have hloop : ∀ (n : ℕ) (rt : PoolRuntime),
        serveLoop cat 0 (n + 1) (some si) { rt, channel := ch } =
          { rt := (rt.takeFrom si 0).2, channel := ch } := by
      intro n rt
      simp only [serveLoop, List.length_nil, Nat.sub_zero, hempty, List.isEmpty_nil, if_true]
    dsimp only
    rw [hloop]
    exact ⟨rfl, Serving.finish_series _ _ _ _⟩

theorem serveLoop_moved (cat : Catalog) (take passes : ℕ) (current : Option ℕ) (s : Serving) :
    s.rt.Moved (serveLoop cat take passes current s).rt := by
  induction passes generalizing current s with
  | zero => exact .refl _
  | succ passes ih =>
    cases current with
    | none => exact .refl _
    | some si =>
      have htaken := takeFrom_moved s.rt si (take - s.out.length)
      have htook := htaken.trans (remember_moved _ (s.rt.takeFrom si (take - s.out.length)).1)
      simp only [serveLoop]
      split_ifs
      · exact htaken
      · exact htook
      · have hturn := (shortTurn_chose ((s.rt.takeFrom si (take - s.out.length)).2.remember
          (s.rt.takeFrom si (take - s.out.length)).1) si
          (s.channel.remember cat (s.rt.takeFrom si (take - s.out.length)).1)).moved
        exact (htook.trans hturn).trans (ih _ _)

theorem serveDraws_moved (cat : Catalog) (rt : PoolRuntime) (from_ : TakeFrom) (first : Option ℕ)
    (take : ℕ) (roll : RollKey) (nonce : UInt64) (ch : ChannelHistory) :
    rt.Moved (rt.serveDraws cat from_ first take roll nonce ch).2.1 := by
  unfold serveDraws
  refine Moved.trans ?_ (Serving.finish_moved _ from_ first take)
  cases first with
  | none => exact serveLoop_moved cat take _ none { rt, channel := ch }
  | some si =>
    have hplaced := placeCursor_moved rt from_ si take roll nonce
    exact hplaced.trans (serveLoop_moved cat take _ (some si) { rt := _, channel := ch })

theorem passHold_rotation (rt : PoolRuntime) (first last : Option ℕ) :
    (rt.passHold first last).rotation = rt.rotation := by
  unfold passHold
  split
  · split_ifs
    · rfl
    · rfl
  · rfl

/-- A visit that draws nothing leaves the rotation where it was. -/
theorem finish_rotation_none {s : Serving} (hlast : s.last = none) (from_ : TakeFrom)
    (first : Option ℕ) (take : ℕ) :
    (s.finish from_ first take).2.1.rotation = s.rt.rotation := by
  have hhold := passHold_rotation s.rt first s.last
  rw [hlast] at hhold
  simp only [Serving.finish, hlast, park]
  exact hhold

theorem serveDraws_zero_rotation (cat : Catalog) (rt : PoolRuntime) (from_ : TakeFrom)
    (first : Option ℕ) (roll : RollKey) (nonce : UInt64) (ch : ChannelHistory) :
    (rt.serveDraws cat from_ first 0 roll nonce ch).2.1.rotation = rt.rotation := by
  unfold serveDraws
  cases first with
  | none => exact finish_rotation_none rfl _ _ _
  | some si =>
    have hempty : ((rt.placeCursor from_ si 0 roll nonce).takeFrom si 0).1 = [] := by
      simp only [takeFrom, Nat.zero_min, List.take_zero]
    have hplaced : (rt.placeCursor from_ si 0 roll nonce).rotation = rt.rotation := by
      cases from_ with
      | start => rfl
      | atEnd => rfl
      | random => rfl
    dsimp only
    simp only [serveLoop, List.length_nil, Nat.sub_zero, hempty, List.isEmpty_nil, if_true]
    rw [finish_rotation_none rfl]
    exact hplaced

theorem serveDraws_none (cat : Catalog) (rt : PoolRuntime) (from_ : TakeFrom) (take : ℕ)
    (roll : RollKey) (nonce : UInt64) (ch : ChannelHistory) :
    (rt.serveDraws cat from_ none take roll nonce ch).1 = [] ∧
      (rt.serveDraws cat from_ none take roll nonce ch).2.1.rotation = rt.rotation :=
  ⟨rfl, finish_rotation_none rfl _ _ _⟩

theorem set_label {l : List Series} {si : ℕ} {s t : Series} (hs : l[si]? = some s)
    (hlabel : t.label = s.label) : (l.set si t).map Series.label = l.map Series.label := by
  obtain ⟨hlt, rfl⟩ := List.getElem?_eq_some_iff.mp hs
  rw [List.map_set, hlabel, ← List.getElem_map Series.label]
  · exact List.set_getElem_self _
  · rwa [List.length_map]

theorem drew_labels {placed : Bool} {l l' : List Series} {draws : List (ℕ × List EntryId)}
    (h : Drew placed l draws l') : l'.map Series.label = l.map Series.label := by
  induction h with
  | nil => rfl
  | cons hs hc hcursor htaken hne hrest ih => exact ih.trans (set_label hs rfl)

theorem placeCursor_labels {si : ℕ} {s : Series} (hs : rt.series[si]? = some s) (take : ℕ)
    (nonce : UInt64) : ∃ c, (rt.placeCursor from_ si take roll nonce).series =
      rt.series.set si { s with cursor := c } := by
  cases from_ with
  | start =>
    obtain ⟨hlt, rfl⟩ := List.getElem?_eq_some_iff.mp hs
    exact ⟨_, (List.set_getElem_self hlt).symm⟩
  | atEnd => exact ⟨_, by simp only [placeCursor, modifyNth_series hs]; rfl⟩
  | random => exact ⟨_, by simp only [placeCursor, modifyNth_series hs]; rfl⟩

theorem serve_moved {want : Draw} {nonce : UInt64} {done : ℕ}
    (h : rt.serve cat want from_ roll nonce done ch = .ok (out, rt', ch')) : rt.Moved rt' := by
  have hchose := (rt.firstSeries_chose roll nonce ch).moved
  rcases serve_cases h with ⟨-, -, rfl⟩ | ⟨take, -, heq⟩
  · exact hchose
  · have hdraws := serveDraws_moved cat (rt.firstSeries roll nonce ch).2.1 from_
      (rt.firstSeries roll nonce ch).1 take roll nonce (rt.firstSeries roll nonce ch).2.2
    rw [← heq] at hdraws
    exact hchose.trans hdraws

/-- The same series, each cursor on an item. -/
structure Kept (l l' : List Series) : Prop where
  inRange : InRange l'
  labels : l'.map Series.label = l.map Series.label

theorem Kept.refl {l : List Series} (h : InRange l) : Kept l l := ⟨h, rfl⟩

theorem Kept.trans {l l' l'' : List Series} (h : Kept l l') (h' : Kept l' l'') : Kept l l'' :=
  ⟨h'.inRange, h'.labels.trans h.labels⟩

theorem Kept.length_eq {l l' : List Series} (h : Kept l l') : l'.length = l.length := by
  have := congrArg List.length h.labels
  rwa [List.length_map, List.length_map] at this

theorem serveDraws_kept (h : InRange rt.series) {first : Option ℕ}
    (hfirst : ∀ si, first = some si → si < rt.series.length) (take : ℕ) (nonce : UInt64) :
    Kept rt.series (rt.serveDraws cat from_ first take roll nonce ch).2.1.series := by
  cases take with
  | succ n =>
    have hvisited := serveDraws_visited cat from_ roll nonce ch h hfirst (Nat.succ_pos n)
    obtain ⟨draws, hdrew, -⟩ := hvisited.drew
    exact ⟨hdrew.inRange h, drew_labels hdrew⟩
  | zero =>
    rw [(serveDraws_zero cat rt from_ first roll nonce ch).2]
    cases first with
    | none => exact .refl h
    | some si =>
      have hs := exists_getElem? (hfirst si rfl)
      obtain ⟨c, hplaced⟩ := @placeCursor_labels _ from_ roll _ _ hs 0 nonce
      have hlt : si < rt.series.length := hfirst si rfl
      have hget : (rt.placeCursor from_ si 0 roll nonce).series[si]? =
          some { rt.nth si with cursor := c } := by
        rw [hplaced, List.getElem?_set_self hlt]
      have hne := List.ne_nil_of_length_pos
        (Nat.zero_lt_of_lt (h _ (List.mem_of_getElem? hs)))
      dsimp only
      rw [takeFrom_series hget, hplaced, List.set_set]
      exact ⟨h.set (Series.advanceTo_cursor_lt hne _), set_label hs rfl⟩

theorem serve_kept (h : InRange rt.series) {want : Draw} {nonce : UInt64} {done : ℕ}
    (hserve : rt.serve cat want from_ roll nonce done ch = .ok (out, rt', ch')) :
    Kept rt.series rt'.series := by
  have hsame := (rt.firstSeries_chose roll nonce ch).series_eq
  rcases serve_cases hserve with ⟨-, -, rfl⟩ | ⟨take, -, heq⟩
  · rw [hsame]
    exact .refl h
  · have hlt : ∀ si, (rt.firstSeries roll nonce ch).1 = some si →
        si < (rt.firstSeries roll nonce ch).2.1.series.length := by
      rw [hsame]
      exact fun _ => firstSeries_lt
    have hkept := @serveDraws_kept cat _ from_ roll (rt.firstSeries roll nonce ch).2.2
      (hsame.symm ▸ h) _ hlt take nonce
    rw [← heq, hsame] at hkept
    exact hkept

theorem serveSlots_kept {left slot : ℕ} {out out' : List EntryId} (h : InRange rt.series)
    (hserve : serveSlots cat from_ roll left slot out rt ch = .ok (out', rt', ch')) :
    Kept rt.series rt'.series := by
  induction left generalizing slot rt ch out with
  | zero =>
    simp only [serveSlots, Except.ok.injEq, Prod.mk.injEq] at hserve
    rw [← hserve.2.1]
    exact .refl h
  | succ left ih =>
    rw [serveSlots] at hserve
    split_ifs at hserve
    · simp only [Except.ok.injEq, Prod.mk.injEq] at hserve
      rw [← hserve.2.1]
      exact .refl h
    · obtain ⟨⟨ids, rt₁, ch₁⟩, hone, hserve⟩ := Lib.bind_eq_ok.mp hserve
      have hkept := serve_kept h hone
      exact hkept.trans (ih hkept.inRange hserve)

/-- A visit draws nothing, fills slot after slot, or serves once. -/
theorem visit_cases {take : Take} {done : ℕ}
    (h : rt.visit cat take from_ roll done ch = .ok (out, rt', ch')) :
    ((resolveTake take roll = .count 0 ∨ rt.isDry = true) ∧ out = [] ∧
        rt' = { rt with visitResumable := false }) ∨
      (rt.cfg.rotate = .slot ∧ ∃ rt₁, serveSlots cat from_ roll (resolveTake take roll).slots 0 []
          { rt with visitResumable := false } ch = .ok (out, rt₁, ch') ∧
        rt' = { rt₁ with visitResumable := false }) ∨
      (rt.cfg.rotate ≠ .slot ∧ PoolRuntime.serve cat { rt with visitResumable := false }
        (resolveTake take roll) from_ roll 0 done ch = .ok (out, rt', ch')) := by
  unfold visit at h
  dsimp only at h
  by_cases hnone : (decide (resolveTake take roll = .count 0) ||
      ({ rt with visitResumable := false } : PoolRuntime).isDry) = true
  · rw [if_pos hnone] at h
    simp only [Except.ok.injEq, Prod.mk.injEq] at h
    rw [Bool.or_eq_true, decide_eq_true_eq] at hnone
    exact Or.inl ⟨hnone, h.1.symm, h.2.1.symm⟩
  · rw [if_neg hnone] at h
    right
    cases hrotate : rt.cfg.rotate with
    | slot =>
      left
      rw [hrotate] at h
      dsimp only at h
      by_cases hmax : (resolveTake take roll).slots > MAX_TAKE
      · rw [if_pos hmax] at h
        cases h
      · rw [if_neg hmax] at h
        obtain ⟨⟨ids, rt₁, ch₁⟩, hslots, h⟩ := Lib.bind_eq_ok.mp h
        simp only [pure, Except.pure, Except.ok.injEq, Prod.mk.injEq] at h
        obtain ⟨rfl, hrt, rfl⟩ := h
        exact ⟨rfl, rt₁, hslots, hrt.symm⟩
    | visit =>
      right
      rw [hrotate] at h
      exact ⟨by simp, h⟩
    | span n =>
      right
      rw [hrotate] at h
      exact ⟨by simp, h⟩

theorem visit_kept (h : InRange rt.series) {take : Take} {done : ℕ}
    (hvisit : rt.visit cat take from_ roll done ch = .ok (out, rt', ch')) :
    Kept rt.series rt'.series := by
  have hopen : InRange { rt with visitResumable := false }.series := h
  rcases visit_cases hvisit with ⟨-, -, rfl⟩ | ⟨-, rt₁, hslots, rfl⟩ | ⟨-, hserve⟩
  · exact .refl h
  · have hkept := serveSlots_kept hopen hslots
    exact hkept
  · have hkept := serve_kept hopen hserve
    exact hkept

/-- A pool a walk can come by. A visit is entered in a period exactly under a span. -/
inductive Reachable : PoolRuntime → Prop
  | opened {cat : Catalog} {v : Variety} {cfg : Pool} {ids : List EntryId}
      {block : Option Constraints} {state : GenerationState} {prev : Option PoolResume}
      {dice : Dice} {want : Bool} {extras : HashMap (String × EntryId) (Option ℕ)}
      {rt : PoolRuntime}
      (h : poolRuntime cat v cfg ids block state prev dice want extras = .ok rt) : Reachable rt
  | entered {rt : PoolRuntime} (h : Reachable rt) {period : Option (ℤ × ℤ)}
      (hperiod : period.isSome = rt.cfg.rotate.span?.isSome) : Reachable { rt with period }
  | visited {cat : Catalog} {rt rt' : PoolRuntime} {take : Take} {from_ : TakeFrom}
      {roll : RollKey} {done : ℕ} {ch ch' : ChannelHistory} {out : List EntryId}
      (h : Reachable rt) (hvisit : rt.visit cat take from_ roll done ch = .ok (out, rt', ch')) :
      Reachable rt'
  | replenished {w : Walk} {rt rt' : PoolRuntime} {dice : Dice} {src src' : SourceState}
      (h : Reachable rt) (hrefill : w.replenished rt.cfg rt dice src = .ok (rt', src')) :
      Reachable rt'
  | rolled {w : Walk} {rt rt' : PoolRuntime} {dice : Dice} {src src' : SourceState}
      {aired : List EntryId} (h : Reachable rt)
      (hroll : w.rolled rt.cfg rt dice src aired = .ok (rt', src')) : Reachable rt'

/-- Whatever a pool went through, its cursors name items and no id stands in two series. -/
theorem Reachable.shelved (h : rt.Reachable) : Shelved rt.series := by
  induction h with
  | opened h => exact poolRuntime_shelved h
  | entered _ _ ih => exact ih
  | visited _ hvisit ih =>
    have hkept := visit_kept ih.inRange hvisit
    exact ih.of_labels hkept.inRange hkept.labels
  | replenished _ hrefill ih => exact replenished_shelved ih hrefill
  | rolled _ hroll ih => exact rolled_shelved ih hroll

/-- Visit after visit, each one's start and the channel's history as `P` allows. -/
inductive Visits (P : TakeFrom → ChannelHistory → Prop) :
    PoolRuntime → List EntryId → PoolRuntime → Prop
  | nil (rt : PoolRuntime) : Visits P rt [] rt
  | cons {cat : Catalog} {rt rt' rt'' : PoolRuntime} {period : Option (ℤ × ℤ)} {take : Take}
      {from_ : TakeFrom} {roll : RollKey} {done : ℕ} {ch ch' : ChannelHistory}
      {out out' : List EntryId} (hperiod : period.isSome = rt.cfg.rotate.span?.isSome)
      (hp : P from_ ch)
      (hvisit : PoolRuntime.visit cat { rt with period } take from_ roll done ch =
        .ok (out, rt', ch'))
      (hrest : Visits P rt' out' rt'') : Visits P rt (out ++ out') rt''

end PoolRuntime

/-- A show of two episodes, one of three, and three films. -/
def shelfCatalog : Catalog where
  showIdsFor := fun _ => .ok fun id =>
    if id ∈ ["a1", "a2"] then some "A" else if id ∈ ["b1", "b2", "b3"] then some "B" else none

def openShelf (cfg : Pool) (ids : List EntryId) : Except String PoolRuntime :=
  poolRuntime shelfCatalog { dice := fun _ _ => { seed := 7 } } cfg ids none {} none { seed := 7 }
    false ∅

theorem openShelf_reachable {cfg : Pool} {ids : List EntryId} {P : PoolRuntime → Bool}
    (h : (match openShelf cfg ids with | .ok rt => P rt | .error _ => false) = true) :
    ∃ rt, rt.Reachable ∧ rt.cfg = cfg ∧ P rt = true := by
  cases hopen : openShelf cfg ids with
  | error e =>
    rw [hopen] at h
    cases h
  | ok rt =>
    rw [hopen] at h
    exact ⟨rt, .opened hopen, poolRuntime_cfg hopen, h⟩

end EtvStation
