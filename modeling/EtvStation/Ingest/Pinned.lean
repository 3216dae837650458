import EtvStation.Ingest.Missing

/-! What an item is called once is what it is called for good: a ratingKey keeps its entry, no row
goes away, and an entry folded into another stays folded. -/
namespace EtvStation.Ingest

open Lib (Table)

namespace Catalog

def owner (c : Catalog) (k : Source × String) : Option String :=
  (c.sources.get k).map (·.entryId)

def has (c : Catalog) (id : String) : Bool := (c.entries.get id).isSome

theorem hasPlexSource_iff {c : Catalog} {id : String} :
    hasPlexSource c id = true ↔ ∃ ratingKey, c.owner (.plex, ratingKey) = some id := by
  unfold hasPlexSource owner
  rw [Table.any_eq_true]
  constructor
  · rintro ⟨⟨source, ratingKey⟩, s, hget, hboth⟩
    rw [Bool.and_eq_true, decide_eq_true_eq, decide_eq_true_eq] at hboth
    obtain ⟨hid, rfl⟩ := hboth
    exact ⟨ratingKey, by rw [hget, ← hid]; rfl⟩
  · rintro ⟨ratingKey, howner⟩
    obtain ⟨s, hget, hid⟩ := Option.map_eq_some_iff.mp howner
    exact ⟨(.plex, ratingKey), s, hget, by simp [hid]⟩

end Catalog

theorem addSource_owner (c : Catalog) (s : EntrySource) (k : Source × String) :
    (c.addSource s).owner k = if k = (s.source, s.sourceId) then some s.entryId
      else c.owner k := by
  unfold Catalog.owner Catalog.addSource
  rw [Table.get_upsert]
  split_ifs <;> rfl

theorem mergeEntry_owner {loser survivor : String} (h : loser ≠ survivor) (c : Catalog)
    (stamp : String) (k : Source × String) :
    (c.mergeEntry loser survivor stamp).owner k =
      (c.owner k).map fun id => if id = loser then survivor else id := by
  unfold Catalog.mergeEntry Catalog.owner
  rw [if_neg h, Table.get_update, Option.map_map, Option.map_map]
  congr 1
  funext s
  simp only [Function.comp_apply]
  split_ifs <;> rfl

theorem mergeEntry_marked {loser survivor : String} (h : loser ≠ survivor) (c : Catalog)
    (stamp id : String) :
    (c.mergeEntry loser survivor stamp).marked id =
      if id = loser ∧ c.has loser then some stamp else c.marked id := by
  unfold Catalog.mergeEntry Catalog.marked Catalog.has
  rw [if_neg h, Table.get_update]
  by_cases hid : id = loser
  · rw [hid]
    cases c.entries.get loser <;> simp
  · cases c.entries.get id <;> simp [hid]

theorem upsertEntry_has (c : Catalog) (e : Entry) (id : String) :
    (c.upsertEntry e).has id = (id = e.entryId || c.has id) := by
  unfold Catalog.has Catalog.upsertEntry
  rw [Table.get_upsert]
  by_cases hid : id = e.entryId <;> simp [hid]

theorem update_has (c : Catalog) (f : String → Entry → Entry) (id : String) :
    ({ c with entries := c.entries.update f } : Catalog).has id = c.has id := by
  unfold Catalog.has
  rw [Table.get_update, Option.isSome_map]

theorem mergeEntry_has (c : Catalog) (loser survivor stamp id : String) :
    (c.mergeEntry loser survivor stamp).has id = c.has id := by
  unfold Catalog.mergeEntry
  split_ifs
  · rfl
  · exact update_has c _ id

theorem reconcile_has (c : Catalog) (showIds : List String) (id : String) :
    (c.reconcileAbsoluteEpisodes showIds).has id = c.has id ∧
      (c.reconcileAbsoluteEpisodes showIds).externalIds = c.externalIds := by
  unfold Catalog.reconcileAbsoluteEpisodes
  have hset : ∀ (ws : List (String × Option ℤ)) (c : Catalog),
      (ws.foldl (fun c w => c.setAbsoluteEpisode w.1 w.2) c).has id = c.has id ∧
        (ws.foldl (fun c w => c.setAbsoluteEpisode w.1 w.2) c).externalIds = c.externalIds := by
    intro ws
    induction ws with
    | nil => exact fun c => ⟨rfl, rfl⟩
    | cons w ws ih =>
      intro c
      have hrest := ih (c.setAbsoluteEpisode w.1 w.2)
      exact ⟨hrest.1.trans (update_has c _ id), hrest.2⟩
  induction showIds generalizing c with
  | nil => exact ⟨rfl, rfl⟩
  | cons showId showIds ih =>
    have hhere := hset (Catalog.wantedNumbers (c.showRows showId)) c
    have hrest := ih ((Catalog.wantedNumbers (c.showRows showId)).foldl
      (fun c w => c.setAbsoluteEpisode w.1 w.2) c)
    exact ⟨hrest.1.trans hhere.1, hrest.2.trans hhere.2⟩

theorem sweep_owner (c : Catalog) (source : Source) (full : Bool) (now : Option String)
    (k : Source × String) : (sweep c source full now).owner k = c.owner k := by
  unfold sweep
  split
  · unfold Catalog.markEntriesMissingWithoutLiveSources Catalog.owner
    dsimp only
    unfold Catalog.markUnseenSourcesMissing
    rw [Table.get_update, Option.map_map]
    congr 1
    funext s
    simp only [Function.comp_apply]
    split_ifs <;> rfl
  · rfl

theorem sweep_has (c : Catalog) (source : Source) (full : Bool) (now : Option String)
    (id : String) : (sweep c source full now).has id = c.has id := by
  unfold sweep
  split
  · exact update_has _ _ id
  · rfl

theorem sweep_externalIds (c : Catalog) (source : Source) (full : Bool) (now : Option String) :
    (sweep c source full now).externalIds = c.externalIds := by
  unfold sweep
  split <;> rfl

/-- A sweep takes no mark away. -/
theorem sweep_marked {c : Catalog} {id : String} (h : c.marked id ≠ none) (source : Source)
    (full : Bool) (now : Option String) : (sweep c source full now).marked id ≠ none := by
  unfold sweep
  split
  · rename_i stamp
    unfold Catalog.marked Catalog.markEntriesMissingWithoutLiveSources at *
    dsimp only
    rw [Table.get_update]
    change ((c.entries.get id).map _).bind _ ≠ none
    cases hentry : c.entries.get id with
    | none =>
      rw [hentry] at h
      exact absurd rfl h
    | some e =>
      rw [hentry] at h
      have hmissing : e.missingSince.isNone = false := by
        rw [Option.isNone_eq_false_iff, Option.isSome_iff_ne_none]
        exact h
      simp only [Option.map_some, hmissing, Bool.and_false, Bool.false_eq_true, if_false]
      exact h
  · exact h

theorem foldl_addExternalId_get (c : Catalog) (ids : List (ExternalNs × String))
    (kind entryId : String) (key : ExternalNs × String × String) :
    (ids.foldl (fun c e => c.addExternalId e.1 e.2 kind entryId) c).externalIds.get key =
        c.externalIds.get key ∨
      (ids.foldl (fun c e => c.addExternalId e.1 e.2 kind entryId) c).externalIds.get key =
        some entryId := by
  induction ids generalizing c with
  | nil => exact .inl rfl
  | cons e ids ih =>
    rcases ih (c.addExternalId e.1 e.2 kind entryId) with hsame | hhere
    · rw [List.foldl_cons, hsame]
      unfold Catalog.addExternalId
      rw [Table.get_upsert]
      split_ifs
      · exact .inr rfl
      · exact .inl rfl
    · exact .inr hhere

section
variable (c : Catalog) (roots : List String) (now : Option String) (item : PlexItem)
  (entryId : String)

theorem writeItem_owner (k : Source × String) :
    (writeItem c roots now item entryId).owner k =
      if k = (.plex, item.ratingKey) then some entryId else c.owner k := by
  unfold Catalog.owner
  rw [(writeItem_tables c roots now item entryId).1]
  exact addSource_owner c (itemSource now item entryId) k

theorem writeItem_rest :
    (∀ id, (writeItem c roots now item entryId).has id = (id = entryId || c.has id)) ∧
      ∀ key, (writeItem c roots now item entryId).externalIds.get key = c.externalIds.get key ∨
        (writeItem c roots now item entryId).externalIds.get key = some entryId := by
  unfold writeItem
  dsimp only
  have hid : (plexEntry c roots item entryId).entryId = entryId := rfl
  generalize plexEntry c roots item entryId = entry at hid
  constructor
  · intro id
    unfold Catalog.has
    rw [(writeTags_tables _ _ _).entries]
    unfold Catalog.addSource
    dsimp only
    rw [(foldl_addExternalId _ _ _ _).2]
    have hset := update_has (c.upsertEntry entry) (fun id e =>
      if id = entryId then { e with plexAbsoluteEpisode := entry.absoluteEpisode } else e) id
    rw [upsertEntry_has, hid] at hset
    exact hset
  · intro key
    rw [(writeTags_tables _ _ _).externalIds]
    exact foldl_addExternalId_get
      ((c.upsertEntry entry).setPlexAbsoluteEpisode entryId entry.absoluteEpisode)
      item.externalIds (entryKind item) entryId key

end

/-- What every pass keeps of a catalog. -/
structure Kept (c c' : Catalog) : Prop where
  pin : ∀ ratingKey id, c.owner (.plex, ratingKey) = some id →
    c'.owner (.plex, ratingKey) = some id
  rows : ∀ k, (c.owner k).isSome → (c'.owner k).isSome
  entries : ∀ id, c.has id → c'.has id
  guids : ∀ key, (c.externalIds.get key).isSome → (c'.externalIds.get key).isSome

theorem Kept.refl (c : Catalog) : Kept c c :=
  ⟨fun _ _ h => h, fun _ h => h, fun _ h => h, fun _ h => h⟩

theorem Kept.trans {c₁ c₂ c₃ : Catalog} (h : Kept c₁ c₂) (h' : Kept c₂ c₃) : Kept c₁ c₃ := by
  constructor
  · exact fun ratingKey id hid => h'.pin _ _ (h.pin ratingKey id hid)
  · exact fun k hk => h'.rows _ (h.rows k hk)
  · exact fun id hid => h'.entries _ (h.entries id hid)
  · exact fun key hkey => h'.guids _ (h.guids key hkey)

theorem Kept.hasPlexSource {c c' : Catalog} (h : Kept c c') {id : String}
    (hid : hasPlexSource c id = true) : hasPlexSource c' id = true := by
  obtain ⟨ratingKey, howner⟩ := Catalog.hasPlexSource_iff.mp hid
  exact Catalog.hasPlexSource_iff.mpr ⟨ratingKey, h.pin _ _ howner⟩

theorem sweep_kept (c : Catalog) (source : Source) (full : Bool) (now : Option String) :
    Kept c (sweep c source full now) := by
  constructor
  · intro ratingKey id hid
    rwa [sweep_owner]
  · intro k hk
    rwa [sweep_owner]
  · intro id hid
    rwa [sweep_has]
  · intro key hkey
    rwa [sweep_externalIds]

theorem upsertEntry_kept (c : Catalog) (e : Entry) : Kept c (c.upsertEntry e) := by
  constructor
  · exact fun _ _ h => h
  · exact fun _ h => h
  · intro id hid
    rw [upsertEntry_has, hid, Bool.or_true]
  · exact fun _ h => h

/-- A row attached by another source than Plex moves no Plex row. -/
theorem addSource_kept (c : Catalog) {s : EntrySource} (h : s.source ≠ .plex) :
    Kept c (c.addSource s) := by
  constructor
  · intro ratingKey id hid
    rw [addSource_owner, if_neg]
    · exact hid
    · intro hk
      exact h (congrArg Prod.fst hk).symm
  · intro k hk
    rw [addSource_owner]
    split_ifs
    · rfl
    · exact hk
  · exact fun _ h => h
  · exact fun _ h => h

namespace PlexPass

variable (roots : List String) (now : Option String) (p : PlexPass) (item : PlexItem)

def pathMatch : Option String := p.index.get (canonicalPath item.playbackPath roots)

def entryOf : String := itemEntry p.catalog roots (p.pathMatch roots item) item

def stale : Option String := staleEntry p.catalog (p.pathMatch roots item) (p.entryOf roots item)

/-- Where what belonged to an entry belongs once the item is written. -/
def moved (id : String) : String :=
  if p.stale roots item = some id then p.entryOf roots item else id

theorem of_stale {p : PlexPass} {roots : List String} {item : PlexItem} {loser : String}
    (h : p.stale roots item = some loser) :
    p.pathMatch roots item = some loser ∧ loser ≠ p.entryOf roots item ∧ isFs loser = true ∧
      hasPlexSource p.catalog loser = false := by
  unfold stale staleEntry at h
  obtain ⟨hpath, hcond⟩ := Option.filter_eq_some_iff.mp h
  simp only [ne_eq, Bool.and_eq_true, decide_not, Bool.not_eq_true',
    decide_eq_false_iff_not] at hcond
  exact ⟨hpath, hcond.1.1, hcond.1.2, hcond.2⟩

theorem item_eq :
    (p.item roots now item).catalog = writeItem
        (match p.stale roots item with
          | some loser => p.catalog.mergeEntry loser (p.entryOf roots item) (now.getD "")
          | none => p.catalog) roots now item (p.entryOf roots item) ∧
      ∀ q, (p.item roots now item).index.get q = (p.index.get q).map (p.moved roots item) := by
  unfold PlexPass.item
  dsimp only
  rw [← pathMatch, ← entryOf, ← stale]
  have hmoved : p.moved roots item = fun id =>
      if p.stale roots item = some id then p.entryOf roots item else id := rfl
  rw [hmoved]
  cases p.stale roots item with
  | none =>
    refine ⟨rfl, fun q => ?_⟩
    cases p.index.get q <;> simp
  | some loser =>
    refine ⟨rfl, fun q => ?_⟩
    rw [Table.get_update]
    congr 1
    funext id
    simp only [Option.some.injEq, eq_comm]

theorem item_owner (k : Source × String) :
    (p.item roots now item).catalog.owner k =
      if k = (.plex, item.ratingKey) then some (p.entryOf roots item)
      else (p.catalog.owner k).map (p.moved roots item) := by
  rw [(item_eq roots now p item).1, writeItem_owner]
  congr 1
  unfold moved
  cases hstale : p.stale roots item with
  | none => cases p.catalog.owner k <;> simp
  | some loser =>
    rw [mergeEntry_owner (of_stale hstale).2.1]
    congr 1
    funext id
    simp only [Option.some.injEq, eq_comm]

theorem item_has (id : String) : (p.item roots now item).catalog.has id =
    (id = p.entryOf roots item || p.catalog.has id) := by
  rw [(item_eq roots now p item).1, (writeItem_rest _ roots now item _).1]
  cases p.stale roots item with
  | none => rfl
  | some loser => rw [mergeEntry_has]

theorem item_externalIds (key : ExternalNs × String × String) :
    (p.item roots now item).catalog.externalIds.get key =
        (p.catalog.externalIds.get key).map (p.moved roots item) ∨
      (p.item roots now item).catalog.externalIds.get key = some (p.entryOf roots item) := by
  rw [(item_eq roots now p item).1]
  have hmerged : (match p.stale roots item with
      | some loser => p.catalog.mergeEntry loser (p.entryOf roots item) (now.getD "")
      | none => p.catalog).externalIds.get key =
        (p.catalog.externalIds.get key).map (p.moved roots item) := by
    unfold moved
    cases hstale : p.stale roots item with
    | none => cases p.catalog.externalIds.get key <;> simp
    | some loser =>
      dsimp only
      unfold Catalog.mergeEntry
      rw [if_neg (of_stale hstale).2.1, Table.get_update]
      congr 1
      funext id
      simp only [Option.some.injEq, eq_comm]
  rw [← hmerged]
  exact (writeItem_rest _ roots now item _).2 key

theorem item_marked {id : String} (hid : id ≠ p.entryOf roots item)
    (h : p.catalog.marked id ≠ none ∨ p.stale roots item = some id ∧ p.catalog.has id) :
    (p.item roots now item).catalog.marked id ≠ none := by
  rw [(item_eq roots now p item).1, (writeItem_tables _ roots now item _).2, if_neg hid]
  cases hstale : p.stale roots item with
  | none =>
    rcases h with h | h
    · exact h
    · rw [hstale] at h
      cases h.1
  | some loser =>
    dsimp only
    rw [mergeEntry_marked (of_stale hstale).2.1]
    split_ifs with hloser
    · simp
    · rcases h with h | h
      · exact h
      · rw [hstale, Option.some.injEq] at h
        exact absurd ⟨h.1.symm, h.1 ▸ h.2⟩ hloser

/-- A ratingKey's own entry comes first. -/
theorem entryOf_pinned {p : PlexPass} {item : PlexItem} {id : String}
    (h : p.catalog.owner (.plex, item.ratingKey) = some id) : p.entryOf roots item = id := by
  unfold entryOf itemEntry resolveExisting Catalog.entryIdForSource
  rw [show (p.catalog.sources.get (.plex, item.ratingKey)).map (·.entryId) = some id from h]
  rfl

theorem moved_of_hasPlexSource {p : PlexPass} {item : PlexItem} {id : String}
    (h : hasPlexSource p.catalog id = true) : p.moved roots item id = id := by
  unfold moved
  rw [if_neg]
  intro hstale
  rw [(of_stale hstale).2.2.2] at h
  cases h

theorem item_kept : Kept p.catalog (p.item roots now item).catalog := by
  constructor
  · intro ratingKey id howner
    rw [item_owner]
    split_ifs with hk
    · rw [Prod.mk.injEq] at hk
      rw [hk.2] at howner
      rw [entryOf_pinned roots howner]
    · rw [howner, Option.map_some,
        moved_of_hasPlexSource roots (Catalog.hasPlexSource_iff.mpr ⟨ratingKey, howner⟩)]
  · intro k hk
    rw [item_owner]
    split_ifs
    · rfl
    · rwa [Option.isSome_map]
  · intro id hid
    rw [item_has, hid, Bool.or_true]
  · intro key hkey
    rcases item_externalIds roots now p item key with h | h
    · rwa [h, Option.isSome_map]
    · rw [h]
      rfl

end PlexPass

theorem ingestFile_kept (index : Table String String) (roots : List String) (now : Option String)
    (c : Catalog) (file : ProbedFile) : Kept c (ingestFile index roots now c file) := by
  unfold ingestFile
  dsimp only
  split_ifs
  · exact (upsertEntry_kept c _).trans (addSource_kept _ (by simp))
  · exact addSource_kept _ (by simp)

theorem writeExtra_kept (stamp : String) (c : Catalog) (item : ExtrasItem) :
    Kept c (writeExtra stamp c item) := by
  unfold writeExtra
  split
  · exact Kept.refl c
  · exact (upsertEntry_kept c _).trans (addSource_kept _ (by simp))

theorem foldl_kept {σ α : Type} (view : σ → Catalog) {f : σ → α → σ}
    (h : ∀ s a, Kept (view s) (view (f s a))) (s : σ) (as : List α) :
    Kept (view s) (view (as.foldl f s)) := by
  induction as generalizing s with
  | nil => exact Kept.refl _
  | cons a as ih => exact (h s a).trans (ih (f s a))

theorem reconcile_kept (c : Catalog) (showIds : List String) :
    Kept c (c.reconcileAbsoluteEpisodes showIds) := by
  have hsources := (reconcile_marked c showIds).1
  constructor
  · intro ratingKey id hid
    unfold Catalog.owner
    rwa [hsources]
  · intro k hk
    unfold Catalog.owner
    rwa [hsources]
  · intro id hid
    rwa [(reconcile_has c showIds id).1]
  · intro key hkey
    rwa [(reconcile_has c showIds "").2]

theorem Pass.run_kept (c : Catalog) (p : Pass) : Kept c (p.run c) := by
  cases p with
  | files scanned roots full stamp =>
    have hfold := foldl_kept id
      (ingestFile_kept (canonicalIndex c roots) roots (some stamp)) c scanned
    exact hfold.trans (sweep_kept _ _ _ _)
  | items fetched roots full stamp =>
    have hfold := foldl_kept PlexPass.catalog (PlexPass.item_kept roots (some stamp))
      ⟨c, canonicalIndex c roots, []⟩ fetched
    exact (hfold.trans (reconcile_kept _ _)).trans (sweep_kept _ _ _ _)
  | extras listed full stamp =>
    have hfold := foldl_kept id (writeExtra_kept stamp) c listed
    exact hfold.trans (sweep_kept _ _ _ _)

end EtvStation.Ingest
