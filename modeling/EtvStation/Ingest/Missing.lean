import EtvStation.Lib.Traces
import EtvStation.Ingest.Passes
import Mathlib.Data.List.Induction

/-! What the missing marks say: of a row, whether its source still has the file, and of an entry,
whether any row is left to play it from. -/
namespace EtvStation.Ingest

open Lib (Table)

inductive Pass
  | files (scanned : List ProbedFile) (roots : List String) (full : Bool) (stamp : String)
  | items (fetched : List PlexItem) (roots : List String) (full : Bool) (stamp : String)
  | extras (listed : List ExtrasItem) (full : Bool) (stamp : String)

namespace Pass

def run (c : Catalog) : Pass → Catalog
  | files scanned roots full stamp => ingestFiles c scanned roots full (some stamp)
  | items fetched roots full stamp => writePass c fetched roots full (some stamp)
  | extras listed full stamp => ingestExtras c listed full stamp

def source : Pass → Source
  | files .. => .localFs
  | items .. => .plex
  | extras .. => .extras

def full : Pass → Bool
  | files _ _ full _ => full
  | items _ _ full _ => full
  | extras _ full _ => full

def stamp : Pass → String
  | files _ _ _ stamp => stamp
  | items _ _ _ stamp => stamp
  | extras _ _ stamp => stamp

def stamped : Pass → List String
  | files scanned roots _ _ => scanned.map fun file => canonicalPath file.1 roots
  | items fetched _ _ _ => fetched.map (·.ratingKey)
  | extras listed _ _ => listed.filterMap fun item => item.livePath.map fun _ => item.itemId

def step (c : Catalog) (p : Pass) : Option (Catalog × List Pass) := some (p.run c, [p])

/-- No file of a scan is found, by its path, to belong to an entry the scan does not write and that
is marked missing. -/
def Clears (c : Catalog) : Pass → Prop
  | files scanned roots _ _ => ∀ file ∈ scanned,
    ∀ id ∈ (canonicalIndex c roots).get (canonicalPath file.1 roots), ¬ isFs id →
      (c.entries.get id).bind (·.missingSince) = none
  | _ => True

instance (c : Catalog) : DecidablePred (Clears c)
  | files scanned roots _ _ => inferInstanceAs (Decidable (∀ file ∈ scanned,
      ∀ id ∈ (canonicalIndex c roots).get (canonicalPath file.1 roots), ¬ isFs id →
        (c.entries.get id).bind (·.missingSince) = none))
  | items .. => inferInstanceAs (Decidable True)
  | extras .. => inferInstanceAs (Decidable True)

end Pass

namespace Catalog

/-- When a row was last seen, and since when it is missing. -/
def seen (c : Catalog) (k : Source × String) : Option (Option String × Option String) :=
  (c.sources.get k).map fun s => (s.lastSeen, s.missingSince)

def marked (c : Catalog) (id : String) : Option String :=
  (c.entries.get id).bind (·.missingSince)

/-- No live row belongs to an entry that is marked missing, `id`'s apart. -/
def ShownBut (c : Catalog) (id : Option String) : Prop :=
  ∀ k s, c.sources.get k = some s → s.missingSince = none → some s.entryId ≠ id →
    c.marked s.entryId = none

end Catalog

theorem addSource_seen (c : Catalog) (s : EntrySource) (k : Source × String) :
    (c.addSource s).seen k = if k = (s.source, s.sourceId) then some (s.lastSeen, none)
      else c.seen k := by
  unfold Catalog.seen Catalog.addSource
  rw [Table.get_upsert]
  split_ifs <;> rfl

theorem upsertEntry_marked (c : Catalog) (e : Entry) (id : String) :
    (c.upsertEntry e).marked id = if id = e.entryId then none else c.marked id := by
  unfold Catalog.marked Catalog.upsertEntry
  rw [Table.get_upsert]
  split_ifs <;> rfl

theorem mergeEntry_seen (c : Catalog) (loser survivor stamp : String) (k : Source × String) :
    (c.mergeEntry loser survivor stamp).seen k = c.seen k := by
  unfold Catalog.mergeEntry
  split_ifs with h
  · rfl
  · unfold Catalog.seen
    rw [Table.get_update, Option.map_map]
    congr 1
    funext s
    simp only [Function.comp_apply]
    split_ifs <;> rfl

/-- A write of one column of some entries, the marks left alone. -/
theorem update_marked {c : Catalog} {f : String → Entry → Entry}
    (hf : ∀ id e, (f id e).missingSince = e.missingSince) (id : String) :
    ({ c with entries := c.entries.update f } : Catalog).marked id = c.marked id := by
  unfold Catalog.marked
  rw [Table.get_update]
  cases c.entries.get id with
  | none => rfl
  | some e => exact hf id e

theorem setPlexAbsoluteEpisode_marked (c : Catalog) (entryId : String) (value : Option ℤ)
    (id : String) : (c.setPlexAbsoluteEpisode entryId value).marked id = c.marked id := by
  refine update_marked (fun id e => ?_) id
  split_ifs <;> rfl

theorem reconcile_marked (c : Catalog) (showIds : List String) :
    (c.reconcileAbsoluteEpisodes showIds).sources = c.sources ∧
      ∀ id, (c.reconcileAbsoluteEpisodes showIds).marked id = c.marked id := by
  unfold Catalog.reconcileAbsoluteEpisodes
  have hset : ∀ (ws : List (String × Option ℤ)) (c : Catalog),
      (ws.foldl (fun c w => c.setAbsoluteEpisode w.1 w.2) c).sources = c.sources ∧
        ∀ id, (ws.foldl (fun c w => c.setAbsoluteEpisode w.1 w.2) c).marked id = c.marked id := by
    intro ws
    induction ws with
    | nil => exact fun c => ⟨rfl, fun _ => rfl⟩
    | cons w ws ih =>
      intro c
      have hrest := ih (c.setAbsoluteEpisode w.1 w.2)
      refine ⟨hrest.1, fun id => (hrest.2 id).trans ?_⟩
      refine update_marked (fun id e => ?_) id
      split_ifs <;> rfl
  induction showIds generalizing c with
  | nil => exact ⟨rfl, fun _ => rfl⟩
  | cons showId showIds ih =>
    have hhere := hset (Catalog.wantedNumbers (c.showRows showId)) c
    have hrest := ih ((Catalog.wantedNumbers (c.showRows showId)).foldl
      (fun c w => c.setAbsoluteEpisode w.1 w.2) c)
    exact ⟨hrest.1.trans hhere.1, fun id => (hrest.2 id).trans (hhere.2 id)⟩

/-- `c'` differs from `c` in its tags at most. -/
structure SameTables (c' c : Catalog) : Prop where
  sources : c'.sources = c.sources
  entries : c'.entries = c.entries
  externalIds : c'.externalIds = c.externalIds

theorem foldl_addTag (c : Catalog) (entryId : String) (ns : TagNs) (values : List String) :
    SameTables (values.foldl (fun c value => c.addTag entryId ns value) c) c := by
  induction values generalizing c with
  | nil => exact ⟨rfl, rfl, rfl⟩
  | cons value values ih =>
    have hone : SameTables (c.addTag entryId ns value) c := by
      unfold Catalog.addTag
      split_ifs <;> exact ⟨rfl, rfl, rfl⟩
    have hrest := ih (c.addTag entryId ns value)
    constructor
    · exact hrest.sources.trans hone.sources
    · exact hrest.entries.trans hone.entries
    · exact hrest.externalIds.trans hone.externalIds

theorem writeTags_tables (c : Catalog) (entryId : String) (item : PlexItem) :
    SameTables (writeTags c entryId item) c := by
  unfold writeTags
  generalize [(TagNs.genre, item.genres), (.cast, item.cast), (.director, item.directors),
    (.writer, item.writers), (.producer, item.producers), (.country, item.countries)] = sets
  induction sets generalizing c with
  | nil => exact ⟨rfl, rfl, rfl⟩
  | cons tags sets ih =>
    have hone := foldl_addTag (c.clearTags entryId tags.1) entryId tags.1 tags.2
    have hrest := ih (tags.2.foldl (fun c value => c.addTag entryId tags.1 value)
      (c.clearTags entryId tags.1))
    constructor
    · exact hrest.sources.trans hone.sources
    · exact hrest.entries.trans hone.entries
    · exact hrest.externalIds.trans hone.externalIds

theorem foldl_addExternalId (c : Catalog) (ids : List (ExternalNs × String))
    (kind entryId : String) :
    (ids.foldl (fun c e => c.addExternalId e.1 e.2 kind entryId) c).sources = c.sources ∧
      (ids.foldl (fun c e => c.addExternalId e.1 e.2 kind entryId) c).entries = c.entries := by
  induction ids generalizing c with
  | nil => exact ⟨rfl, rfl⟩
  | cons e ids ih =>
    have hrest := ih (c.addExternalId e.1 e.2 kind entryId)
    exact ⟨hrest.1, hrest.2⟩

def itemSource (now : Option String) (item : PlexItem) (entryId : String) : EntrySource where
  source := .plex
  sourceId := item.ratingKey
  entryId := entryId
  playbackPath := item.playbackPath
  lastSeen := now

/-- An item's entry is written, then its row attached. -/
theorem writeItem_tables (c : Catalog) (roots : List String) (now : Option String)
    (item : PlexItem) (entryId : String) :
    (writeItem c roots now item entryId).sources =
        (c.addSource (itemSource now item entryId)).sources ∧
      ∀ id, (writeItem c roots now item entryId).marked id =
        if id = entryId then none else c.marked id := by
  unfold writeItem
  dsimp only
  have hid : (plexEntry c roots item entryId).entryId = entryId := rfl
  generalize plexEntry c roots item entryId = entry at hid
  have htags := writeTags_tables
    ((item.externalIds.foldl (fun c e => c.addExternalId e.1 e.2 (entryKind item) entryId)
      ((c.upsertEntry entry).setPlexAbsoluteEpisode entryId entry.absoluteEpisode)).addSource
        (itemSource now item entryId)) entryId item
  have hids := foldl_addExternalId
    ((c.upsertEntry entry).setPlexAbsoluteEpisode entryId entry.absoluteEpisode)
    item.externalIds (entryKind item) entryId
  constructor
  · refine htags.sources.trans ?_
    unfold Catalog.addSource
    dsimp only
    rw [hids.1]
    rfl
  · intro id
    unfold Catalog.marked
    rw [← itemSource, htags.entries]
    unfold Catalog.addSource
    dsimp only
    rw [hids.2]
    have hset := setPlexAbsoluteEpisode_marked (c.upsertEntry entry) entryId
      entry.absoluteEpisode id
    rw [upsertEntry_marked, hid] at hset
    exact hset

theorem PlexPass.item_seen (roots : List String) (now : Option String) (p : PlexPass)
    (item : PlexItem) (k : Source × String) :
    (p.item roots now item).catalog.seen k =
      if k = (.plex, item.ratingKey) then some (now, none) else p.catalog.seen k := by
  have hwrite : ∀ (c : Catalog) (entryId : String),
      (writeItem c roots now item entryId).seen k =
        if k = (.plex, item.ratingKey) then some (now, none) else c.seen k := by
    intro c entryId
    have hsources := (writeItem_tables c roots now item entryId).1
    unfold Catalog.seen
    rw [hsources]
    exact addSource_seen c (itemSource now item entryId) k
  unfold PlexPass.item
  dsimp only
  rw [hwrite]
  split_ifs with hk
  · rfl
  · split
    · exact mergeEntry_seen _ _ _ _ _
    · rfl

/-- A pass over a list, each element of which has at most one row of `source` written, live. -/
theorem foldl_seen {σ α : Type} (view : σ → Source × String → Option (Option String × Option String))
    {f : σ → α → σ} (source : Source) (now : Option String) (key : α → Option String)
    (hf : ∀ s a k, view (f s a) k =
      if k.1 = source ∧ key a = some k.2 then some (now, none) else view s k)
    (s : σ) (as : List α) (k : Source × String) :
    view (as.foldl f s) k =
      if k.1 = source ∧ k.2 ∈ as.filterMap key then some (now, none) else view s k := by
  induction as generalizing s with
  | nil => simp
  | cons a as ih =>
    rw [List.foldl_cons, ih, hf]
    by_cases hs : k.1 = source
    · by_cases ha : key a = some k.2
      · simp [hs, ha]
      · have hmem : k.2 ∈ (a :: as).filterMap key ↔ k.2 ∈ as.filterMap key := by
          simp [List.mem_filterMap, ha]
        simp only [hmem, hs, ha, and_false, true_and, if_false]
    · simp [hs]

theorem sweep_seen (c : Catalog) (source : Source) (full : Bool) (stamp : String)
    (k : Source × String) :
    (sweep c source full (some stamp)).seen k =
      if full ∧ k.1 = source then
        (c.seen k).map fun v =>
          if v.1 ≠ some stamp ∧ v.2 = none then (v.1, some stamp) else v
      else c.seen k := by
  cases full with
  | false => simp [sweep]
  | true =>
    change ((c.markUnseenSourcesMissing source stamp).markEntriesMissingWithoutLiveSources
      stamp).seen k = _
    unfold Catalog.markEntriesMissingWithoutLiveSources Catalog.seen
    dsimp only
    unfold Catalog.markUnseenSourcesMissing
    rw [Table.get_update, Option.map_map]
    by_cases hk : k.1 = source
    · rw [if_pos ⟨rfl, hk⟩, Option.map_map]
      congr 1
      funext s
      simp only [Function.comp_apply, hk, true_and]
      split_ifs <;> rfl
    · rw [if_neg fun h => hk h.2]
      congr 1
      funext s
      simp only [Function.comp_apply, hk, false_and, if_false]

theorem row_eq {k : Source × String} {source : Source} {id : String} :
    k = (source, id) ↔ k.1 = source ∧ some id = some k.2 := by
  rw [Prod.ext_iff, Option.some.injEq, eq_comm (a := id)]

theorem ingestFile_seen (index : Table String String) (roots : List String) (now : Option String)
    (c : Catalog) (file : ProbedFile) (k : Source × String) :
    (ingestFile index roots now c file).seen k =
      if k.1 = .localFs ∧ some (canonicalPath file.1 roots) = some k.2 then some (now, none)
      else c.seen k := by
  unfold ingestFile
  simp only [addSource_seen, row_eq]
  congr 1
  split_ifs <;> rfl

theorem writeExtra_seen (stamp : String) (c : Catalog) (item : ExtrasItem) (k : Source × String) :
    (writeExtra stamp c item).seen k =
      if k.1 = .extras ∧ (item.livePath.map fun _ => item.itemId) = some k.2 then
        some (some stamp, none)
      else c.seen k := by
  unfold writeExtra
  cases item.livePath with
  | none => simp
  | some path =>
    simp only [addSource_seen, Option.map_some, row_eq]
    rfl

theorem Pass.run_seen (c : Catalog) (p : Pass) (k : Source × String) :
    (p.run c).seen k =
      let written := if k.1 = p.source ∧ k.2 ∈ p.stamped then some (some p.stamp, none)
        else c.seen k
      if p.full ∧ k.1 = p.source then
        written.map fun v => if v.1 ≠ some p.stamp ∧ v.2 = none then (v.1, some p.stamp) else v
      else written := by
  cases p with
  | files scanned roots full stamp =>
    have hmap : (scanned.filterMap fun file => some (canonicalPath file.1 roots)) =
        scanned.map fun file => canonicalPath file.1 roots := by simp
    have hfold := foldl_seen Catalog.seen .localFs (some stamp)
      (fun file : ProbedFile => some (canonicalPath file.1 roots))
      (ingestFile_seen (canonicalIndex c roots) roots (some stamp)) c scanned k
    rw [hmap] at hfold
    simp only [Pass.run, ingestFiles, sweep_seen, hfold]
    rfl
  | items fetched roots full stamp =>
    have hmap : (fetched.filterMap fun item => some item.ratingKey) =
        fetched.map (·.ratingKey) := by simp
    have hfold := foldl_seen (fun p : PlexPass => p.catalog.seen)
      (f := PlexPass.item roots (some stamp)) .plex (some stamp)
      (fun item : PlexItem => some item.ratingKey)
      (fun p item k => by simp only [PlexPass.item_seen, row_eq])
      ⟨c, canonicalIndex c roots, []⟩ fetched k
    rw [hmap] at hfold
    have hreconcile : (ingestItems c fetched roots (some stamp)).seen k =
        if k.1 = .plex ∧ k.2 ∈ fetched.map (·.ratingKey) then some (some stamp, none)
        else c.seen k := by
      rw [← hfold]
      unfold ingestItems Catalog.seen
      rw [(reconcile_marked _ _).1]
    simp only [Pass.run, writePass, sweep_seen, hreconcile]
    rfl
  | extras listed full stamp =>
    have hfold := foldl_seen Catalog.seen .extras (some stamp)
      (fun item : ExtrasItem => item.livePath.map fun _ => item.itemId)
      (writeExtra_seen stamp) c listed k
    simp only [Pass.run, ingestExtras, sweep_seen, hfold]
    rfl

/-- The last pass over the rows of a source that a row of it was written by, or that was full. -/
def lastTelling (ps : List Pass) (k : Source × String) : Option Pass :=
  ps.reverse.find? fun p => p.source = k.1 && (p.full || k.2 ∈ p.stamped)

theorem lastTelling_append (ps : List Pass) (p : Pass) (k : Source × String) :
    lastTelling (ps ++ [p]) k =
      if p.source = k.1 ∧ (p.full ∨ k.2 ∈ p.stamped) then some p else lastTelling ps k := by
  unfold lastTelling
  rw [List.reverse_append, List.reverse_singleton, List.singleton_append, List.find?_cons]
  split_ifs with h
  · have hb : (p.source = k.1 && (p.full || k.2 ∈ p.stamped)) = true := by simpa using h
    simp [hb]
  · have hb : (p.source = k.1 && (p.full || k.2 ∈ p.stamped)) = false := by
      rw [Bool.eq_false_iff]
      simpa using h
    simp [hb]

/-- Every row carries the stamp of a pass, and is live when the last pass that tells wrote it. -/
def Catalog.Dated (c : Catalog) (ps : List Pass) : Prop :=
  ∀ k v, c.seen k = some v → (∃ p ∈ ps, v.1 = some p.stamp) ∧
    (v.2 = none ↔ (lastTelling ps k).any fun p => k.2 ∈ p.stamped)

theorem Pass.run_dated {c : Catalog} {ps : List Pass} (h : c.Dated ps) {p : Pass}
    (hp : ∀ q ∈ ps, q.stamp ≠ p.stamp) : (p.run c).Dated (ps ++ [p]) := by
  intro k v hseen
  rw [Pass.run_seen] at hseen
  rw [lastTelling_append]
  by_cases hsource : k.1 = p.source
  · by_cases hstamped : k.2 ∈ p.stamped
    · have hv : v = (some p.stamp, none) := by
        simp only [hsource, hstamped, and_self, if_true, and_true, Option.map_some, ne_eq,
          not_true_eq_false, if_false] at hseen
        split_ifs at hseen <;> exact (Option.some.inj hseen).symm
      rw [hv, if_pos ⟨hsource.symm, .inr hstamped⟩]
      exact ⟨⟨p, by simp, rfl⟩, by simpa using hstamped⟩
    · have hnot : ¬ (k.1 = p.source ∧ k.2 ∈ p.stamped) := fun hk => hstamped hk.2
      simp only [if_neg hnot] at hseen
      by_cases hfull : p.full = true
      · rw [if_pos ⟨hfull, hsource⟩] at hseen
        obtain ⟨old, hold, hv⟩ := Option.map_eq_some_iff.mp hseen
        obtain ⟨⟨q, hq, hstamp⟩, -⟩ := h k old hold
        have hunseen : old.1 ≠ some p.stamp := by
          rw [hstamp]
          exact fun heq => hp q hq (Option.some.inj heq)
        rw [if_pos ⟨hsource.symm, .inl hfull⟩]
        constructor
        · refine ⟨q, by simp [hq], ?_⟩
          rw [← hv]
          split_ifs <;> exact hstamp
        · rw [← hv]
          by_cases hlive : old.2 = none
          · simp [hunseen, hlive, hstamped]
          · simp [hlive, hstamped]
      · rw [if_neg fun hk => hfull hk.1] at hseen
        rw [if_neg fun hk => hk.2.elim hfull hstamped]
        obtain ⟨⟨q, hq, hstamp⟩, hlive⟩ := h k v hseen
        exact ⟨⟨q, by simp [hq], hstamp⟩, hlive⟩
  · have hnot : ¬ (k.1 = p.source ∧ k.2 ∈ p.stamped) := fun hk => hsource hk.1
    simp only [if_neg hnot] at hseen
    rw [if_neg fun hk => hsource hk.2] at hseen
    rw [if_neg fun hk => hsource hk.1.symm]
    obtain ⟨⟨q, hq, hstamp⟩, hlive⟩ := h k v hseen
    exact ⟨⟨q, by simp [hq], hstamp⟩, hlive⟩

theorem upsertEntry_shown {c : Catalog} {e : Entry} (h : c.ShownBut (some e.entryId)) :
    (c.upsertEntry e).ShownBut none := by
  intro k s hget hlive _
  rw [upsertEntry_marked]
  split_ifs with hid
  · rfl
  · exact h k s hget hlive fun heq => hid (Option.some.inj heq)

theorem Catalog.ShownBut.weaken {c : Catalog} (h : c.ShownBut none) (id : Option String) :
    c.ShownBut id := fun k s hget hlive _ => h k s hget hlive (by simp)

theorem addSource_shown {c : Catalog} (h : c.ShownBut none) {s : EntrySource}
    (hs : c.marked s.entryId = none) : (c.addSource s).ShownBut none := by
  intro k s' hget hlive hnone
  unfold Catalog.addSource at hget
  rw [Table.get_upsert] at hget
  split_ifs at hget with hk
  · rw [← Option.some.inj hget]
    exact hs
  · exact h k s' hget hlive hnone

theorem mergeEntry_shown {c : Catalog} (h : c.ShownBut none) (loser survivor stamp : String) :
    (c.mergeEntry loser survivor stamp).ShownBut (some survivor) := by
  unfold Catalog.mergeEntry
  split_ifs with hsame
  · exact h.weaken _
  · intro k s hget hlive hother
    rw [Table.get_update, Option.map_eq_some_iff] at hget
    obtain ⟨old, hold, rfl⟩ := hget
    by_cases hloser : old.entryId = loser
    · rw [if_pos hloser] at hother
      exact absurd rfl hother
    · rw [if_neg hloser] at hlive ⊢
      have hmarked := h k old hold hlive (by simp)
      unfold Catalog.marked at hmarked ⊢
      rw [Table.get_update]
      cases hentry : c.entries.get old.entryId with
      | none => rfl
      | some e =>
        rw [hentry] at hmarked
        simp only [Option.map_some, hloser, if_false]
        exact hmarked

theorem writeItem_shown {c : Catalog} {entryId : String} (h : c.ShownBut (some entryId))
    (roots : List String) (now : Option String) (item : PlexItem) :
    (writeItem c roots now item entryId).ShownBut none := by
  obtain ⟨hsources, hmarked⟩ := writeItem_tables c roots now item entryId
  intro k s hget hlive _
  rw [hsources] at hget
  rw [hmarked]
  split_ifs with hid
  · rfl
  · unfold Catalog.addSource at hget
    rw [Table.get_upsert] at hget
    split_ifs at hget with hk
    · rw [← Option.some.inj hget] at hid
      exact absurd rfl hid
    · exact h k s hget hlive fun heq => hid (Option.some.inj heq)

theorem PlexPass.item_shown {p : PlexPass} (h : p.catalog.ShownBut none) (roots : List String)
    (now : Option String) (item : PlexItem) : (p.item roots now item).catalog.ShownBut none := by
  unfold PlexPass.item
  dsimp only
  apply writeItem_shown
  split
  · exact mergeEntry_shown h _ _ _
  · exact h.weaken _

theorem writeExtra_shown {c : Catalog} (h : c.ShownBut none) (stamp : String) (item : ExtrasItem) :
    (writeExtra stamp c item).ShownBut none := by
  unfold writeExtra
  split
  · exact h
  · apply addSource_shown
    · exact upsertEntry_shown (h.weaken _)
    · rw [upsertEntry_marked]
      exact if_pos rfl

theorem ingestFile_shown (index : Table String String) (roots : List String) {c : Catalog}
    (h : c.ShownBut none) (now : Option String) (file : ProbedFile)
    (hfile : ¬ isFs (fileEntry index roots file).1 →
      c.marked (fileEntry index roots file).1 = none) :
    (ingestFile index roots now c file).ShownBut none ∧
      ∀ id, ¬ isFs id → (ingestFile index roots now c file).marked id = c.marked id := by
  unfold ingestFile
  dsimp only
  generalize (fileEntry index roots file).1 = entryId at hfile ⊢
  have hupsert : (fsEntry c entryId file).entryId = entryId := rfl
  generalize fsEntry c entryId file = entry at hupsert ⊢
  by_cases hfs : isFs entryId = true
  · rw [if_pos hfs]
    constructor
    · apply addSource_shown
      · exact upsertEntry_shown (h.weaken _)
      · rw [upsertEntry_marked, hupsert, if_pos rfl]
    · intro id hid
      refine (upsertEntry_marked c entry id).trans (if_neg ?_)
      rw [hupsert]
      rintro rfl
      exact hid hfs
  · rw [if_neg hfs]
    exact ⟨addSource_shown h (hfile hfs), fun _ _ => rfl⟩

/-- A file that no row has goes to an `fs:` entry. -/
theorem fileEntry_of_not_fs {index : Table String String} {roots : List String}
    {file : ProbedFile} (h : ¬ isFs (fileEntry index roots file).1) :
    index.get (canonicalPath file.1 roots) = some (fileEntry index roots file).1 := by
  unfold fileEntry at h ⊢
  dsimp only at h ⊢
  cases hget : index.get (canonicalPath file.1 roots) with
  | none =>
    rw [hget] at h
    exact absurd (isFs_deriveEntryId _) h
  | some existing => rfl

theorem foldl_ingestFile_shown {c : Catalog} (h : c.ShownBut none) {roots : List String}
    (now : Option String) {files : List ProbedFile} {full : Bool} {stamp : String}
    (hclears : (Pass.files files roots full stamp).Clears c) :
    (files.foldl (ingestFile (canonicalIndex c roots) roots now) c).ShownBut none := by
  have hboth : ∀ done rest, files = done ++ rest →
      (done.foldl (ingestFile (canonicalIndex c roots) roots now) c).ShownBut none ∧
        ∀ id, ¬ isFs id →
          (done.foldl (ingestFile (canonicalIndex c roots) roots now) c).marked id =
            c.marked id := by
    intro done
    induction done using List.reverseRecOn with
    | nil => exact fun _ _ => ⟨h, fun _ _ => rfl⟩
    | append_singleton done file ih =>
      intro rest hfiles
      obtain ⟨hshown, hmarked⟩ := ih (file :: rest) (by rw [hfiles, List.append_assoc]; rfl)
      have hmem : file ∈ files := by
        rw [hfiles]
        simp
      rw [List.foldl_append, List.foldl_cons, List.foldl_nil]
      have hone := ingestFile_shown (canonicalIndex c roots) roots hshown now file ?_
      · exact ⟨hone.1, fun id hid => (hone.2 id hid).trans (hmarked id hid)⟩
      · intro hfs
        rw [hmarked _ hfs]
        exact hclears file hmem _ (fileEntry_of_not_fs hfs) hfs
  exact (hboth files [] (List.append_nil _).symm).1

theorem sweep_shown {c : Catalog} (h : c.ShownBut none) (source : Source) (full : Bool)
    (now : Option String) : (sweep c source full now).ShownBut none := by
  unfold sweep
  split
  · rename_i stamp
    have hunseen : (c.markUnseenSourcesMissing source stamp).ShownBut none := by
      intro k s hget hlive hnone
      unfold Catalog.markUnseenSourcesMissing at hget
      rw [Table.get_update, Option.map_eq_some_iff] at hget
      obtain ⟨old, hold, rfl⟩ := hget
      split_ifs at hlive ⊢ with hmark
      exact h k old hold hlive (by simp)
    generalize c.markUnseenSourcesMissing source stamp = c at hunseen
    intro k s hget hlive hnone
    have hhas : c.hasLiveSource s.entryId = true := by
      rw [Catalog.hasLiveSource, Table.any_eq_true]
      exact ⟨k, s, hget, by simp [hlive]⟩
    have hmarked := hunseen k s hget hlive hnone
    unfold Catalog.marked Catalog.markEntriesMissingWithoutLiveSources at *
    dsimp only
    rw [Table.get_update]
    cases hentry : c.entries.get s.entryId with
    | none => rfl
    | some e =>
      rw [hentry] at hmarked
      simp only [Option.map_some, hhas, Bool.not_true, Bool.false_and, Bool.false_eq_true,
        if_false]
      exact hmarked
  · exact h

theorem Pass.run_shown {c : Catalog} (h : c.ShownBut none) {p : Pass} (hp : p.Clears c) :
    (p.run c).ShownBut none := by
  cases p with
  | files scanned roots full stamp =>
    exact sweep_shown (foldl_ingestFile_shown h (some stamp) hp) _ _ _
  | items fetched roots full stamp =>
    apply sweep_shown
    have hitems : ∀ p : PlexPass, p.catalog.ShownBut none →
        (fetched.foldl (PlexPass.item roots (some stamp)) p).catalog.ShownBut none := by
      induction fetched with
      | nil => exact fun _ hp => hp
      | cons item fetched ih =>
        intro p hp
        exact ih trivial _ (PlexPass.item_shown hp roots (some stamp) item)
    intro k s hget hlive hnone
    unfold ingestItems at hget ⊢
    rw [(reconcile_marked _ _).1] at hget
    rw [(reconcile_marked _ _).2]
    exact hitems _ h k s hget hlive hnone
  | extras listed full stamp =>
    apply sweep_shown
    induction listed generalizing c with
    | nil => exact h
    | cons item listed ih => exact ih (writeExtra_shown h stamp item) trivial

/-- A full pass leaves no entry unmarked that has no live row. -/
theorem Pass.run_full {c : Catalog} {p : Pass} (hfull : p.full) {id : String} {e : Entry}
    (hget : (p.run c).entries.get id = some e) (hmissing : e.missingSince = none) :
    (p.run c).hasLiveSource id := by
  have hsweep : ∃ c' source stamp, p.run c =
      (Catalog.markUnseenSourcesMissing c' source stamp).markEntriesMissingWithoutLiveSources
        stamp := by
    cases p with
    | files scanned roots full stamp =>
      cases hfull
      exact ⟨_, _, _, rfl⟩
    | items fetched roots full stamp =>
      cases hfull
      exact ⟨_, _, _, rfl⟩
    | extras listed full stamp =>
      cases hfull
      exact ⟨_, _, _, rfl⟩
  obtain ⟨c', source, stamp, heq⟩ := hsweep
  rw [heq] at hget ⊢
  generalize Catalog.markUnseenSourcesMissing c' source stamp = c at hget
  change c.hasLiveSource id = true
  unfold Catalog.markEntriesMissingWithoutLiveSources at hget
  rw [Table.get_update, Option.map_eq_some_iff] at hget
  obtain ⟨old, hold, rfl⟩ := hget
  by_contra hnot
  rw [Bool.not_eq_true] at hnot
  cases hold' : old.missingSince with
  | none => simp [hnot, hold'] at hmissing
  | some since => simp [hold'] at hmissing

abbrev Pass.Runs (ok : Catalog → Pass → Prop) : Catalog → List Pass → Prop :=
  Lib.Traced Pass.step ok {}

theorem Pass.Runs.dated {ok : Catalog → Pass → Prop} {c : Catalog} {ps : List Pass}
    (h : Pass.Runs ok c ps) (hstamps : (ps.map Pass.stamp).Nodup) : c.Dated ps := by
  have hrun := h.invariant (I := fun c ps => (ps.map Pass.stamp).Nodup → c.Dated ps) ?_ ?_
  · exact hrun hstamps
  · intro _ k v hseen
    cases hseen
  · intro c ps p c' ps' hI _ hstep hnodup
    obtain ⟨rfl, rfl⟩ := Prod.mk.inj (Option.some.inj hstep)
    rw [List.map_append, List.nodup_append] at hnodup
    apply Pass.run_dated (hI hnodup.1)
    intro q hq
    exact hnodup.2.2 _ (List.mem_map_of_mem hq) _ (by simp)

theorem Pass.Runs.shown {c : Catalog} {ps : List Pass}
    (h : Pass.Runs (fun c p => p.Clears c) c ps) : c.ShownBut none := by
  refine h.invariant (I := fun c _ => c.ShownBut none) ?_ ?_
  · intro k s hget
    cases hget
  · intro c ps p c' ps' hI hok hstep
    obtain ⟨rfl, rfl⟩ := Prod.mk.inj (Option.some.inj hstep)
    exact Pass.run_shown hI hok

/-- In every run a row is live when the last pass that tells wrote it, and a full pass marks each
entry that has no live row. No entry that has one is marked, as long as no scan attaches a file to
a marked entry it does not write. -/
theorem missingSince_exact (c : Catalog) (ps : List Pass) :
    (Pass.Runs (fun _ _ => True) c ps →
      ((ps.map Pass.stamp).Nodup → ∀ k s, c.sources.get k = some s → (s.missingSince = none ↔
        (lastTelling ps k).any fun p => k.2 ∈ p.stamped)) ∧
      ∀ p : Pass, p.full → ∀ (id : String) (e : Entry),
        (p.run c).entries.get id = some e → e.missingSince = none →
          (p.run c).hasLiveSource id) ∧
    (Pass.Runs (fun c p => p.Clears c) c ps → ∀ p : Pass, p.full → p.Clears c →
      ∀ (id : String) (e : Entry), (p.run c).entries.get id = some e →
        (e.missingSince = none ↔ (p.run c).hasLiveSource id)) := by
  refine ⟨?_, ?_⟩
  · intro hruns
    refine ⟨?_, fun p hfull id e hget hmissing => Pass.run_full hfull hget hmissing⟩
    intro hstamps k s hget
    have hseen : c.seen k = some (s.lastSeen, s.missingSince) := by
      unfold Catalog.seen
      rw [hget]
      rfl
    exact (hruns.dated hstamps k _ hseen).2
  · intro hruns p hfull hclears id e hget
    refine ⟨Pass.run_full hfull hget, ?_⟩
    intro hlive
    rw [Catalog.hasLiveSource, Table.any_eq_true] at hlive
    obtain ⟨k, s, hs, hboth⟩ := hlive
    rw [Bool.and_eq_true, decide_eq_true_eq, Option.isNone_iff_eq_none] at hboth
    have hmarked := Pass.run_shown hruns.shown hclears k s hs hboth.2 (by simp)
    rw [hboth.1, Catalog.marked, hget] at hmarked
    exact hmarked

def heat : PlexItem where
  ratingKey := "7"
  playbackPath := "/media/movies/Heat.mkv"
  externalIds := [(.imdb, "tt0113277")]
  kind := "movie"
  title := "Heat"

def heatFile : ProbedFile := ("/media/movies/Heat.mkv", some (.ofNat 170))

/-- Plex has a film, and a scan finds its file. -/
def scannedWhileListed : List Pass :=
  [.items [heat] [] true "1", .files [heatFile] [] true "2"]

/-- Plex lists a film no more, and a scan finds its file all the same. -/
def scannedOnceUnlisted : List Pass :=
  [.items [heat] [] true "1", .items [] [] true "2"]

theorem missingSince_scannedWhileListed : ∃ c ps e, Pass.Runs (fun c p => p.Clears c) c ps ∧
    (Pass.run c (.items [] [] true "3")).entries.get "imdb:tt0113277" = some e ∧
      e.missingSince = none ∧
        ∃ s, c.sources.get (.localFs, "/media/movies/Heat.mkv") = some s ∧
          s.missingSince = none := by
  have hfollow : (Lib.follow Pass.step (fun c p => p.Clears c) ({}, []) scannedWhileListed).any
      (fun r => (r.2.map Pass.stamp).Nodup ∧
        ((Pass.run r.1 (.items [] [] true "3")).entries.get "imdb:tt0113277").isSome ∧
        (Pass.run r.1 (.items [] [] true "3")).hasLiveSource "imdb:tt0113277" ∧
        (r.1.sources.get (.localFs, "/media/movies/Heat.mkv")).isSome ∧
        (lastTelling r.2 (.localFs, "/media/movies/Heat.mkv")).any fun p =>
          "/media/movies/Heat.mkv" ∈ p.stamped) := by decide
  obtain ⟨r, hr, hsaid⟩ := (Option.any_eq_true _ _).mp hfollow
  obtain ⟨hstamps, hentry, hlive, hrow, htold⟩ := of_decide_eq_true hsaid
  have hruns : Pass.Runs (fun c p => p.Clears c) r.1 r.2 := Lib.Traced.init.follow hr
  obtain ⟨e, he⟩ := Option.isSome_iff_exists.mp hentry
  obtain ⟨s, hs⟩ := Option.isSome_iff_exists.mp hrow
  have hmissing := ((missingSince_exact r.1 r.2).2 hruns (.items [] [] true "3") rfl trivial
    _ e he).mpr hlive
  have hseen := (((missingSince_exact r.1 r.2).1 (hruns.mono fun _ _ _ => trivial)).1 hstamps
    (.localFs, "/media/movies/Heat.mkv") s hs).mpr htold
  exact ⟨r.1, r.2, e, hruns, he, hmissing, s, hs, hseen⟩

/-- The scan gives the film a live row and leaves it marked missing. -/
theorem marked_with_live_row : ∃ c ps, Pass.Runs (fun _ _ => True) c ps ∧
    ((ps ++ [Pass.files [heatFile] [] true "3"]).map Pass.stamp).Nodup ∧
    (Pass.run c (.files [heatFile] [] true "3")).marked "imdb:tt0113277" = some "2" ∧
      (Pass.run c (.files [heatFile] [] true "3")).hasLiveSource "imdb:tt0113277" := by
  have hfollow : (Lib.follow Pass.step (fun _ _ => True) ({}, []) scannedOnceUnlisted).any
      (fun r => ((r.2 ++ [Pass.files [heatFile] [] true "3"]).map Pass.stamp).Nodup ∧
        (Pass.run r.1 (.files [heatFile] [] true "3")).marked "imdb:tt0113277" = some "2" ∧
        (Pass.run r.1 (.files [heatFile] [] true "3")).hasLiveSource "imdb:tt0113277") := by
    decide
  obtain ⟨r, hr, hsaid⟩ := (Option.any_eq_true _ _).mp hfollow
  exact ⟨r.1, r.2, Lib.Traced.init.follow hr, of_decide_eq_true hsaid⟩

end EtvStation.Ingest
