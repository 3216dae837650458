import EtvStation.Ingest.Pinned

/-! Entries folded into others. While the media roots stay as they are and no two paths have one
hash, nothing finds such an entry again. -/
namespace EtvStation.Ingest

open Lib (Table)

theorem isFs_namespace (ns : ExternalNs) (value : String) :
    isFs (ns.asStr ++ ":" ++ value) = false := by
  cases ns <;> simp [isFs, ExternalNs.asStr] <;> rfl

/-- An id that is a hash is the hash of the path. -/
theorem deriveEntryId_of_isFs {ids : List (ExternalNs × String)} {path : String}
    (h : isFs (deriveEntryId ids path) = true) : deriveEntryId ids path = deriveEntryId [] path := by
  have hnil : deriveEntryId [] path = "fs:" ++ hex16 (fnv1a64 path) := by
    simp [deriveEntryId, ExternalNs.PRIORITY]
  rw [hnil]
  unfold deriveEntryId at h ⊢
  split at h
  · rw [isFs_namespace] at h
    cases h
  · rfl

theorem mem_allSources {c : Catalog} {s : EntrySource} :
    s ∈ c.allSources ↔ ∃ k, c.sources.get k = some s := by
  unfold Catalog.allSources
  rw [List.mem_map]
  constructor
  · rintro ⟨r, hr, rfl⟩
    rw [List.mem_insertionSort] at hr
    exact ⟨r.1, Table.mem_rows.mp hr⟩
  · rintro ⟨k, hget⟩
    refine ⟨(k, s), ?_, rfl⟩
    rw [List.mem_insertionSort]
    exact Table.mem_rows.mpr hget

/-- The index has the path of every row, under the entry of a row of that path. -/
theorem canonicalIndex_get (c : Catalog) (roots : List String) :
    (∀ q id, (canonicalIndex c roots).get q = some id → ∃ k s, c.sources.get k = some s ∧
        canonicalPath s.playbackPath roots = q ∧ s.entryId = id) ∧
      ∀ k s, c.sources.get k = some s →
        ((canonicalIndex c roots).get (canonicalPath s.playbackPath roots)).isSome := by
  have hfold : ∀ rows : List EntrySource, ∀ index : Table String String,
      let after := rows.foldl (fun index s =>
        let canonical := canonicalPath s.playbackPath roots
        if (index.get canonical).any fun existing => !isFs existing then index
        else index.upsert canonical fun _ => s.entryId) index
      (∀ q id, after.get q = some id → index.get q = some id ∨
          ∃ s ∈ rows, canonicalPath s.playbackPath roots = q ∧ s.entryId = id) ∧
        (∀ q, (index.get q).isSome → (after.get q).isSome) ∧
        ∀ s ∈ rows, (after.get (canonicalPath s.playbackPath roots)).isSome := by
    intro rows
    induction rows with
    | nil => exact fun index => ⟨fun _ _ h => .inl h, fun _ h => h, by simp⟩
    | cons s rows ih =>
      intro index
      dsimp only [List.foldl_cons]
      have hone : ∀ index' : Table String String,
          index' = (if (index.get (canonicalPath s.playbackPath roots)).any
              (fun existing => !isFs existing) then index
            else index.upsert (canonicalPath s.playbackPath roots) fun _ => s.entryId) →
          (∀ q id, index'.get q = some id → index.get q = some id ∨
              canonicalPath s.playbackPath roots = q ∧ s.entryId = id) ∧
            (∀ q, (index.get q).isSome → (index'.get q).isSome) ∧
            (index'.get (canonicalPath s.playbackPath roots)).isSome := by
        rintro index' rfl
        split_ifs with hstrong
        · refine ⟨fun _ _ h => .inl h, fun _ h => h, ?_⟩
          obtain ⟨existing, hget, -⟩ := (Option.any_eq_true _ _).mp hstrong
          rw [hget]
          rfl
        · refine ⟨?_, ?_, by simp⟩
          · intro q id hget
            rw [Table.get_upsert] at hget
            split_ifs at hget with hq
            · exact .inr ⟨hq.symm, Option.some.inj hget⟩
            · exact .inl hget
          · intro q hq
            rw [Table.get_upsert]
            split_ifs
            · rfl
            · exact hq
      obtain ⟨hvalue, hkeep, hhere⟩ := hone _ rfl
      obtain ⟨hvalues, hkeeps, hrows⟩ := ih _
      refine ⟨?_, fun q hq => hkeeps q (hkeep q hq), ?_⟩
      · intro q id hget
        rcases hvalues q id hget with hbefore | ⟨s', hs', hid⟩
        · rcases hvalue q id hbefore with h | h
          · exact .inl h
          · exact .inr ⟨s, List.mem_cons_self, h⟩
        · exact .inr ⟨s', List.mem_cons_of_mem _ hs', hid⟩
      · intro s' hs'
        rcases List.mem_cons.mp hs' with rfl | hs'
        · exact hkeeps _ hhere
        · exact hrows s' hs'
  obtain ⟨hvalues, -, hrows⟩ := hfold c.allSources .empty
  constructor
  · intro q id hget
    rcases hvalues q id hget with h | ⟨s, hs, hid⟩
    · rw [Table.get_empty] at h
      cases h
    · obtain ⟨k, hk⟩ := mem_allSources.mp hs
      exact ⟨k, s, hk, hid⟩
  · intro k s hget
    exact hrows s (mem_allSources.mpr ⟨k, hget⟩)

theorem canonicalIndex_owner (c : Catalog) (roots : List String) (q id : String)
    (h : (canonicalIndex c roots).get q = some id) : ∃ k, c.owner k = some id := by
  obtain ⟨k, s, hget, -, hid⟩ := (canonicalIndex_get c roots).1 q id h
  exact ⟨k, by rw [Catalog.owner, hget, ← hid]; rfl⟩

namespace Pass

/-- The entries the pass folds, each with the one it is folded into. -/
def folds (c : Catalog) : Pass → List (String × String)
  | items fetched roots _ stamp =>
    (fetched.foldl (fun (acc : PlexPass × List (String × String)) item =>
      (acc.1.item roots (some stamp) item,
        acc.2 ++ ((acc.1.stale roots item).map fun loser =>
          (loser, acc.1.entryOf roots item)).toList))
      (⟨c, canonicalIndex c roots, []⟩, [])).2
  | _ => []

/-- A filesystem or Plex pass under these roots, over files of these paths. -/
def Steady (roots : List String) (paths : String → Prop) : Pass → Prop
  | files scanned roots' _ _ =>
    roots' = roots ∧ ∀ file ∈ scanned, paths (canonicalPath file.1 roots)
  | items fetched roots' _ _ =>
    roots' = roots ∧ ∀ item ∈ fetched, paths (canonicalPath item.playbackPath roots)
  | extras .. => False

def stepFolds (c : Catalog) (p : Pass) : Option (Catalog × List (String × String)) :=
  some (p.run c, p.folds c)

end Pass

/-- Folded away: marked missing, with no row to be found by. -/
structure Catalog.Gone (c : Catalog) (id : String) : Prop where
  fs : isFs id = true
  exists_ : c.has id
  marked : c.marked id ≠ none
  unowned : ∀ k, c.owner k ≠ some id

/-- The catalog after these folds. An entry no Plex row has was minted for a file the scan still
has its row of. -/
structure Settled (roots : List String) (paths : String → Prop) (c : Catalog)
    (folds : List (String × String)) : Prop where
  minted : ∀ id, c.has id → hasPlexSource c id = true ∨
    ∃ q, paths q ∧ id = deriveEntryId [] q ∧ (c.owner (.localFs, q)).isSome
  localRow : ∀ q s, c.sources.get (.localFs, q) = some s → canonicalPath s.playbackPath roots = q
  guids : ∀ key id, c.externalIds.get key = some id → hasPlexSource c id = true
  owned : ∀ k id, c.owner k = some id → c.has id
  gone : ∀ f ∈ folds, c.Gone f.1

theorem Catalog.Gone.hasPlexSource {c : Catalog} {id : String} (h : c.Gone id) :
    Ingest.hasPlexSource c id = false := by
  rw [← Bool.not_eq_true]
  intro hplex
  obtain ⟨ratingKey, howner⟩ := Catalog.hasPlexSource_iff.mp hplex
  exact h.unowned _ howner

section
variable {roots : List String} {paths : String → Prop} {c : Catalog}
  {folds : List (String × String)}

/-- The row of the file a folded entry was minted for keeps its path in the index, so no new file
is taken for it. -/
theorem Settled.derive_ne_gone (h : Settled roots paths c folds)
    (hinj : ∀ q q', paths q → paths q' → deriveEntryId [] q = deriveEntryId [] q' → q = q')
    {index : Table String String}
    (hcovers : ∀ q, (c.owner (.localFs, q)).isSome → (index.get q).isSome) {q : String}
    (hq : paths q) (hnone : index.get q = none) (ids : List (ExternalNs × String))
    {f : String × String} (hf : f ∈ folds) : deriveEntryId ids q ≠ f.1 := by
  intro heq
  have hgone := h.gone f hf
  have hfs : isFs (deriveEntryId ids q) = true := heq ▸ hgone.fs
  rcases h.minted f.1 hgone.exists_ with hplex | ⟨q₀, hq₀, hderived, hrow⟩
  · rw [hgone.hasPlexSource] at hplex
    cases hplex
  · rw [deriveEntryId_of_isFs hfs, hderived] at heq
    have hsame := hinj q q₀ hq hq₀ heq
    have hcovered := hcovers q₀ hrow
    rw [← hsame, hnone] at hcovered
    cases hcovered

theorem Settled.covers (h : Settled roots paths c folds) (q : String)
    (hq : (c.owner (.localFs, q)).isSome) : ((canonicalIndex c roots).get q).isSome := by
  obtain ⟨s, hget⟩ := Option.isSome_iff_exists.mp (Option.isSome_map.symm.trans hq)
  have hcovered := (canonicalIndex_get c roots).2 _ s hget
  rwa [h.localRow q s hget] at hcovered

end

theorem resolveExisting_eq_some {c : Catalog} {item : PlexItem} {pathMatch : Option String}
    {id : String} (h : resolveExisting c item pathMatch = some id) :
    c.owner (.plex, item.ratingKey) = some id ∨ (∃ key, c.externalIds.get key = some id) ∨
      pathMatch = some id := by
  unfold resolveExisting at h
  split at h
  · rename_i hpinned
    exact .inl (hpinned.trans h)
  · split at h
    · rename_i hguid
      obtain ⟨e, -, hget⟩ := List.exists_of_findSome?_eq_some hguid
      exact .inr (.inl ⟨_, hget.trans h⟩)
    · exact .inr (.inr h)

theorem resolveExisting_eq_none {c : Catalog} {item : PlexItem} {pathMatch : Option String}
    (h : resolveExisting c item pathMatch = none) : pathMatch = none := by
  unfold resolveExisting at h
  split at h
  · cases h
  · split at h
    · cases h
    · exact h

theorem addSource_playbackPath (c : Catalog) (s : EntrySource) {k : Source × String}
    (hk : k ≠ (s.source, s.sourceId)) :
    (c.addSource s).sources.get k = c.sources.get k := by
  unfold Catalog.addSource
  rw [Table.get_upsert, if_neg hk]

/-- A Plex item changes no path of a filesystem row. -/
theorem PlexPass.item_localRow (roots : List String) (now : Option String) (p : PlexPass)
    (item : PlexItem) {q : String} {s : EntrySource}
    (h : (p.item roots now item).catalog.sources.get (.localFs, q) = some s) :
    ∃ s', p.catalog.sources.get (.localFs, q) = some s' ∧ s'.playbackPath = s.playbackPath := by
  rw [(item_eq roots now p item).1, (writeItem_tables _ roots now item _).1,
    addSource_playbackPath _ _ (by simp [itemSource])] at h
  split at h
  · unfold Catalog.mergeEntry at h
    split_ifs at h
    · exact ⟨s, h, rfl⟩
    · obtain ⟨s', hget, rfl⟩ := Option.map_eq_some_iff.mp ((Table.get_update _ _ _).symm.trans h)
      refine ⟨s', hget, ?_⟩
      split_ifs <;> rfl
  · exact ⟨s, h, rfl⟩

/-- A Plex pass under way, from the catalog `c₀`. -/
structure Going (roots : List String) (paths : String → Prop) (c₀ : Catalog)
    (folds new : List (String × String)) (p : PlexPass) : Prop where
  settled : Settled roots paths p.catalog (folds ++ new)
  indexOwned : ∀ q id, p.index.get q = some id → ∃ k, p.catalog.owner k = some id
  indexCovers : ∀ q, (p.catalog.owner (.localFs, q)).isSome → (p.index.get q).isSome
  moved : ∀ k id, c₀.owner k = some id → p.catalog.owner k = some id ∨
    ∃ survivor, (id, survivor) ∈ new ∧ p.catalog.owner k = some survivor
  once : (new.map Prod.fst).Nodup
  survivors : ∀ f ∈ new, hasPlexSource p.catalog f.2 = true

section
variable {roots : List String} {paths : String → Prop} {c₀ : Catalog}
  {folds new : List (String × String)} {p : PlexPass}

theorem Going.entryOf_ne_gone (h : Going roots paths c₀ folds new p)
    (hinj : ∀ q q', paths q → paths q' → deriveEntryId [] q = deriveEntryId [] q' → q = q')
    {item : PlexItem} (hitem : paths (canonicalPath item.playbackPath roots))
    {f : String × String} (hf : f ∈ folds ++ new) : p.entryOf roots item ≠ f.1 := by
  have hgone := h.settled.gone f hf
  unfold PlexPass.entryOf itemEntry
  cases hresolve : resolveExisting p.catalog item (p.pathMatch roots item) with
  | none =>
    have hnone := resolveExisting_eq_none hresolve
    exact h.settled.derive_ne_gone hinj h.indexCovers hitem hnone _ hf
  | some id =>
    dsimp only [Option.getD_some]
    rintro rfl
    rcases resolveExisting_eq_some hresolve with howner | ⟨key, hguid⟩ | hpath
    · exact hgone.unowned _ howner
    · have hplex := h.settled.guids key _ hguid
      rw [hgone.hasPlexSource] at hplex
      cases hplex
    · obtain ⟨k, howner⟩ := h.indexOwned _ _ hpath
      exact hgone.unowned k howner

theorem PlexPass.moved_of_ne_stale {item : PlexItem} {id : String}
    (h : p.stale roots item ≠ some id) : p.moved roots item id = id := by
  unfold moved
  rw [if_neg h]

theorem PlexPass.moved_stale {item : PlexItem} {id : String}
    (h : p.stale roots item = some id) : p.moved roots item id = p.entryOf roots item := by
  unfold moved
  rw [if_pos h]

/-- What the item's entry is not stays unowned if it was, or if it is what is folded. -/
theorem PlexPass.item_unowned {now : Option String} {item : PlexItem} {id : String}
    (hid : p.entryOf roots item ≠ id)
    (h : p.stale roots item = some id ∨ ∀ k, p.catalog.owner k ≠ some id) (k : Source × String) :
    (p.item roots now item).catalog.owner k ≠ some id := by
  rw [item_owner]
  split_ifs
  · exact fun heq => hid (Option.some.inj heq)
  · intro heq
    obtain ⟨old, hold, hmoved⟩ := Option.map_eq_some_iff.mp heq
    by_cases hstale : p.stale roots item = some old
    · rw [moved_stale hstale] at hmoved
      exact hid hmoved
    · rw [moved_of_ne_stale hstale] at hmoved
      rw [hmoved] at hold hstale
      rcases h with h | h
      · exact hstale h
      · exact h k hold

theorem PlexPass.hasPlexSource_entryOf (now : Option String) (item : PlexItem) :
    hasPlexSource (p.item roots now item).catalog (p.entryOf roots item) = true := by
  refine Catalog.hasPlexSource_iff.mpr ⟨item.ratingKey, ?_⟩
  rw [item_owner, if_pos rfl]

/-- What an item folds. -/
theorem PlexPass.mem_folded {item : PlexItem} {f : String × String} :
    f ∈ ((p.stale roots item).map fun loser => (loser, p.entryOf roots item)).toList ↔
      p.stale roots item = some f.1 ∧ f.2 = p.entryOf roots item := by
  rw [Option.mem_toList, Option.map_eq_some_iff]
  constructor
  · rintro ⟨loser, hstale, rfl⟩
    exact ⟨hstale, rfl⟩
  · rintro ⟨hstale, hsurvivor⟩
    exact ⟨f.1, hstale, by rw [← hsurvivor]⟩

/-- An item takes each row where its fold takes the entry of it. -/
theorem PlexPass.item_owner_of {now : Option String} {item : PlexItem} {k : Source × String}
    {id : String} (howner : p.catalog.owner k = some id) :
    (p.item roots now item).catalog.owner k = some (p.moved roots item id) := by
  rw [item_owner]
  split_ifs with hk
  · rw [hk] at howner
    have hplex := Catalog.hasPlexSource_iff.mpr ⟨_, howner⟩
    rw [entryOf_pinned roots howner, moved_of_hasPlexSource roots hplex]
  · rw [howner]
    rfl

theorem Going.stale_owned (h : Going roots paths c₀ folds new p) {item : PlexItem} {loser : String}
    (hstale : p.stale roots item = some loser) : ∃ k, p.catalog.owner k = some loser :=
  h.indexOwned _ _ (PlexPass.of_stale hstale).1

/-- The folded stay away, and what the item folds goes. -/
theorem Going.item_gone (h : Going roots paths c₀ folds new p)
    (hinj : ∀ q q', paths q → paths q' → deriveEntryId [] q = deriveEntryId [] q' → q = q')
    (now : Option String) {item : PlexItem}
    (hitem : paths (canonicalPath item.playbackPath roots)) {f : String × String}
    (hf : f ∈ folds ++ new ∨ p.stale roots item = some f.1) :
    (p.item roots now item).catalog.Gone f.1 := by
  have hkept := PlexPass.item_kept roots now p item
  rcases hf with hf | hstale
  · have hne := h.entryOf_ne_gone hinj hitem hf
    have hgone := h.settled.gone f hf
    constructor
    · exact hgone.fs
    · exact hkept.entries _ hgone.exists_
    · exact PlexPass.item_marked roots now p item hne.symm (.inl hgone.marked)
    · exact PlexPass.item_unowned hne (.inr hgone.unowned)
  · obtain ⟨-, hother, hfs, -⟩ := PlexPass.of_stale hstale
    obtain ⟨k, howner⟩ := h.stale_owned hstale
    have hhas := h.settled.owned k _ howner
    constructor
    · exact hfs
    · exact hkept.entries _ hhas
    · exact PlexPass.item_marked roots now p item hother (.inr ⟨hstale, hhas⟩)
    · exact PlexPass.item_unowned hother.symm (.inl hstale)

theorem Going.item_settled (h : Going roots paths c₀ folds new p)
    (hinj : ∀ q q', paths q → paths q' → deriveEntryId [] q = deriveEntryId [] q' → q = q')
    (now : Option String) {item : PlexItem}
    (hitem : paths (canonicalPath item.playbackPath roots)) :
    Settled roots paths (p.item roots now item).catalog
      (folds ++ (new ++
        ((p.stale roots item).map fun loser => (loser, p.entryOf roots item)).toList)) := by
  have hkept := PlexPass.item_kept roots now p item
  constructor
  · intro id hid
    rw [PlexPass.item_has, Bool.or_eq_true, decide_eq_true_eq] at hid
    rcases hid with rfl | hid
    · exact .inl (PlexPass.hasPlexSource_entryOf now item)
    · rcases h.settled.minted id hid with hplex | ⟨q, hq, hderived, hrow⟩
      · exact .inl (hkept.hasPlexSource hplex)
      · exact .inr ⟨q, hq, hderived, hkept.rows _ hrow⟩
  · intro q s hget
    obtain ⟨s', hget', hpath⟩ := PlexPass.item_localRow roots now p item hget
    rw [← hpath]
    exact h.settled.localRow q s' hget'
  · intro key id hget
    rcases PlexPass.item_externalIds roots now p item key with heq | heq
    · rw [heq, Option.map_eq_some_iff] at hget
      obtain ⟨old, hold, rfl⟩ := hget
      have hplex := h.settled.guids key old hold
      rw [PlexPass.moved_of_hasPlexSource roots hplex]
      exact hkept.hasPlexSource hplex
    · rw [heq] at hget
      rw [← Option.some.inj hget]
      exact PlexPass.hasPlexSource_entryOf now item
  · intro k id howner
    rw [PlexPass.item_has, Bool.or_eq_true, decide_eq_true_eq]
    rw [PlexPass.item_owner] at howner
    split_ifs at howner with hk
    · exact .inl (Option.some.inj howner).symm
    · obtain ⟨old, hold, hmoved⟩ := Option.map_eq_some_iff.mp howner
      by_cases hstale : p.stale roots item = some old
      · rw [PlexPass.moved_stale hstale] at hmoved
        exact .inl hmoved.symm
      · rw [PlexPass.moved_of_ne_stale hstale] at hmoved
        exact .inr (hmoved ▸ h.settled.owned k old hold)
  · intro f hf
    rw [← List.append_assoc, List.mem_append] at hf
    exact h.item_gone hinj now hitem (hf.imp_right fun hf => (PlexPass.mem_folded.mp hf).1)

theorem Going.item_indexOwned (h : Going roots paths c₀ folds new p) (now : Option String)
    {item : PlexItem} {q id : String} (hget : (p.item roots now item).index.get q = some id) :
    ∃ k, (p.item roots now item).catalog.owner k = some id := by
  rw [(PlexPass.item_eq roots now p item).2, Option.map_eq_some_iff] at hget
  obtain ⟨old, hold, rfl⟩ := hget
  obtain ⟨k, howner⟩ := h.indexOwned q old hold
  exact ⟨k, PlexPass.item_owner_of howner⟩

theorem Going.item_moved (h : Going roots paths c₀ folds new p) (now : Option String)
    {item : PlexItem} {k : Source × String} {id : String} (howner : c₀.owner k = some id) :
    (p.item roots now item).catalog.owner k = some id ∨
      ∃ survivor, (id, survivor) ∈ new ++
          ((p.stale roots item).map fun loser => (loser, p.entryOf roots item)).toList ∧
        (p.item roots now item).catalog.owner k = some survivor := by
  rcases h.moved k id howner with hhere | ⟨survivor, hf, hthere⟩
  · by_cases hstale : p.stale roots item = some id
    · refine .inr ⟨p.entryOf roots item, ?_, ?_⟩
      · rw [List.mem_append]
        exact .inr (PlexPass.mem_folded.mpr ⟨hstale, rfl⟩)
      · rw [PlexPass.item_owner_of hhere, PlexPass.moved_stale hstale]
    · rw [PlexPass.item_owner_of hhere, PlexPass.moved_of_ne_stale hstale]
      exact .inl rfl
  · refine .inr ⟨survivor, List.mem_append_left _ hf, ?_⟩
    rw [PlexPass.item_owner_of hthere, PlexPass.moved_of_hasPlexSource roots (h.survivors _ hf)]

/-- What the item folds still has rows, so it was not folded before. -/
theorem Going.item_once (h : Going roots paths c₀ folds new p) (item : PlexItem) :
    ((new ++ ((p.stale roots item).map fun loser =>
      (loser, p.entryOf roots item)).toList).map Prod.fst).Nodup := by
  rw [List.map_append, List.nodup_append]
  refine ⟨h.once, ?_, ?_⟩
  · cases p.stale roots item <;> simp
  · intro a ha b hb hab
    obtain ⟨f, hf, rfl⟩ := List.mem_map.mp ha
    obtain ⟨f', hf', rfl⟩ := List.mem_map.mp hb
    obtain ⟨k, howner⟩ := h.stale_owned (PlexPass.mem_folded.mp hf').1
    rw [← hab] at howner
    exact (h.settled.gone f (List.mem_append_right _ hf)).unowned k howner

theorem Going.item (h : Going roots paths c₀ folds new p)
    (hinj : ∀ q q', paths q → paths q' → deriveEntryId [] q = deriveEntryId [] q' → q = q')
    (now : Option String) {item : PlexItem}
    (hitem : paths (canonicalPath item.playbackPath roots)) :
    Going roots paths c₀ folds
      (new ++ ((p.stale roots item).map fun loser => (loser, p.entryOf roots item)).toList)
      (p.item roots now item) := by
  constructor
  · exact h.item_settled hinj now hitem
  · exact fun q id hget => h.item_indexOwned now hget
  · intro q hq
    rw [PlexPass.item_owner, if_neg (by simp), Option.isSome_map] at hq
    rw [(PlexPass.item_eq roots now p item).2, Option.isSome_map]
    exact h.indexCovers q hq
  · exact fun k id howner => h.item_moved now howner
  · exact h.item_once item
  · intro f hf
    rcases List.mem_append.mp hf with hf | hf
    · exact (PlexPass.item_kept roots now p item).hasPlexSource (h.survivors f hf)
    · rw [(PlexPass.mem_folded.mp hf).2]
      exact PlexPass.hasPlexSource_entryOf now item

end

theorem ingestFile_owner (index : Table String String) (roots : List String)
    (now : Option String) (c : Catalog) (file : ProbedFile) (k : Source × String) :
    (ingestFile index roots now c file).owner k =
      if k = (.localFs, canonicalPath file.1 roots) then some (fileEntry index roots file).1
      else c.owner k := by
  unfold ingestFile
  rw [addSource_owner]
  congr 1
  split_ifs <;> rfl

/-- A scan's files leave the rows of other sources as they are, and give each file's own row to the
entry the index has for it. -/
theorem foldl_ingestFile_rows (roots : List String) (index : Table String String)
    (now : Option String) (files : List ProbedFile) (c : Catalog) :
    (∀ key, key.1 ≠ .localFs →
      (files.foldl (ingestFile index roots now) c).sources.get key = c.sources.get key) ∧
    ∀ q, q ∈ files.map (fun file => canonicalPath file.1 roots) →
      (files.foldl (ingestFile index roots now) c).owner (.localFs, q) =
        some ((index.get q).getD (deriveEntryId [] q)) := by
  induction files using List.reverseRecOn with
  | nil => exact ⟨fun _ _ => rfl, fun q hq => absurd hq List.not_mem_nil⟩
  | append_singleton files file ih =>
    rw [List.foldl_append, List.foldl_cons, List.foldl_nil]
    constructor
    · intro key hkey
      rw [← ih.1 key hkey]
      unfold ingestFile
      dsimp only
      rw [addSource_playbackPath _ _ fun heq => hkey (by rw [heq])]
      split_ifs <;> rfl
    · intro q hq
      rw [ingestFile_owner]
      split_ifs with hhere
      · have hq' : q = canonicalPath file.1 roots := (Prod.mk.inj hhere).2
        unfold fileEntry
        rw [← hq']
        dsimp only
        cases index.get q <;> rfl
      · apply ih.2
        rw [List.map_append, List.mem_append] at hq
        refine hq.resolve_right fun hlast => hhere ?_
        rw [List.mem_singleton.mp hlast]

theorem ingestFile_has (index : Table String String) (roots : List String)
    (now : Option String) (c : Catalog) (file : ProbedFile) (id : String) :
    (ingestFile index roots now c file).has id =
      (id = (fileEntry index roots file).1 && isFs id || c.has id) := by
  unfold ingestFile
  dsimp only
  generalize (fileEntry index roots file).1 = entryId
  by_cases hfs : isFs entryId = true
  · rw [if_pos hfs]
    refine (upsertEntry_has c _ id).trans ?_
    have hid : (fsEntry c entryId file).entryId = entryId := rfl
    rw [hid]
    by_cases h : id = entryId
    · simp [h, hfs]
    · simp [h]
  · rw [if_neg hfs]
    by_cases h : id = entryId
    · rw [h]
      simp only [hfs, Bool.and_false, Bool.false_or]
      rfl
    · simp only [h, decide_false, Bool.false_and, Bool.false_or]
      rfl

theorem ingestFile_marked (index : Table String String) (roots : List String)
    (now : Option String) (c : Catalog) (file : ProbedFile) {id : String}
    (h : (fileEntry index roots file).1 ≠ id) :
    (ingestFile index roots now c file).marked id = c.marked id := by
  unfold ingestFile
  dsimp only
  generalize (fileEntry index roots file).1 = entryId at h
  split_ifs
  · exact (upsertEntry_marked c _ id).trans (if_neg h.symm)
  · rfl

theorem ingestFile_externalIds (index : Table String String) (roots : List String)
    (now : Option String) (c : Catalog) (file : ProbedFile) :
    (ingestFile index roots now c file).externalIds = c.externalIds := by
  unfold ingestFile
  dsimp only
  split_ifs <;> rfl

theorem ingestFile_localRow (index : Table String String) (roots : List String)
    (now : Option String) (c : Catalog) (file : ProbedFile) (k : Source × String)
    {s : EntrySource} (h : (ingestFile index roots now c file).sources.get k = some s) :
    c.sources.get k = some s ∨
      k = (.localFs, canonicalPath file.1 roots) ∧ s.playbackPath = file.1 := by
  unfold ingestFile at h
  dsimp only at h
  by_cases hk : k = (.localFs, canonicalPath file.1 roots)
  · unfold Catalog.addSource at h
    rw [Table.get_upsert, if_pos hk] at h
    refine .inr ⟨hk, ?_⟩
    rw [← Option.some.inj h]
  · rw [addSource_playbackPath _ _ hk] at h
    split_ifs at h <;> exact .inl h

section
variable {roots : List String} {paths : String → Prop} {c c' : Catalog}
  {folds : List (String × String)}

theorem Settled.fileEntry (h : Settled roots paths c folds)
    (hinj : ∀ q q', paths q → paths q' → deriveEntryId [] q = deriveEntryId [] q' → q = q')
    {file : ProbedFile} (hfile : paths (canonicalPath file.1 roots)) :
    (∀ f ∈ folds, (fileEntry (canonicalIndex c roots) roots file).1 ≠ f.1) ∧
      (c.has (fileEntry (canonicalIndex c roots) roots file).1 = true ∨
        (fileEntry (canonicalIndex c roots) roots file).1 =
          deriveEntryId [] (canonicalPath file.1 roots)) := by
  unfold Ingest.fileEntry
  dsimp only
  cases hget : (canonicalIndex c roots).get (canonicalPath file.1 roots) with
  | none =>
    refine ⟨fun f hf => ?_, .inr rfl⟩
    exact h.derive_ne_gone hinj h.covers hfile hget [] hf
  | some id =>
    obtain ⟨k, howner⟩ := canonicalIndex_owner c roots _ id hget
    constructor
    · rintro f hf rfl
      exact (h.gone f hf).unowned k howner
    · exact .inl (h.owned k id howner)

theorem Settled.ingestFile (h : Settled roots paths c folds) (h' : Settled roots paths c' folds)
    (hkept : Kept c c')
    (hinj : ∀ q q', paths q → paths q' → deriveEntryId [] q = deriveEntryId [] q' → q = q')
    (now : Option String) {file : ProbedFile} (hfile : paths (canonicalPath file.1 roots)) :
    Settled roots paths (ingestFile (canonicalIndex c roots) roots now c' file) folds := by
  obtain ⟨halive, hknown⟩ := h.fileEntry hinj hfile
  have hstep := ingestFile_kept (canonicalIndex c roots) roots now c' file
  have hrow : ((Ingest.ingestFile (canonicalIndex c roots) roots now c' file).owner
      (.localFs, canonicalPath file.1 roots)).isSome := by
    rw [ingestFile_owner, if_pos rfl]
    rfl
  have hminted : ∀ id, c'.has id → hasPlexSource
      (Ingest.ingestFile (canonicalIndex c roots) roots now c' file) id = true ∨
        ∃ q, paths q ∧ id = deriveEntryId [] q ∧
          ((Ingest.ingestFile (canonicalIndex c roots) roots now c' file).owner
            (.localFs, q)).isSome := by
    intro id hid
    rcases h'.minted id hid with hplex | ⟨q, hq, hderived, hrow'⟩
    · exact .inl (hstep.hasPlexSource hplex)
    · exact .inr ⟨q, hq, hderived, hstep.rows _ hrow'⟩
  constructor
  · intro id hid
    rw [ingestFile_has, Bool.or_eq_true, Bool.and_eq_true, decide_eq_true_eq] at hid
    rcases hid with ⟨rfl, -⟩ | hid
    · rcases hknown with hhas | hderived
      · exact hminted _ (hkept.entries _ hhas)
      · exact .inr ⟨_, hfile, hderived, hrow⟩
    · exact hminted id hid
  · intro q s hget
    rcases ingestFile_localRow _ _ _ _ _ _ hget with hget | ⟨hk, hpath⟩
    · exact h'.localRow q s hget
    · rw [hpath, (Prod.mk.inj hk).2]
  · intro key id hget
    rw [ingestFile_externalIds] at hget
    exact hstep.hasPlexSource (h'.guids key id hget)
  · intro k id howner
    rw [ingestFile_owner] at howner
    rw [ingestFile_has, Bool.or_eq_true, Bool.and_eq_true, decide_eq_true_eq]
    split_ifs at howner with hk
    · obtain rfl := Option.some.inj howner
      rcases hknown with hhas | hderived
      · exact .inr (hkept.entries _ hhas)
      · refine .inl ⟨rfl, ?_⟩
        rw [hderived]
        exact isFs_deriveEntryId _
    · exact .inr (h'.owned k id howner)
  · intro f hf
    have hgone := h'.gone f hf
    constructor
    · exact hgone.fs
    · exact hstep.entries _ hgone.exists_
    · rw [ingestFile_marked _ _ _ _ _ (halive f hf)]
      exact hgone.marked
    · intro k
      rw [ingestFile_owner]
      split_ifs
      · exact fun heq => halive f hf (Option.some.inj heq)
      · exact hgone.unowned k

theorem Settled.files (h : Settled roots paths c folds)
    (hinj : ∀ q q', paths q → paths q' → deriveEntryId [] q = deriveEntryId [] q' → q = q')
    (now : Option String) {scanned : List ProbedFile}
    (hscanned : ∀ file ∈ scanned, paths (canonicalPath file.1 roots)) :
    Settled roots paths
      (scanned.foldl (Ingest.ingestFile (canonicalIndex c roots) roots now) c) folds := by
  have hboth : ∀ (rest : List ProbedFile) (c' : Catalog),
      (∀ file ∈ rest, paths (canonicalPath file.1 roots)) → Kept c c' →
      Settled roots paths c' folds →
        Settled roots paths
          (rest.foldl (Ingest.ingestFile (canonicalIndex c roots) roots now) c') folds := by
    intro rest
    induction rest with
    | nil => exact fun _ _ _ h' => h'
    | cons file rest ih =>
      intro c' hrest hkept h'
      apply ih
      · exact fun file' hfile' => hrest file' (List.mem_cons_of_mem _ hfile')
      · exact hkept.trans (ingestFile_kept _ _ _ _ _)
      · exact h.ingestFile h' hkept hinj now (hrest file List.mem_cons_self)
  exact hboth scanned c hscanned (Kept.refl c) h

/-- What reconciling and sweeping leave, they leave settled. -/
theorem Settled.congr (h : Settled roots paths c folds) (hsources : ∀ k, c'.owner k = c.owner k)
    (hrows : ∀ q s, c'.sources.get (.localFs, q) = some s →
      ∃ s', c.sources.get (.localFs, q) = some s' ∧ s'.playbackPath = s.playbackPath)
    (hhas : ∀ id, c'.has id = c.has id) (hguids : c'.externalIds = c.externalIds)
    (hmarked : ∀ id, c.marked id ≠ none → c'.marked id ≠ none) :
    Settled roots paths c' folds := by
  have hplex : ∀ id, hasPlexSource c' id = true ↔ hasPlexSource c id = true := by
    intro id
    rw [Catalog.hasPlexSource_iff, Catalog.hasPlexSource_iff]
    simp only [hsources]
  constructor
  · intro id hid
    rw [hhas] at hid
    rcases h.minted id hid with hp | ⟨q, hq, hderived, hrow⟩
    · exact .inl ((hplex id).mpr hp)
    · exact .inr ⟨q, hq, hderived, by rwa [hsources]⟩
  · intro q s hget
    obtain ⟨s', hget', hpath⟩ := hrows q s hget
    rw [← hpath]
    exact h.localRow q s' hget'
  · intro key id hget
    rw [hguids] at hget
    exact (hplex id).mpr (h.guids key id hget)
  · intro k id howner
    rw [hsources] at howner
    rw [hhas]
    exact h.owned k id howner
  · intro f hf
    have hgone := h.gone f hf
    constructor
    · exact hgone.fs
    · rw [hhas]
      exact hgone.exists_
    · exact hmarked _ hgone.marked
    · intro k
      rw [hsources]
      exact hgone.unowned k

theorem sweep_rows (c : Catalog) (source : Source) (full : Bool) (now : Option String)
    (k : Source × String) {s : EntrySource}
    (h : (sweep c source full now).sources.get k = some s) :
    ∃ s', c.sources.get k = some s' ∧ s'.playbackPath = s.playbackPath := by
  unfold sweep at h
  split at h
  · unfold Catalog.markEntriesMissingWithoutLiveSources at h
    dsimp only at h
    unfold Catalog.markUnseenSourcesMissing at h
    rw [Table.get_update, Option.map_eq_some_iff] at h
    obtain ⟨s', hget, rfl⟩ := h
    refine ⟨s', hget, ?_⟩
    split_ifs <;> rfl
  · exact ⟨s, h, rfl⟩

theorem Settled.sweep (h : Settled roots paths c folds) (source : Source) (full : Bool)
    (now : Option String) : Settled roots paths (Ingest.sweep c source full now) folds := by
  apply h.congr
  · exact sweep_owner c source full now
  · exact fun q s hget => sweep_rows c source full now _ hget
  · exact sweep_has c source full now
  · exact sweep_externalIds c source full now
  · exact fun id hid => sweep_marked hid source full now

theorem Settled.reconcile (h : Settled roots paths c folds) (showIds : List String) :
    Settled roots paths (c.reconcileAbsoluteEpisodes showIds) folds := by
  obtain ⟨hsources, hmarked⟩ := reconcile_marked c showIds
  apply h.congr
  · intro k
    unfold Catalog.owner
    rw [hsources]
  · intro q s hget
    rw [hsources] at hget
    exact ⟨s, hget, rfl⟩
  · exact fun id => (reconcile_has c showIds id).1
  · exact (reconcile_has c showIds "").2
  · intro id hid
    rwa [hmarked]

theorem Settled.going (h : Settled roots paths c folds) :
    Going roots paths c folds [] ⟨c, canonicalIndex c roots, []⟩ := by
  constructor
  · rwa [List.append_nil]
  · exact canonicalIndex_owner c roots
  · exact h.covers
  · exact fun k id howner => .inl howner
  · exact List.nodup_nil
  · simp

/-- A whole Plex pass, with the folds it makes. -/
theorem Settled.items (h : Settled roots paths c folds)
    (hinj : ∀ q q', paths q → paths q' → deriveEntryId [] q = deriveEntryId [] q' → q = q')
    {fetched : List PlexItem} (full : Bool) (stamp : String)
    (hfetched : ∀ item ∈ fetched, paths (canonicalPath item.playbackPath roots)) :
    ∃ p, Going roots paths c folds ((Pass.items fetched roots full stamp).folds c) p ∧
      p = fetched.foldl (PlexPass.item roots (some stamp)) ⟨c, canonicalIndex c roots, []⟩ := by
  have hrun : ∀ (rest : List PlexItem) (acc : PlexPass × List (String × String)),
      (∀ item ∈ rest, paths (canonicalPath item.playbackPath roots)) →
      Going roots paths c folds acc.2 acc.1 →
      let after := rest.foldl (fun (acc : PlexPass × List (String × String)) item =>
        (acc.1.item roots (some stamp) item,
          acc.2 ++ ((acc.1.stale roots item).map fun loser =>
            (loser, acc.1.entryOf roots item)).toList)) acc
      Going roots paths c folds after.2 after.1 ∧
        after.1 = rest.foldl (PlexPass.item roots (some stamp)) acc.1 := by
    intro rest
    induction rest with
    | nil => exact fun acc _ hgoing => ⟨hgoing, rfl⟩
    | cons item rest ih =>
      intro acc hrest hgoing
      apply ih
      · exact fun item' hitem' => hrest item' (List.mem_cons_of_mem _ hitem')
      · exact hgoing.item hinj (some stamp) (hrest item List.mem_cons_self)
  have hall := hrun fetched (⟨c, canonicalIndex c roots, []⟩, []) hfetched h.going
  exact ⟨_, hall.1, hall.2⟩

theorem Settled.run (h : Settled roots paths c folds)
    (hinj : ∀ q q', paths q → paths q' → deriveEntryId [] q = deriveEntryId [] q' → q = q')
    {p : Pass} (hp : p.Steady roots paths) :
    Settled roots paths (p.run c) (folds ++ p.folds c) := by
  cases p with
  | files scanned roots' full stamp =>
    obtain ⟨rfl, hscanned⟩ := hp
    have hfiles := (h.files hinj (some stamp) hscanned).sweep .localFs full (some stamp)
    have hnone : (Pass.files scanned roots' full stamp).folds c = [] := rfl
    rw [hnone, List.append_nil]
    exact hfiles
  | items fetched roots' full stamp =>
    obtain ⟨rfl, hfetched⟩ := hp
    obtain ⟨pass, hgoing, rfl⟩ := h.items hinj full stamp hfetched
    exact (hgoing.settled.reconcile _).sweep .plex full (some stamp)
  | extras => exact hp.elim

end

/-- A filesystem scan finds the row's file. -/
def Pass.Rescans (p : Pass) (k : Source × String) : Prop :=
  k.1 = .localFs ∧ p.source = .localFs ∧ k.2 ∈ p.stamped

/-- A row of an entry that has a Plex row stays with it until a scan finds its file. -/
theorem Pass.run_stays {roots : List String} {paths : String → Prop} {c : Catalog}
    {k : Source × String} {id : String} (howner : c.owner k = some id)
    (hplex : hasPlexSource c id = true) {p : Pass} (hp : p.Steady roots paths)
    (hk : ¬ p.Rescans k) : (p.run c).owner k = some id := by
  cases p with
  | files scanned roots' full stamp =>
    refine (sweep_owner _ _ _ _ _).trans ?_
    have hrows : ∀ file ∈ scanned, k ≠ (.localFs, canonicalPath file.1 roots') := by
      rintro file hfile rfl
      exact hk ⟨rfl, rfl, List.mem_map_of_mem hfile⟩
    generalize canonicalIndex c roots' = index
    clear hplex hk hp
    induction scanned generalizing c with
    | nil => exact howner
    | cons file scanned ih =>
      apply ih
      · rw [ingestFile_owner, if_neg (hrows file List.mem_cons_self)]
        exact howner
      · exact fun file' hfile' => hrows file' (List.mem_cons_of_mem _ hfile')
  | items fetched roots' full stamp =>
    refine (sweep_owner _ _ _ _ _).trans ?_
    have hstays : ∀ (rest : List PlexItem) (q : PlexPass), q.catalog.owner k = some id →
        hasPlexSource q.catalog id = true →
          (rest.foldl (PlexPass.item roots' (some stamp)) q).catalog.owner k = some id := by
      intro rest
      induction rest with
      | nil => exact fun _ h _ => h
      | cons item rest ih =>
        intro q hq hplex'
        apply ih
        · rw [PlexPass.item_owner]
          split_ifs with hrow
          · rw [hrow] at hq
            rw [PlexPass.entryOf_pinned roots' hq]
          · rw [hq, Option.map_some, PlexPass.moved_of_hasPlexSource roots' hplex']
        · exact (PlexPass.item_kept roots' (some stamp) q item).hasPlexSource hplex'
    unfold ingestItems Catalog.owner
    rw [(reconcile_marked _ _).1]
    exact hstays fetched ⟨c, canonicalIndex c roots', []⟩ howner hplex
  | extras => exact hp.elim

/-- A scan that finds a row's file gives the row to the entry the index names for the path. -/
theorem Settled.run_rescanned {roots : List String} {paths : String → Prop} {c : Catalog}
    {folds : List (String × String)} (h : Settled roots paths c folds) {p : Pass}
    (hp : p.Steady roots paths) {k : Source × String} (hk : p.Rescans k)
    (howner : (c.owner k).isSome) :
    (p.run c).owner k = (canonicalIndex c roots).get k.2 := by
  obtain ⟨source, q⟩ := k
  obtain ⟨rfl, hsource, hscanned⟩ := hk
  cases p with
  | files scanned roots' full stamp =>
    obtain ⟨rfl, -⟩ := hp
    obtain ⟨id, hid⟩ := Option.isSome_iff_exists.mp (h.covers q howner)
    refine (sweep_owner _ _ _ _ _).trans ?_
    rw [(foldl_ingestFile_rows roots' _ (some stamp) scanned c).2 q hscanned, hid]
    rfl
  | items => cases hsource
  | extras => exact hp.elim

/-- The index names the entry that every row of a path belongs to. -/
theorem Settled.canonicalIndex_eq {roots : List String} {paths : String → Prop} {c : Catalog}
    {folds : List (String × String)} (h : Settled roots paths c folds) {q id : String}
    (howner : (c.owner (.localFs, q)).isSome)
    (hrows : ∀ k s, c.sources.get k = some s → canonicalPath s.playbackPath roots = q →
      s.entryId = id) : (canonicalIndex c roots).get q = some id := by
  obtain ⟨id', hget⟩ := Option.isSome_iff_exists.mp (h.covers q howner)
  obtain ⟨k, s, hrow, hpath, hid⟩ := (canonicalIndex_get c roots).1 q id' hget
  rw [hget, ← hid, hrows k s hrow hpath]

abbrev Pass.Folding (roots : List String) (paths : String → Prop) :
    Catalog → List (String × String) → Prop :=
  Lib.Traced Pass.stepFolds (fun _ p => p.Steady roots paths) {}

theorem Pass.folds_going {roots : List String} {paths : String → Prop} {c : Catalog}
    {folds : List (String × String)} (h : Settled roots paths c folds)
    (hinj : ∀ q q', paths q → paths q' → deriveEntryId [] q = deriveEntryId [] q' → q = q')
    {p : Pass} (hp : p.Steady roots paths) :
    ∀ f ∈ p.folds c, hasPlexSource (p.run c) f.2 = true ∧
      ∀ k, c.owner k = some f.1 → (p.run c).owner k = some f.2 := by
  cases p with
  | files scanned roots' full stamp => exact fun f hf => absurd hf List.not_mem_nil
  | extras listed full stamp => exact hp.elim
  | items fetched roots' full stamp =>
    obtain ⟨rfl, hfetched⟩ := hp
    obtain ⟨pass, hgoing, hpass⟩ := h.items hinj full stamp hfetched
    have howner : ∀ k, ((Pass.items fetched roots' full stamp).run c).owner k =
        pass.catalog.owner k := by
      intro k
      refine (sweep_owner _ _ _ _ _).trans ?_
      unfold ingestItems Catalog.owner
      rw [(reconcile_marked _ _).1, hpass]
    intro f hf
    constructor
    · obtain ⟨ratingKey, hrow⟩ := Catalog.hasPlexSource_iff.mp (hgoing.survivors f hf)
      exact Catalog.hasPlexSource_iff.mpr ⟨ratingKey, (howner _).trans hrow⟩
    · intro k hk
      rw [howner]
      rcases hgoing.moved k f.1 hk with hsame | ⟨survivor, hf', hmoved⟩
      · exact absurd hsame ((hgoing.settled.gone f (List.mem_append_right _ hf)).unowned k)
      · have hone := List.inj_on_of_nodup_map hgoing.once hf hf' rfl
        rw [hmoved, hone]

theorem Settled.init (roots : List String) (paths : String → Prop) :
    Settled roots paths {} [] := by
  constructor
  · intro id hid
    cases hid
  · intro q s hget
    cases hget
  · intro key id hget
    cases hget
  · intro k id howner
    cases howner
  · simp

theorem Pass.Folding.settled {roots : List String} {paths : String → Prop}
    (hinj : ∀ q q', paths q → paths q' → deriveEntryId [] q = deriveEntryId [] q' → q = q')
    {c : Catalog} {folds : List (String × String)} (h : Pass.Folding roots paths c folds) :
    Settled roots paths c folds ∧ ∀ f ∈ folds, hasPlexSource c f.2 = true := by
  refine h.invariant (I := fun c folds => Settled roots paths c folds ∧
    ∀ f ∈ folds, hasPlexSource c f.2 = true) ⟨Settled.init roots paths, by simp⟩ ?_
  rintro c folds p c' folds' ⟨hsettled, hsurvivors⟩ hp hstep
  obtain ⟨rfl, rfl⟩ := Prod.mk.inj (Option.some.inj hstep)
  refine ⟨hsettled.run hinj hp, ?_⟩
  intro f hf
  rcases List.mem_append.mp hf with hf | hf
  · exact (Pass.run_kept c p).hasPlexSource (hsurvivors f hf)
  · exact (Pass.folds_going hsettled hinj hp f hf).1

/-- No pass moves a ratingKey or loses anything. While the roots stay and no two paths have one
hash, an entry once folded stays marked and unowned; a fold hands all it has to the survivor, where
each row stays, a rescan of its file apart: that files it under the entry the index names for the
path, which is the survivor as long as every row of the path is the survivor's. -/
theorem entryId_pinned :
    (∀ (c : Catalog) (p : Pass), Kept c (p.run c)) ∧
    ∀ (roots : List String) (paths : String → Prop),
      (∀ q q', paths q → paths q' → deriveEntryId [] q = deriveEntryId [] q' → q = q') →
      ∀ c folds, Pass.Folding roots paths c folds →
        (∀ f ∈ folds, c.marked f.1 ≠ none ∧ (∀ k, c.owner k ≠ some f.1) ∧
          ∀ key, c.externalIds.get key ≠ some f.1) ∧
        ∀ p : Pass, p.Steady roots paths →
          (∀ f ∈ p.folds c, (∀ k, c.owner k = some f.1 → (p.run c).owner k = some f.2) ∧
            ∀ key, c.externalIds.get key = some f.1 →
              (p.run c).externalIds.get key = some f.2) ∧
          ∀ f ∈ folds, ∀ k, c.owner k = some f.2 →
            (p.Rescans k → (p.run c).owner k = (canonicalIndex c roots).get k.2) ∧
            ((p.Rescans k → ∀ k' s, c.sources.get k' = some s →
              canonicalPath s.playbackPath roots = k.2 → s.entryId = f.2) →
                (p.run c).owner k = some f.2) := by
  refine ⟨Pass.run_kept, ?_⟩
  intro roots paths hinj c folds hruns
  obtain ⟨hsettled, hsurvivors⟩ := hruns.settled hinj
  refine ⟨?_, ?_⟩
  · intro f hf
    have hgone := hsettled.gone f hf
    refine ⟨hgone.marked, hgone.unowned, ?_⟩
    intro key hguid
    have hplex := hsettled.guids key _ hguid
    rw [hgone.hasPlexSource] at hplex
    cases hplex
  · intro p hp
    refine ⟨?_, ?_⟩
    · intro f hf
      refine ⟨(Pass.folds_going hsettled hinj hp f hf).2, ?_⟩
      -- a folded entry has no Plex row, and an entry an external id names has one
      intro key hguid
      have hplex := (Pass.run_kept c p).hasPlexSource (hsettled.guids key _ hguid)
      have hgone := (hsettled.run hinj hp).gone f (List.mem_append_right _ hf)
      rw [hgone.hasPlexSource] at hplex
      cases hplex
    · intro f hf k howner
      have hrow : (c.owner k).isSome := by rw [howner]; rfl
      refine ⟨fun hk => hsettled.run_rescanned hp hk hrow, fun hrows => ?_⟩
      by_cases hk : p.Rescans k
      · rw [hsettled.run_rescanned hp hk hrow]
        obtain ⟨source, q⟩ := k
        obtain ⟨rfl, -⟩ := id hk
        exact hsettled.canonicalIndex_eq hrow (hrows hk)
      · exact Pass.run_stays howner (hsurvivors f hf) hp hk

def rip (name : String) : ProbedFile := ("/mnt/media/" ++ name ++ ".mkv", some (.ofNat 60))

/-- The film `guid` under a ratingKey, in the file `name`. -/
def copyOf (ratingKey name guid : String) : PlexItem where
  ratingKey := ratingKey
  playbackPath := "/mnt/media/" ++ name ++ ".mkv"
  externalIds := [(.imdb, guid)]
  kind := "movie"
  title := guid

def ripPaths (q : String) : Prop := q ∈ ["a.mkv", "b.mkv", "c.mkv"]

theorem ripPaths_inj (q q' : String) (hq : ripPaths q) (hq' : ripPaths q')
    (h : deriveEntryId [] q = deriveEntryId [] q') : q = q' := by
  have hnodup : (["a.mkv", "b.mkv", "c.mkv"].map (deriveEntryId [])).Nodup := by decide
  exact List.inj_on_of_nodup_map hnodup hq hq' h

def ripRoots : List String := ["/mnt/media"]

def ripScan : Pass := .files [rip "a", rip "b"] ripRoots true "1"

/-- Two copies of one film, and another film. -/
def ripFetch : Pass :=
  .items [copyOf "1" "a" "tt1", copyOf "2" "b" "tt1", copyOf "3" "c" "tt2"] ripRoots true "2"

theorem ripScan_steady : ripScan.Steady ripRoots ripPaths := by
  refine ⟨rfl, ?_⟩
  have hpaths : [rip "a", rip "b"].map (fun file => canonicalPath file.1 ripRoots) =
      ["a.mkv", "b.mkv"] := by decide
  intro file hfile
  have hmem := List.mem_map_of_mem (f := fun file : ProbedFile => canonicalPath file.1 ripRoots) hfile
  rw [hpaths] at hmem
  exact List.mem_of_mem_take (i := 2) hmem

theorem entryId_pinned_ripFetch :
    (ripFetch.run (ripScan.run {})).owner (.localFs, "b.mkv") =
      some (deriveEntryId [] "a.mkv") := by
  have hruns : Pass.Folding ripRoots ripPaths (ripScan.run {}) (ripScan.folds {}) :=
    Lib.Traced.init.step ripScan_steady rfl
  have hpaths : [copyOf "1" "a" "tt1", copyOf "2" "b" "tt1", copyOf "3" "c" "tt2"].map
      (fun item => canonicalPath item.playbackPath ripRoots) = ["a.mkv", "b.mkv", "c.mkv"] := by
    decide
  have hsteady : ripFetch.Steady ripRoots ripPaths := by
    refine ⟨rfl, ?_⟩
    intro item hitem
    have hmem := List.mem_map_of_mem
      (f := fun item : PlexItem => canonicalPath item.playbackPath ripRoots) hitem
    rwa [hpaths] at hmem
  have hfold : (deriveEntryId [] "b.mkv", deriveEntryId [] "a.mkv") ∈
      ripFetch.folds (ripScan.run {}) := by decide
  have hrow : (ripScan.run {}).owner (.localFs, "b.mkv") = some (deriveEntryId [] "b.mkv") := by
    decide
  exact (((entryId_pinned.2 ripRoots ripPaths ripPaths_inj _ _ hruns).2 ripFetch hsteady).1 _
    hfold).1 _ hrow

/-- The row of a folded entry is filed under a third once another film's path names its file; and
under another root the file a folded entry was minted for is taken for it again. -/
theorem fold_undone :
    (let c := ripScan.run {}
    let c' := (Pass.items [copyOf "3" "b" "tt2"] ripRoots false "3").run (ripFetch.run c)
    c.owner (.localFs, "b.mkv") = some (deriveEntryId [] "b.mkv") ∧
      (deriveEntryId [] "b.mkv", deriveEntryId [] "a.mkv") ∈ ripFetch.folds c ∧
      ((Pass.files [rip "a", rip "b"] ripRoots true "4").run c').owner (.localFs, "b.mkv") =
        some "imdb:tt2") ∧
    let c := ripFetch.run (ripScan.run {})
    let c' := (Pass.files [("/srv/media/b.mkv", some (.ofNat 60))] ["/srv/media"] true "3").run c
    c.marked (deriveEntryId [] "b.mkv") = some "2" ∧
      (c'.entries.get (deriveEntryId [] "b.mkv")).isSome ∧
      c'.marked (deriveEntryId [] "b.mkv") = none ∧
      c'.hasLiveSource (deriveEntryId [] "b.mkv") := by
  decide

end EtvStation.Ingest
