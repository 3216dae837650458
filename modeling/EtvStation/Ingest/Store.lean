import EtvStation.Lib.Table
import EtvStation.Ingest.Identity

/-! The catalog's tables and the writes its ingesters make. Nothing is deleted: what a full pass
does not find is marked missing, and a write that sees it again clears the mark. -/
namespace EtvStation.Ingest

open Lib (Table)

inductive Source
  | plex
  | localFs
  /-- A released extra. -/
  | extras
  deriving DecidableEq, Repr

def Source.asStr : Source → String
  | plex => "plex"
  | localFs => "local_fs"
  | extras => "extras"

inductive TagNs
  | genre
  | label
  | cast
  | director
  | writer
  | producer
  | country
  deriving DecidableEq, Repr

def TagNs.asStr : TagNs → String
  | genre => "genre"
  | label => "label"
  | cast => "cast"
  | director => "director"
  | writer => "writer"
  | producer => "producer"
  | country => "country"

structure Entry where
  entryId : String
  kind : String
  title : String
  titleSort : Option String := none
  showTitle : Option String := none
  showId : Option String := none
  season : Option ℤ := none
  episode : Option ℤ := none
  absoluteEpisode : Option ℤ := none
  edition : Option String := none
  studio : Option String := none
  year : Option ℤ := none
  releaseDate : Option String := none
  durationMs : Option ℤ := none
  contentRating : Option String := none
  summary : Option String := none
  library : Option String := none
  /-- Whose values the row holds. -/
  primarySource : Source
  rawMetadata : Option String := none
  /-- The number Plex itself last reported, apart from the one served. -/
  plexAbsoluteEpisode : Option ℤ := none
  /-- When a full pass first found no live source for it. -/
  missingSince : Option String := none
  deriving DecidableEq

/-- One place an item was seen at. -/
structure EntrySource where
  source : Source
  sourceId : String
  entryId : String
  playbackPath : String
  /-- The stamp of the last pass that saw it. -/
  lastSeen : Option String
  missingSince : Option String := none
  unairableReason : Option String := none
  deriving DecidableEq

structure Tag where
  entryId : String
  ns : TagNs
  value : String
  deriving DecidableEq

structure CollectionItem where
  collectionId : String
  entryId : String
  position : ℤ
  deriving DecidableEq

structure Catalog where
  entries : Table String Entry := .empty
  sources : Table (Source × String) EntrySource := .empty
  externalIds : Table (ExternalNs × String × String) String := .empty
  tags : List Tag := []
  collectionItems : List CollectionItem := []

namespace Catalog

/-- Insert or replace an entry. The write sees the entry, so its mark goes; the number Plex
reported is not among the columns it writes. -/
def upsertEntry (c : Catalog) (e : Entry) : Catalog :=
  { c with
    entries := c.entries.upsert e.entryId fun old =>
      { e with
        missingSince := none
        plexAbsoluteEpisode := old.bind (·.plexAbsoluteEpisode) } }

def plexAbsoluteEpisode (c : Catalog) (entryId : String) : Option ℤ :=
  (c.entries.get entryId).bind (·.plexAbsoluteEpisode)

def setPlexAbsoluteEpisode (c : Catalog) (entryId : String) (value : Option ℤ) : Catalog :=
  { c with
    entries := c.entries.update fun id e =>
      if id = entryId then { e with plexAbsoluteEpisode := value } else e }

/-- Attach a provenance row, live. A verdict about the file stays while the path does. -/
def addSource (c : Catalog) (s : EntrySource) : Catalog :=
  { c with
    sources := c.sources.upsert (s.source, s.sourceId) fun old =>
      { s with
        missingSince := none
        unairableReason := old.bind fun o =>
          if o.playbackPath = s.playbackPath then o.unairableReason else none } }

/-- Mark every row of `source` that the scan with this stamp did not touch. -/
def markUnseenSourcesMissing (c : Catalog) (source : Source) (scanStamp : String) : Catalog :=
  { c with
    sources := c.sources.update fun k s =>
      if k.1 = source ∧ s.lastSeen ≠ some scanStamp ∧ s.missingSince = none then
        { s with missingSince := some scanStamp }
      else s }

/-- Whether some row says where to play the entry from. -/
def hasLiveSource (c : Catalog) (entryId : String) : Bool :=
  c.sources.any fun _ s => s.entryId = entryId && s.missingSince.isNone

/-- Mark every entry left with no live row. -/
def markEntriesMissingWithoutLiveSources (c : Catalog) (scanStamp : String) : Catalog :=
  { c with
    entries := c.entries.update fun id e =>
      if !c.hasLiveSource id && e.missingSince.isNone then
        { e with missingSince := some scanStamp }
      else e }

/-- Record an external id; one already recorded goes to this entry. -/
def addExternalId (c : Catalog) (ns : ExternalNs) (value kind entryId : String) : Catalog :=
  { c with externalIds := c.externalIds.upsert (ns, value, kind) fun _ => entryId }

/-- Fold `loser` into `survivor`: its rows are the survivor's, its tags and collection places too
where the survivor has none of its own, and it is marked missing. -/
def mergeEntry (c : Catalog) (loser survivor stamp : String) : Catalog :=
  if loser = survivor then c
  else
    { c with
      sources := c.sources.update fun _ s =>
        if s.entryId = loser then { s with entryId := survivor } else s
      externalIds := c.externalIds.update fun _ id => if id = loser then survivor else id
      tags := c.tags.map fun t =>
        if t.entryId = loser ∧ { t with entryId := survivor } ∉ c.tags then
          { t with entryId := survivor }
        else t
      collectionItems := c.collectionItems.map fun i =>
        if i.entryId = loser ∧ ∀ j ∈ c.collectionItems,
            ¬ (j.collectionId = i.collectionId ∧ j.entryId = survivor) then
          { i with entryId := survivor }
        else i
      entries := c.entries.update fun id e =>
        if id = loser then { e with missingSince := some stamp } else e }

def addTag (c : Catalog) (entryId : String) (ns : TagNs) (value : String) : Catalog :=
  if (⟨entryId, ns, value⟩ : Tag) ∈ c.tags then c
  else { c with tags := c.tags ++ [⟨entryId, ns, value⟩] }

def clearTags (c : Catalog) (entryId : String) (ns : TagNs) : Catalog :=
  { c with tags := c.tags.filter fun t => ¬ (t.entryId = entryId ∧ t.ns = ns) }

def entryIdForSource (c : Catalog) (source : Source) (sourceId : String) : Option String :=
  (c.sources.get (source, sourceId)).map (·.entryId)

def entryIdForExternalId (c : Catalog) (ns : ExternalNs) (value kind : String) : Option String :=
  c.externalIds.get (ns, value, kind)

/-- Every provenance row, by source and then id. -/
def allSources (c : Catalog) : List EntrySource :=
  (c.sources.rows.insertionSort fun a b =>
    a.1.1.asStr < b.1.1.asStr ∨ a.1.1.asStr = b.1.1.asStr ∧ a.1.2 ≤ b.1.2).map (·.2)

/-- A row of a show as its numbering reads it; `regular` is an episode of a season from 1 on. -/
structure Numbered where
  entryId : String
  plex : Option ℤ
  current : Option ℤ
  regular : Bool

/-- Missing numbers sort first. -/
def nullsFirst : Option ℤ → Option ℤ → Ordering
  | none, none => .eq
  | none, some _ => .lt
  | some _, none => .gt
  | some a, some b => compare a b

def showRows (c : Catalog) (showId : String) : List Numbered :=
  let rows := (c.entries.rows.map (·.2)).filter fun e => e.showId = some showId
  let sorted := rows.insertionSort fun a b =>
    ((nullsFirst a.season b.season).then ((nullsFirst a.episode b.episode).then
      (compare a.entryId b.entryId))) ≠ .gt
  sorted.map fun e =>
    ⟨e.entryId, e.plexAbsoluteEpisode, e.absoluteEpisode,
      e.season.any (1 ≤ ·) && e.episode.isSome⟩

/-- The numbers the rows of a show get: Plex's where it numbered every regular episode, else the
regular episodes in order from 1 on and none for the others. -/
def wantedNumbers (rows : List Numbered) : List (String × Option ℤ) :=
  if rows.all fun r => !r.regular || r.plex.isSome then rows.map fun r => (r.entryId, r.plex)
  else
    ((rows.foldl (fun (acc : List (String × Option ℤ) × ℤ) r =>
      if r.regular then (acc.1 ++ [(r.entryId, some (acc.2 + 1))], acc.2 + 1)
      else (acc.1 ++ [(r.entryId, none)], acc.2)) ([], 0))).1

def setAbsoluteEpisode (c : Catalog) (entryId : String) (wanted : Option ℤ) : Catalog :=
  { c with
    entries := c.entries.update fun id e =>
      if id = entryId then { e with absoluteEpisode := wanted } else e }

/-- Settle the absolute numbers of each show, all of a show's in one number space. -/
def reconcileAbsoluteEpisodes (c : Catalog) (showIds : List String) : Catalog :=
  showIds.foldl (fun c showId =>
    (wantedNumbers (c.showRows showId)).foldl (fun c w => c.setAbsoluteEpisode w.1 w.2) c) c

end Catalog

end EtvStation.Ingest
