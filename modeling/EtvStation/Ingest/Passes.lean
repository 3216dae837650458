import EtvStation.Ingest.Store
import EtvStation.Lib.F64

/-! The passes that fill the catalog: the filesystem scan, the Plex fetch, and the released
extras. -/
namespace EtvStation.Ingest

open Lib (Table F64)

/-- Canonical path to entry over every row there is. Where a path has rows of several entries, the
first that is not an `fs:` one is meant, and the last of those that are when there is none. -/
def canonicalIndex (c : Catalog) (roots : List String) : Table String String :=
  c.allSources.foldl (fun index s =>
    let canonical := canonicalPath s.playbackPath roots
    if (index.get canonical).any fun existing => !isFs existing then index
    else index.upsert canonical fun _ => s.entryId) .empty

def pathParts (path : String) : List String :=
  ((path.toList.splitOn '/').map String.ofList).filter fun part => part ≠ "" ∧ part ≠ "."

def fileName (parts : List String) : Option String :=
  parts.getLast?.bind fun name => if name = ".." then none else some name

/-- The file's name up to its last dot, unless that is its first character. -/
def fileTitle (path : String) : String :=
  match fileName (pathParts path) with
  | none => ""
  | some name =>
    let stem := (name.toList.reverse.dropWhile (· ≠ '.')).drop 1
    if stem = [] then name else String.ofList stem.reverse

def typeFromPath (path : String) : String :=
  let dir := (fileName (pathParts path).dropLast).getD ""
  let dir := String.ofList (dir.toList.map Char.toLower)
  if dir = "bumpers" ∨ dir = "bumper" then "bumper"
  else if dir = "musicvideos" ∨ dir = "music_videos" ∨ dir = "music-videos" then "music_video"
  else if dir = "concerts" ∨ dir = "concert" then "concert"
  else if dir = "power_hours" ∨ dir = "power-hours" ∨ dir = "powerhours" then "power_hour"
  else if dir = "commercials" ∨ dir = "commercial" then "commercial"
  else if dir = "idents" ∨ dir = "ident" then "ident"
  else if dir = "promos" ∨ dir = "promo" then "promo"
  else "video"

/-- Seconds as whole milliseconds: the product, cut off and held within an `i64`. -/
def wholeMs (seconds : F64) : ℤ :=
  (min ((seconds.mul (F64.ofNat 1000)).units / F64.one) (2 ^ 63 - 1) : ℕ)

abbrev ProbedFile := String × Option F64

/-- The entry a file of a pass goes to, and whether a row had it before. -/
def fileEntry (index : Table String String) (roots : List String) (file : ProbedFile) :
    String × Bool :=
  let canonical := canonicalPath file.1 roots
  match index.get canonical with
  | some existing => (existing, true)
  | none => (deriveEntryId [] canonical, false)

/-- What a scan writes on an `fs:` entry. A probe that did not answer leaves the length. -/
def fsEntry (c : Catalog) (entryId : String) (file : ProbedFile) : Entry where
  entryId := entryId
  kind := typeFromPath file.1
  title := fileTitle file.1
  primarySource := .localFs
  durationMs :=
    match file.2 with
    | some s => some (wholeMs s)
    | none => (c.entries.get entryId).bind (·.durationMs)

def ingestFile (index : Table String String) (roots : List String) (now : Option String)
    (c : Catalog) (file : ProbedFile) : Catalog :=
  let entryId := (fileEntry index roots file).1
  let c := if isFs entryId then c.upsertEntry (fsEntry c entryId file) else c
  c.addSource
    { source := .localFs
      sourceId := canonicalPath file.1 roots
      entryId := entryId
      playbackPath := file.1
      lastSeen := now }

/-- A full pass marks what it did not see, unless it has no stamp to tell by. -/
def sweep (c : Catalog) (source : Source) (full : Bool) (now : Option String) : Catalog :=
  match full, now with
  | true, some stamp =>
    (c.markUnseenSourcesMissing source stamp).markEntriesMissingWithoutLiveSources stamp
  | _, _ => c

def ingestFiles (c : Catalog) (files : List ProbedFile) (identityRoots : List String)
    (pruneAbsent : Bool) (now : Option String) : Catalog :=
  let index := canonicalIndex c identityRoots
  sweep (files.foldl (ingestFile index identityRoots now) c) .localFs pruneAbsent now

structure PlexItem where
  ratingKey : String
  externalIds : List (ExternalNs × String) := []
  playbackPath : String
  kind : String
  title : String
  library : Option String := none
  showTitle : Option String := none
  showRatingKey : Option String := none
  showExternalIds : List (ExternalNs × String) := []
  season : Option ℤ := none
  episode : Option ℤ := none
  absoluteEpisode : Option ℤ := none
  year : Option ℤ := none
  releaseDate : Option String := none
  contentRating : Option String := none
  summary : Option String := none
  edition : Option String := none
  studio : Option String := none
  durationMs : Option ℤ := none
  genres : List String := []
  cast : List String := []
  directors : List String := []
  writers : List String := []
  producers : List String := []
  countries : List String := []

def nonEmpty (s : String) : Option String := if s.toList.all isWhitespace then none else some s

def entryKind (item : PlexItem) : String := (nonEmpty item.kind).getD "video"

/-- The entry an item goes to, if there is one: the one its ratingKey is pinned to, else one a GUID
of it names, else the one its path has. -/
def resolveExisting (c : Catalog) (item : PlexItem) (pathMatch : Option String) : Option String :=
  match c.entryIdForSource .plex item.ratingKey with
  | some id => some id
  | none =>
    match item.externalIds.findSome? fun e =>
        c.entryIdForExternalId e.1 e.2 (entryKind item) with
    | some id => some id
    | none => pathMatch

def itemEntry (c : Catalog) (roots : List String) (pathMatch : Option String) (item : PlexItem) :
    String :=
  (resolveExisting c item pathMatch).getD
    (deriveEntryId item.externalIds (canonicalPath item.playbackPath roots))

def hasPlexSource (c : Catalog) (entryId : String) : Bool :=
  c.sources.any fun k s => s.entryId = entryId && k.1 = .plex

/-- The `fs:` entry that is to be folded into the item's: the one its path has, when that is
another and no Plex row has it. -/
def staleEntry (c : Catalog) (pathMatch : Option String) (entryId : String) : Option String :=
  pathMatch.filter fun stale => stale ≠ entryId && isFs stale && !hasPlexSource c stale

/-- The item's values where it has some, what the entry had elsewhere. -/
def plexEntry (c : Catalog) (roots : List String) (item : PlexItem) (entryId : String) : Entry :=
  let existing := c.entries.get entryId
  { entryId := entryId
    kind := entryKind item
    title := ((nonEmpty item.title).or (existing.map (·.title))).getD ""
    primarySource := .plex
    showTitle := item.showTitle.or (existing.bind (·.showTitle))
    showId := (item.showRatingKey.map fun key =>
      deriveEntryId item.showExternalIds
        (canonicalPath ("/library/metadata/" ++ key ++ "/children") roots)).or
          (existing.bind (·.showId))
    season := item.season.or (existing.bind (·.season))
    episode := item.episode.or (existing.bind (·.episode))
    absoluteEpisode := item.absoluteEpisode.or (c.plexAbsoluteEpisode entryId)
    year := item.year.or (existing.bind (·.year))
    releaseDate := item.releaseDate.or (existing.bind (·.releaseDate))
    contentRating := item.contentRating.or (existing.bind (·.contentRating))
    summary := item.summary.or (existing.bind (·.summary))
    edition := item.edition.or (existing.bind (·.edition))
    studio := item.studio.or (existing.bind (·.studio))
    durationMs := item.durationMs.or (existing.bind (·.durationMs))
    library := item.library.or (existing.bind (·.library)) }

/-- Plex authors each of these sets whole. -/
def writeTags (c : Catalog) (entryId : String) (item : PlexItem) : Catalog :=
  [(TagNs.genre, item.genres), (.cast, item.cast), (.director, item.directors),
    (.writer, item.writers), (.producer, item.producers), (.country, item.countries)].foldl
    (fun c tags =>
      tags.2.foldl (fun c value => c.addTag entryId tags.1 value) (c.clearTags entryId tags.1)) c

/-- Everything the pass writes of an item once it knows its entry. -/
def writeItem (c : Catalog) (roots : List String) (now : Option String) (item : PlexItem)
    (entryId : String) : Catalog :=
  let entry := plexEntry c roots item entryId
  let c := (c.upsertEntry entry).setPlexAbsoluteEpisode entryId entry.absoluteEpisode
  let c := item.externalIds.foldl
    (fun c e => c.addExternalId e.1 e.2 (entryKind item) entryId) c
  let c := c.addSource
    { source := .plex
      sourceId := item.ratingKey
      entryId := entryId
      playbackPath := item.playbackPath
      lastSeen := now }
  writeTags c entryId item

structure PlexPass where
  catalog : Catalog
  index : Table String String
  touchedShows : List String := []

def PlexPass.item (roots : List String) (now : Option String) (p : PlexPass) (item : PlexItem) :
    PlexPass :=
  let pathMatch := p.index.get (canonicalPath item.playbackPath roots)
  let entryId := itemEntry p.catalog roots pathMatch item
  -- folded by path, before the entry is read: what the item lacks comes from the survivor's row
  let folded :=
    match staleEntry p.catalog pathMatch entryId with
    | some stale =>
      (p.catalog.mergeEntry stale entryId (now.getD ""),
        p.index.update fun _ target => if target = stale then entryId else target)
    | none => (p.catalog, p.index)
  { catalog := writeItem folded.1 roots now item entryId
    index := folded.2
    touchedShows := p.touchedShows ++ (plexEntry folded.1 roots item entryId).showId.toList }

def ingestItems (c : Catalog) (items : List PlexItem) (identityRoots : List String)
    (now : Option String) : Catalog :=
  let p := items.foldl (PlexPass.item identityRoots now) ⟨c, canonicalIndex c identityRoots, []⟩
  p.catalog.reconcileAbsoluteEpisodes (p.touchedShows.dedup.insertionSort (· ≤ ·))

def writePass (c : Catalog) (items : List PlexItem) (identityRoots : List String) (full : Bool)
    (now : Option String) : Catalog :=
  sweep (ingestItems c items identityRoots now) .plex full now

structure ExtrasItem where
  itemId : String
  library : String
  kind : String
  title : String
  year : Option ℤ := none
  durationMs : Option ℤ := none
  path : Option String := none
  missing : Bool := false

/-- An extra with no live file is left unwritten. -/
def ExtrasItem.livePath (item : ExtrasItem) : Option String :=
  if item.missing then none else item.path.filter (· ≠ "")

def writeExtra (stamp : String) (c : Catalog) (item : ExtrasItem) : Catalog :=
  match item.livePath with
  | none => c
  | some path =>
    (c.upsertEntry
      { entryId := item.itemId
        kind := item.kind
        title := item.title
        primarySource := .extras
        year := item.year
        durationMs := item.durationMs
        library := some item.library }).addSource
      { source := .extras
        sourceId := item.itemId
        entryId := item.itemId
        playbackPath := path
        lastSeen := some stamp }

def ingestExtras (c : Catalog) (items : List ExtrasItem) (full : Bool) (stamp : String) :
    Catalog :=
  sweep (items.foldl (writeExtra stamp) c) .extras full (some stamp)

end EtvStation.Ingest
