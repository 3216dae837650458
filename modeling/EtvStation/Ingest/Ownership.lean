import EtvStation.Ingest.Passes
import Mathlib.Data.List.Induction

/-! Who writes an entry's columns. A scan takes an entry for its own by its id, and so writes over
one that Plex has taken since. -/
namespace EtvStation.Ingest

/-- What a query selects by, and a guide shows. -/
structure Columns where
  kind : String
  title : String
  showTitle : Option String := none
  showId : Option String := none
  season : Option ℤ := none
  episode : Option ℤ := none
  absoluteEpisode : Option ℤ := none
  year : Option ℤ := none
  releaseDate : Option String := none
  contentRating : Option String := none
  summary : Option String := none
  studio : Option String := none
  edition : Option String := none
  library : Option String := none
  deriving DecidableEq

def Entry.columns (e : Entry) : Columns where
  kind := e.kind
  title := e.title
  showTitle := e.showTitle
  showId := e.showId
  season := e.season
  episode := e.episode
  absoluteEpisode := e.absoluteEpisode
  year := e.year
  releaseDate := e.releaseDate
  contentRating := e.contentRating
  summary := e.summary
  studio := e.studio
  edition := e.edition
  library := e.library

def scannedColumns (file : ProbedFile) : Columns where
  kind := typeFromPath file.1
  title := fileTitle file.1

def Catalog.columns (c : Catalog) (id : String) : Option Columns :=
  (c.entries.get id).map Entry.columns

def lastFile (index : Lib.Table String String) (roots : List String) (files : List ProbedFile)
    (id : String) : Option ProbedFile :=
  files.reverse.find? fun file => (fileEntry index roots file).1 = id

theorem upsertEntry_columns (c : Catalog) (e : Entry) (id : String) :
    (c.upsertEntry e).columns id = if id = e.entryId then some e.columns else c.columns id := by
  unfold Catalog.columns Catalog.upsertEntry
  rw [Lib.Table.get_upsert]
  split_ifs <;> rfl

theorem markEntries_columns (c : Catalog) (stamp id : String) :
    (c.markEntriesMissingWithoutLiveSources stamp).columns id = c.columns id := by
  unfold Catalog.columns Catalog.markEntriesMissingWithoutLiveSources
  rw [Lib.Table.get_update, Option.map_map]
  congr 1
  funext e
  simp only [Function.comp_apply]
  split_ifs <;> rfl

theorem sweep_columns (c : Catalog) (source : Source) (full : Bool) (now : Option String)
    (id : String) : (sweep c source full now).columns id = c.columns id := by
  unfold sweep
  split
  · exact markEntries_columns _ _ _
  · rfl

theorem fsEntry_entryId (c : Catalog) (id : String) (file : ProbedFile) :
    (fsEntry c id file).entryId = id := rfl

theorem fsEntry_columns (c : Catalog) (id : String) (file : ProbedFile) :
    (fsEntry c id file).columns = scannedColumns file := by
  simp only [Entry.columns, fsEntry, scannedColumns]

theorem addSource_columns (c : Catalog) (s : EntrySource) (id : String) :
    (c.addSource s).columns id = c.columns id := rfl

theorem ingestFile_columns (index : Lib.Table String String) (roots : List String)
    (now : Option String) (c : Catalog) (file : ProbedFile) (id : String) :
    (ingestFile index roots now c file).columns id =
      if (fileEntry index roots file).1 = id ∧ isFs id then some (scannedColumns file)
      else c.columns id := by
  unfold ingestFile
  simp only [addSource_columns]
  generalize (fileEntry index roots file).1 = entryId
  by_cases hfs : isFs entryId = true
  · rw [if_pos hfs, upsertEntry_columns, fsEntry_entryId, fsEntry_columns]
    by_cases hid : id = entryId
    · rw [hid, if_pos rfl, if_pos ⟨rfl, hfs⟩]
    · rw [if_neg hid, if_neg fun h => hid h.1.symm]
  · rw [if_neg hfs, if_neg]
    rintro ⟨rfl, hid⟩
    exact hfs hid

/-- What a pass makes of an entry's columns: the last file's, where the entry is the scan's by its
id. -/
theorem foldl_ingestFile_columns (index : Lib.Table String String) (roots : List String)
    (now : Option String) (c : Catalog) (files : List ProbedFile) (id : String) :
    (files.foldl (ingestFile index roots now) c).columns id =
      match (lastFile index roots files id).filter fun _ => isFs id with
      | some file => some (scannedColumns file)
      | none => c.columns id := by
  induction files using List.reverseRecOn with
  | nil => rfl
  | append_singleton files file ih =>
    rw [List.foldl_append, List.foldl_cons, List.foldl_nil, ingestFile_columns, ih]
    have hlast : lastFile index roots (files ++ [file]) id =
        if (fileEntry index roots file).1 = id then some file
        else lastFile index roots files id := by
      unfold lastFile
      rw [List.reverse_append, List.reverse_singleton, List.singleton_append, List.find?_cons]
      split_ifs with h <;> simp [h]
    rw [hlast]
    by_cases hfs : isFs id = true
    · by_cases hfile : (fileEntry index roots file).1 = id
      · rw [if_pos ⟨hfile, hfs⟩, if_pos hfile, Option.filter_some, if_pos hfs]
      · rw [if_neg fun h => hfile h.1, if_neg hfile]
    · rw [if_neg fun h => hfs h.2]
      have hnone : ∀ o : Option ProbedFile, (o.filter fun _ => isFs id) = none := by
        intro o
        simp [hfs]
      rw [hnone, hnone]

/-- A scan leaves what Plex wrote last as it is exactly when each `fs:` entry of Plex's that a file
goes to has no more in its columns than the last such file says. -/
theorem ingestFiles_keeps_plex (c : Catalog) (files : List ProbedFile) (roots : List String)
    (pruneAbsent : Bool) (now : Option String) :
    (∀ id e, c.entries.get id = some e → e.primarySource = .plex →
      (ingestFiles c files roots pruneAbsent now).columns id = some e.columns) ↔
    ∀ id e, c.entries.get id = some e → e.primarySource = .plex → isFs id →
      ∀ file ∈ lastFile (canonicalIndex c roots) roots files id,
        e.columns = scannedColumns file := by
  have hafter : ∀ id e, c.entries.get id = some e →
      (ingestFiles c files roots pruneAbsent now).columns id =
        match (lastFile (canonicalIndex c roots) roots files id).filter fun _ => isFs id with
        | some file => some (scannedColumns file)
        | none => some e.columns := by
    intro id e hget
    have hbefore : c.columns id = some e.columns := by
      unfold Catalog.columns
      rw [hget]
      rfl
    unfold ingestFiles
    rw [sweep_columns, foldl_ingestFile_columns, hbefore]
  constructor
  · intro h id e hget hplex hfs file hfile
    have hkept := h id e hget hplex
    rw [hafter id e hget, Option.mem_def.mp hfile, Option.filter_some, if_pos hfs] at hkept
    exact (Option.some.inj hkept).symm
  · intro h id e hget hplex
    rw [hafter id e hget]
    cases hlast : (lastFile (canonicalIndex c roots) roots files id).filter fun _ => isFs id with
    | none => rfl
    | some file =>
      obtain ⟨hfile, hfs⟩ := Option.filter_eq_some_iff.mp hlast
      have hcolumns := h id e hget hplex hfs file hfile
      rw [hcolumns]

def matrixFile : ProbedFile := ("/media/movies/Die Hard.mkv", some (.ofNat 120))

def dieHard : PlexItem where
  ratingKey := "9"
  playbackPath := "/media/movies/Die Hard.mkv"
  externalIds := [(.imdb, "tt0095016")]
  kind := "movie"
  title := "Die Hard (1988)"
  year := some 1988
  library := some "Movies"

/-- A file is scanned, Plex takes its entry, and the next scan takes it back. -/
def scannedAgain : Catalog :=
  ingestFiles (ingestItems (ingestFiles {} [matrixFile] [] true (some "1")) [dieHard] []
    (some "2")) [matrixFile] [] true (some "3")

/-- The columns of the one entry are those of the file again, and Plex's are gone. -/
theorem scan_erases_plex :
    let c := ingestItems (ingestFiles {} [matrixFile] [] true (some "1")) [dieHard] [] (some "2")
    let id := deriveEntryId [] "/media/movies/Die Hard.mkv"
    (c.entries.get id).map (fun e => (e.primarySource, e.columns)) =
        some (.plex, ⟨"movie", "Die Hard (1988)", none, none, none, none, none, some 1988, none,
          none, none, none, none, some "Movies"⟩) ∧
      scannedAgain.columns id = some ⟨"video", "Die Hard", none, none, none, none, none, none,
        none, none, none, none, none, none⟩ := by
  decide

end EtvStation.Ingest
