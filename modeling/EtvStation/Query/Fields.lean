import EtvStation.Ingest.Store
import EtvStation.Lib.Sql.Values

/-! The `item.*` vocabulary of a query and the tables behind it. -/
namespace EtvStation.Query

open Lib.Sql (Value Engine)
open Ingest (Entry TagNs)

inductive ScalarKind
  | str
  | num
  deriving DecidableEq, Repr

inductive ScalarValue
  | str (s : Option String)
  | num (i : Option ℤ)
  deriving DecidableEq, Repr

/-- The single-valued columns of `entries` an author can name. -/
inductive ScalarField
  | title
  | titleSort
  | showTitle
  | type
  | year
  | releaseDate
  | season
  | episode
  | absoluteEpisode
  | durationMs
  | contentRating
  | edition
  | studio
  | library
  deriving DecidableEq, Repr

namespace ScalarField

def all : List ScalarField :=
  [title, titleSort, showTitle, type, year, releaseDate, season, episode, absoluteEpisode,
    durationMs, contentRating, edition, studio, library]

/-- What follows `item.` in an expression, and the column. -/
def name : ScalarField → String
  | title => "title"
  | titleSort => "title_sort"
  | showTitle => "show"
  | type => "type"
  | year => "year"
  | releaseDate => "release_date"
  | season => "season"
  | episode => "episode"
  | absoluteEpisode => "absolute_episode"
  | durationMs => "duration_ms"
  | contentRating => "content_rating"
  | edition => "edition"
  | studio => "studio"
  | library => "library"

def fromName (s : String) : Option ScalarField := all.find? fun f => f.name == s

def kind : ScalarField → ScalarKind
  | title | titleSort | showTitle | type | releaseDate | contentRating | edition | studio
  | library => .str
  | year | season | episode | absoluteEpisode | durationMs => .num

def value (f : ScalarField) (e : Entry) : ScalarValue :=
  match f with
  | title => .str (some e.title)
  | titleSort => .str e.titleSort
  | showTitle => .str e.showTitle
  | type => .str (some e.kind)
  | year => .num e.year
  | releaseDate => .str e.releaseDate
  | season => .num e.season
  | episode => .num e.episode
  | absoluteEpisode => .num e.absoluteEpisode
  | durationMs => .num e.durationMs
  | contentRating => .str e.contentRating
  | edition => .str e.edition
  | studio => .str e.studio
  | library => .str e.library

theorem fromName_name (f : ScalarField) : fromName f.name = some f := by
  cases f <;> decide

theorem name_of_fromName {s : String} {f : ScalarField} (h : fromName s = some f) : f.name = s := by
  have hname := List.find?_some h
  exact beq_iff_eq.mp hname

end ScalarField

inductive FieldKind
  /-- A text column. -/
  | str (col : ScalarField)
  /-- A numeric column. -/
  | num (col : ScalarField)
  /-- A tag namespace; none is any of them. -/
  | tag (ns : Option TagNs)
  | source
  /-- Collection membership by name. -/
  | collection
  /-- The directories an entry's files sit in. -/
  | fsDir
  deriving DecidableEq, Repr

def FieldKind.resolve (name : String) : Option FieldKind :=
  match ScalarField.fromName name with
  | some f =>
    some (match f.kind with
      | .str => .str f
      | .num => .num f)
  | none =>
    if name = "genres" then some (.tag (some .genre))
    else if name = "labels" then some (.tag (some .label))
    else if name = "cast" then some (.tag (some .cast))
    else if name = "directors" then some (.tag (some .director))
    else if name = "tags" then some (.tag none)
    else if name = "source" then some .source
    else if name = "collections" then some .collection
    else if name = "fs_dir" then some .fsDir
    else none

structure Shelves extends Ingest.Catalog where
  collections : Lib.Table String String := .empty

/-- The components of a path below its root: a repeated or final `/` adds none, and `.` is one
only where a relative path begins with it. -/
def components (path : String) : List String :=
  match (path.toList.splitOn '/').map String.ofList with
  | [] => []
  | first :: rest =>
    (if first = "" then [] else [first]) ++ rest.filter fun p => p ≠ "" ∧ p ≠ "."

/-- `parent_dir`: the name of the directory a path's file is in, if it has one. -/
def parentDir (path : String) : Option String :=
  match (components path).reverse with
  | _ :: d :: _ => if d = "." ∨ d = ".." then none else some d
  | _ => none

example : parentDir "/media/bumpers/x.mkv" = some "bumpers" ∧ parentDir "x.mkv" = none := by
  decide

def ScalarValue.sql : ScalarValue → Value
  | .str s => (s.map .text).getD .null
  | .num i => (i.map .int).getD .null

namespace Shelves

def entryRow (e : Entry) (col : String) : Value :=
  if col = "entry_id" then .text e.entryId
  else ((ScalarField.fromName col).map fun f => (f.value e).sql).getD .null

def tagRow (t : Ingest.Tag) (col : String) : Value :=
  if col = "entry_id" then .text t.entryId
  else if col = "namespace" then .text t.ns.asStr
  else if col = "value" then .text t.value
  else .null

def sourceRow (r : Ingest.EntrySource) (col : String) : Value :=
  if col = "entry_id" then .text r.entryId
  else if col = "source" then .text r.source.asStr
  else if col = "source_id" then .text r.sourceId
  else if col = "playback_path" then .text r.playbackPath
  else .null

def collectionItemRow (r : Ingest.CollectionItem) (col : String) : Value :=
  if col = "collection_id" then .text r.collectionId
  else if col = "entry_id" then .text r.entryId
  else if col = "position" then .int r.position
  else .null

def collectionRow (r : String × String) (col : String) : Value :=
  if col = "collection_id" then .text r.1
  else if col = "name" then .text r.2
  else .null

def rows (c : Shelves) (table : String) : List (String → Value) :=
  if table = "entries" then c.entries.rows.map fun r => entryRow r.2
  else if table = "tags" then c.tags.map tagRow
  else if table = "entry_sources" then c.sources.rows.map fun r => sourceRow r.2
  else if table = "collection_items" then c.collectionItems.map collectionItemRow
  else if table = "collections" then c.collections.rows.map collectionRow
  else []

/-- The connection a query runs on. `matches` says whether a pattern that compiles is found in a
text. -/
def engine (c : Shelves) (isMatch : String → String → Bool) : Engine where
  rows := c.rows
  function f args :=
    if f = "regexp" then
      match args with
      | [.text pattern, .text text] => Value.ofBool (isMatch pattern text)
      | _ => .null
    else if f = "parent_dir" then
      match args with
      | [.text path] => ((parentDir path).map .text).getD .null
      | _ => .null
    else .null

end Shelves

end EtvStation.Query
