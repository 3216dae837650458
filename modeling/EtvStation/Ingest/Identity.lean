import Mathlib.Data.List.Sort
import Mathlib.Algebra.GroupWithZero.Nat

/-! What an item of the catalog is called: by its strongest external id, else by a hash of the
path its file has below the media roots. -/
namespace EtvStation.Ingest

/-- External-id namespaces, strongest first. -/
inductive ExternalNs
  | imdb
  | tmdb
  | tvdb
  | plex
  deriving DecidableEq, Repr

namespace ExternalNs

def asStr : ExternalNs → String
  | imdb => "imdb"
  | tmdb => "tmdb"
  | tvdb => "tvdb"
  | plex => "plex"

def PRIORITY : List ExternalNs := [imdb, tmdb, tvdb, plex]

end ExternalNs

/-- The characters that count as white space. -/
def isWhitespace (c : Char) : Bool :=
  let n := c.toNat
  (9 ≤ n && n ≤ 13) || n = 0x20 || n = 0x85 || n = 0xa0 || n = 0x1680 ||
    (0x2000 ≤ n && n ≤ 0x200a) || n = 0x2028 || n = 0x2029 || n = 0x202f || n = 0x205f || n = 0x3000

/-- Whether a GUID value is blank, and so no identity. The four separators from U+001C on count as
blank too. -/
def isBlankGuidValue (value : String) : Bool :=
  value.toList.all fun c => isWhitespace c || (0x1c ≤ c.toNat && c.toNat ≤ 0x1f)

/-- FNV-1a, 64 bits. -/
def fnv1a64 (s : String) : ℕ :=
  (s.toList.flatMap String.utf8EncodeChar).foldl
    (fun hash byte => (hash ^^^ byte.toNat) * 0x100000001b3 % 2 ^ 64) 0xcbf29ce484222325

def hexDigit (n : ℕ) : Char := "0123456789abcdef".toList.getD n '0'

def hex16 (n : ℕ) : String :=
  String.ofList ((List.range 16).reverse.map fun i => hexDigit (n / 16 ^ i % 16))

/-- The first usable id of the strongest namespace that has one, else the hash of the path. -/
def deriveEntryId (externalIds : List (ExternalNs × String)) (canonicalPath : String) : String :=
  match ExternalNs.PRIORITY.findSome? fun ns =>
    externalIds.find? fun e => e.1 = ns && !isBlankGuidValue e.2 with
  | some e => e.1.asStr ++ ":" ++ e.2
  | none => "fs:" ++ hex16 (fnv1a64 canonicalPath)

/-- Whether an entry is one a filesystem scan minted, by its id. -/
def isFs (entryId : String) : Bool := "fs:".toList.isPrefixOf entryId.toList

theorem isFs_deriveEntryId (canonicalPath : String) :
    isFs (deriveEntryId [] canonicalPath) = true := by
  simp [isFs, deriveEntryId, ExternalNs.PRIORITY]

def slashes (path : List Char) : List Char := path.map fun c => if c = '\\' then '/' else c

/-- What is left of a path below one of the roots, tried in order; a root ends at a separator. -/
def belowRoot (path : List Char) : List (List Char) → Option (List Char)
  | [] => none
  | root :: roots =>
    if root.isPrefixOf path then
      match path.drop root.length with
      | [] => some []
      | '/' :: under => some under
      | _ => belowRoot path roots
    else belowRoot path roots

/-- A path for identity: the longest media root it lies under is left out, and separators are
`/`. -/
def canonicalPath (raw : String) (roots : List String) : String :=
  let path := slashes raw.toList
  let trimmed := roots.map fun r =>
    let r := slashes r.toList
    if r.getLast? = some '/' then r.dropLast else r
  let longestFirst := trimmed.insertionSort fun a b =>
    (String.ofList b).utf8ByteSize ≤ (String.ofList a).utf8ByteSize
  String.ofList ((belowRoot path longestFirst).getD path)

end EtvStation.Ingest
