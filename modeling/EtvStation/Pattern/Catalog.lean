import EtvStation.Config
import Mathlib.Algebra.GroupWithZero.Nat

/-! What a walk reads of the catalog, and the running times it measures by. -/
namespace EtvStation

/-- An entry's display names, as a `rotate: <span>` pool titles its series. -/
structure CatalogTitle where
  show_ : Option String := none
  title : String
  deriving DecidableEq, Repr

/-- The catalog's answers. Every query reads one fixed database and may fail. -/
structure Catalog where
  resolveQuery : String → Except String (List EntryId) := fun _ => .ok []
  resolveOrder : List EntryId → String → UInt64 → Except String (List EntryId) :=
    fun ids _ _ => .ok ids
  episodeIdsForShows : List String → Except String (String → Option (List EntryId)) :=
    fun _ => .ok fun _ => none
  showIdsFor : List EntryId → Except String (EntryId → Option String) := fun _ => .ok fun _ => none
  seasonsFor : List EntryId → Except String (EntryId → Option ℤ) := fun _ => .ok fun _ => none
  arcPositionsFor : List EntryId → Except String (EntryId → Option (String × ℤ)) :=
    fun _ => .ok fun _ => none
  /-- The durations on record, in milliseconds. -/
  durationsFor : List EntryId → Except String (HashMap EntryId ℤ) := fun _ => .ok ∅
  /-- The tag namespace a `separate_by` field names. -/
  tagNs : String → Except String String := .ok
  tagsFor : EntryId → String → Except String (List String) := fun _ _ => .ok []
  entriesFor : List EntryId → Except String (EntryId → Option CatalogTitle) :=
    fun _ => .ok fun _ => none

def MAX_CATALOG_DURATION_MS : ℤ := 24 * 60 * 60 * 1000

def meanOf (lengths : HashMap EntryId ℕ) : ℕ := lengths.values.sum / lengths.values.length

/-- The lengths on record and their mean; bogus figures are thrown out. -/
def poolRuntimes (cat : Catalog) (ids : List EntryId) :
    Except String (HashMap EntryId ℕ × ℕ) := do
  let raw ← cat.durationsFor ids
  let kept := raw.toList.filter fun (_, ms) => 0 < ms && ms ≤ MAX_CATALOG_DURATION_MS
  let runtimes := HashMap.ofList (kept.map fun (id, ms) => (id, ms.toNat * 1000000))
  return (runtimes, if runtimes.values.isEmpty then 0 else meanOf runtimes)

end EtvStation
