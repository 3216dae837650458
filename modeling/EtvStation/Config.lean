import EtvStation.Lib.Assoc
import Mathlib.Data.Rat.Defs
import Mathlib.Data.List.AList
import Mathlib.Data.List.Sort

/-! The configuration a pattern block is walked under: its pools, its steps, and the words
that say which series a visit opens on and how much it draws. Lengths of time are whole
nanoseconds, instants are nanoseconds since the epoch. -/
namespace EtvStation

/-- A catalog `entry_id`. -/
abbrev EntryId := String

abbrev HashMap (κ ν : Type) := AList (fun _ : κ => ν)

/-- A sorted map: its entries, in key order. -/
abbrev BTreeMap (κ ν : Type) := List (κ × ν)

/-- Entries with pairwise different keys, collected in key order. -/
def BTreeMap.collect {κ ν : Type} [LE κ] [DecidableRel fun a b : κ => a ≤ b]
    (entries : List (κ × ν)) : BTreeMap κ ν :=
  entries.insertionSort fun a b => a.1 ≤ b.1

namespace HashMap

variable {κ ν : Type} [DecidableEq κ]

def getD (m : HashMap κ ν) (k : κ) (default : ν) : ν := (m.lookup k).getD default

/-- Later entries replace earlier ones, as `extend` and `collect` do. -/
def extend (m : HashMap κ ν) (entries : List (κ × ν)) : HashMap κ ν :=
  entries.foldl (fun m e => m.insert e.1 e.2) m

def ofList (entries : List (κ × ν)) : HashMap κ ν := extend ∅ entries

def toList (m : HashMap κ ν) : List (κ × ν) := m.entries.map fun e => (e.1, e.2)

def values (m : HashMap κ ν) : List ν := m.entries.map (·.2)

end HashMap

def BTreeMap.get {κ ν : Type} [BEq κ] (m : BTreeMap κ ν) (k : κ) : Option ν := m.lookup k

def BTreeMap.put {κ ν : Type} [DecidableEq κ] [LE κ] [DecidableRel fun a b : κ => a ≤ b]
    (m : BTreeMap κ ν) (k : κ) (v : ν) : BTreeMap κ ν :=
  collect ((k, v) :: m.filter fun e => e.1 ≠ k)

/-- Collecting loses no entry and mixes none up. -/
theorem BTreeMap.get_collect {κ ν : Type} [DecidableEq κ] [LE κ]
    [DecidableRel fun a b : κ => a ≤ b] {entries : List (κ × ν)}
    (h : (entries.map Prod.fst).Nodup) (k : κ) :
    (BTreeMap.collect entries).get k = entries.lookup k :=
  Lib.lookup_perm h (List.perm_insertionSort _ _) k

/-- Keys no two entries share. -/
def BTreeMap.Keyed {κ ν : Type} (m : BTreeMap κ ν) : Prop := (m.map Prod.fst).Nodup

theorem BTreeMap.put_keyed {κ ν : Type} [DecidableEq κ] [LE κ]
    [DecidableRel fun a b : κ => a ≤ b] {m : BTreeMap κ ν} (h : m.Keyed) (k : κ) (v : ν) :
    (m.put k v).Keyed := by
  have hperm := (List.perm_insertionSort (fun a b : κ × ν => a.1 ≤ b.1)
    ((k, v) :: m.filter fun e => e.1 ≠ k)).map Prod.fst
  refine hperm.nodup_iff.mpr ?_
  rw [List.map_cons, List.nodup_cons]
  refine ⟨by simp, ?_⟩
  exact h.sublist (List.filter_sublist.map _)

theorem BTreeMap.get_put {κ ν : Type} [DecidableEq κ] [LE κ]
    [DecidableRel fun a b : κ => a ≤ b] {m : BTreeMap κ ν} (h : m.Keyed) (k : κ) (v : ν)
    (k' : κ) : (m.put k v).get k' = if k' = k then some v else m.get k' := by
  have hnodup : (((k, v) :: m.filter fun e => e.1 ≠ k).map Prod.fst).Nodup := by
    rw [List.map_cons, List.nodup_cons]
    exact ⟨by simp, h.sublist (List.filter_sublist.map _)⟩
  rw [BTreeMap.put, BTreeMap.get_collect hnodup, List.lookup_cons]
  split_ifs with hk
  · simp [hk]
  · have hne : (k' == k) = false := by simpa using hk
    rw [hne, BTreeMap.get]
    refine Option.ext fun w => ?_
    rw [Lib.lookup_eq_some_iff_mem h, Lib.lookup_eq_some_iff_mem (List.nodup_cons.mp hnodup).2,
      List.mem_filter]
    simp [hk]

def BTreeMap.mapValues {κ ν : Type} (f : ν → ν) (m : BTreeMap κ ν) : BTreeMap κ ν :=
  m.map fun (k, v) => (k, f v)

inductive GroupBy where
  | byShow
  | bySeason
  deriving DecidableEq, Repr

inductive Take where
  | count (n : ℕ)
  | range (min max : ℕ)
  | all
  deriving DecidableEq, Repr

/-- Where in a series a visit cuts its slice; `atEnd` is the source's `End`. -/
inductive TakeFrom where
  | start
  | atEnd
  | random
  deriving DecidableEq, Repr

inductive Select where
  | roundRobin
  | random
  deriving DecidableEq, Repr

inductive Rotate where
  | visit
  | slot
  | span (period : ℕ)
  deriving DecidableEq, Repr

/-- The span a pool holds a series for, or `none` for `visit` and `slot`. -/
def Rotate.span? : Rotate → Option ℕ
  | .span d => some d
  | .visit | .slot => none

inductive Advance where
  | restart
  | resume
  deriving DecidableEq, Repr

inductive CursorScope where
  | channel
  | global
  deriving DecidableEq, Repr

inductive OnShort where
  | next
  | wrap
  | short
  deriving DecidableEq, Repr

inductive NoRepeatWithin where
  | positions (n : ℕ)
  | duration (d : ℕ)
  deriving DecidableEq, Repr

structure Constraints where
  noRepeatWithin : Option NoRepeatWithin := none
  separateBy : Option String := none
  separateMinGap : Option ℕ := none
  deriving DecidableEq, Repr

/-- The effective repeat gap, `positions 0` when unset. -/
def Constraints.noRepeatGap (c : Constraints) : NoRepeatWithin :=
  c.noRepeatWithin.getD (.positions 0)

/-- The effective separation gap; a field with no gap separates adjacent items only. -/
def Constraints.separateGap (c : Constraints) : ℕ :=
  match c.separateBy with
  | some _ => c.separateMinGap.getD 1
  | none => 0

/-- Where a show's episode sits among the show's arcs. -/
inductive ArcBucket where
  | named (arc : String)
  | trailing
  deriving DecidableEq, Repr

/-- One pool of a pattern block, its source exactly one of `expr`, `plugin` and `groups`.
`order` and `bucketOrder` are named by the text of their `Order`. -/
structure Pool where
  name : String
  expr : Option String := none
  plugin : Option String := none
  groups : List String := []
  order : Option String := none
  bucketOrder : Option String := none
  groupBy : GroupBy := .byShow
  /-- The station's arcs, as the bucket of a show's absolute episode number. -/
  arcs : Option (String → ℤ → Option ArcBucket) := none
  select : Select := .roundRobin
  rotate : Rotate := .visit
  advance : Advance := .restart
  cursorScope : CursorScope := .channel
  onShort : OnShort := .next
  constraints : Option Constraints := none

/-- A pool's own constraints replace the block's wholesale. -/
def Pool.effectiveConstraints (p : Pool) (block : Option Constraints) : Constraints :=
  (p.constraints <|> block).getD {}

structure ShowGroup where
  name : String
  shows : List String
  deriving DecidableEq, Repr

/-- One step of the repeating pattern. `chance` is the exact value of its `f64`. -/
structure PatternStep where
  pool : String
  take : Take
  from_ : TakeFrom := .start
  chance : ℚ := 1
  deriving DecidableEq, Repr

def MAX_CYCLES : ℕ := 10000

def MAX_TAKE : ℕ := 10000

end EtvStation
