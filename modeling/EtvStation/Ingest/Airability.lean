import EtvStation.Ingest.Folded

/-! What a scan finds of the files that cannot air, and how it keeps their entries out of pools. A
verdict goes on the rows there are when it is reached. -/
namespace EtvStation.Ingest

open Lib (Table F64 nearest)

inductive StreamKind
  | audio
  | video
  | subtitle
  | other
  deriving DecidableEq, Repr

/-- What a scan learned from probing one file. A length is in nanoseconds. -/
inductive FileProbe
  | noAnswer
  | answered (duration : ℕ) (streams : List StreamKind)
  /-- An answer with no usable length in it. -/
  | garbled (reason : String)
  deriving DecidableEq, Repr

def FileProbe.seconds : FileProbe → Option F64
  | answered duration _ => some (F64.asSecs duration)
  | _ => none

/-- A length in seconds, printed to the nearest tenth. -/
def oneDecimal (ns : ℕ) : String :=
  let tenths := nearest ((F64.asSecs ns).units * 10) F64.one
  toString (tenths / 10) ++ "." ++ toString (tenths % 10)

def PROBE_DEVIATION_FACTOR : ℕ := 2

/-- Why a file cannot air, given the catalog's own runtime for it. -/
def unairableReason (probed : ℕ) (streams : List StreamKind) (catalog : Option ℕ) :
    Option String :=
  if streams.all (· ≠ .video) then some "no video stream"
  else if probed = 0 then some "container duration is zero"
  else
    (catalog.filter fun c => probed > c * PROBE_DEVIATION_FACTOR ||
      probed * PROBE_DEVIATION_FACTOR < c).map fun c =>
        "probed length " ++ oneDecimal probed ++ "s is more than " ++
          toString PROBE_DEVIATION_FACTOR ++ "x off the catalog runtime " ++ oneDecimal c ++ "s"

namespace Catalog

def setSourceUnairable (c : Catalog) (source : Source) (sourceId : String)
    (reason : Option String) : Catalog :=
  { c with
    sources := c.sources.update fun k s =>
      if k = (source, sourceId) then { s with unairableReason := reason } else s }

/-- An entry's provenance rows with their keys, by source and then id. -/
def sourcesFor (c : Catalog) (entryId : String) : List ((Source × String) × EntrySource) :=
  (c.sources.rows.filter fun r => r.2.entryId = entryId).insertionSort fun a b =>
    a.1.1.asStr < b.1.1.asStr ∨ a.1.1.asStr = b.1.1.asStr ∧ a.1.2 ≤ b.1.2

/-- Whether a pool may draw the entry: it may not when it has a live row, and every live row of it
an unairable file. -/
def unairableFilter (c : Catalog) (entryId : String) : Bool :=
  !((c.sources.any fun _ s => s.entryId = entryId && s.unairableReason.isSome &&
      s.missingSince.isNone) &&
    !c.sources.any fun _ a => a.entryId = entryId && a.unairableReason.isNone &&
      a.missingSince.isNone)

def resolveQuery (c : Catalog) (clause : Entry → Bool) : List String :=
  ((c.entries.rows.filter fun r => clause r.2 && r.2.missingSince.isNone &&
    c.unairableFilter r.1).map Prod.fst).insertionSort (· ≤ ·)

/-- The runtime another source gives the entry of a scanned file. -/
def catalogRuntime (c : Catalog) (sourceId : String) : Option ℕ :=
  let entryId := (c.entryIdForSource .localFs sourceId).filter fun id => !isFs id
  let ms := (entryId.bind c.entries.get).bind (·.durationMs)
  (ms.filter (0 < ·)).map fun ms => ms.toNat * 1000000

/-- What a probe says of its file, unless it says nothing. -/
def probeVerdict (c : Catalog) (sourceId : String) : FileProbe → Option (Option String)
  | .noAnswer => none
  | .garbled reason => some (some reason)
  | .answered duration streams =>
    some (unairableReason duration streams (c.catalogRuntime sourceId))

/-- A verdict goes on the file's own row, and on those of its entry that name the same file. -/
def recordVerdict (c : Catalog) (roots : List String) (sourceId : String)
    (reason : Option String) : Catalog :=
  let c := c.setSourceUnairable .localFs sourceId reason
  match c.entryIdForSource .localFs sourceId with
  | none => c
  | some entryId =>
    ((c.sourcesFor entryId).filter fun other =>
        other.1.1 ≠ .localFs && canonicalPath other.2.playbackPath roots = sourceId).foldl
      (fun c other => c.setSourceUnairable other.1.1 other.1.2 reason) c

end Catalog

def recordProbe (roots : List String) (acc : Catalog × ℕ) (probe : String × FileProbe) :
    Catalog × ℕ :=
  let sourceId := canonicalPath probe.1 roots
  match acc.1.probeVerdict sourceId probe.2 with
  | none => acc
  | some reason =>
    (acc.1.recordVerdict roots sourceId reason, if reason.isSome then acc.2 + 1 else acc.2)

def recordAirability (c : Catalog) (probes : List (String × FileProbe)) (roots : List String) :
    Catalog × ℕ :=
  probes.foldl (recordProbe roots) (c, 0)

/-- One filesystem pass: the files' rows, then the verdicts on them. -/
def ingestProbed (c : Catalog) (probes : List (String × FileProbe)) (roots : List String)
    (full : Bool) (now : Option String) : Catalog :=
  (recordAirability (ingestFiles c (probes.map fun p => (p.1, p.2.seconds)) roots full now)
    probes roots).1

abbrev Telling := String × Option String

def Catalog.told (c : Catalog) (k : Source × String) : Option Telling :=
  (c.sources.get k).map fun s => (s.playbackPath, s.unairableReason)

/-- What rows tell once one has been attached: its verdict stays while it names the same path. -/
def retold (told : Source × String → Option Telling) (k : Source × String) (path : String) :
    Source × String → Option Telling := fun k' =>
  if k' = k then some (path, (told k).bind fun v => if v.1 = path then v.2 else none) else told k'

section Tellings

theorem told_congr {c c' : Catalog} (h : c'.sources = c.sources) : c'.told = c.told := by
  funext k
  rw [Catalog.told, Catalog.told, h]

theorem addSource_told (c : Catalog) (s : EntrySource) :
    (c.addSource s).told = retold c.told (s.source, s.sourceId) s.playbackPath := by
  funext k
  unfold Catalog.addSource Catalog.told retold
  rw [Table.get_upsert]
  split_ifs
  · dsimp only
    rw [Option.map_some, Option.bind_map]
    rfl
  · rfl

/-- A write of the rows' other columns. -/
theorem update_told {c : Catalog} {f : Source × String → EntrySource → EntrySource}
    (hf : ∀ k s, (f k s).playbackPath = s.playbackPath ∧
      (f k s).unairableReason = s.unairableReason) (k : Source × String) :
    ((c.sources.update f).get k).map (fun s => (s.playbackPath, s.unairableReason)) = c.told k := by
  unfold Catalog.told
  rw [Table.get_update, Option.map_map]
  congr 1
  funext s
  exact Prod.ext (hf k s).1 (hf k s).2

theorem mergeEntry_told (c : Catalog) (loser survivor stamp : String) :
    (c.mergeEntry loser survivor stamp).told = c.told := by
  unfold Catalog.mergeEntry
  split_ifs
  · rfl
  · funext k
    refine update_told (fun k s => ?_) k
    split_ifs <;> exact ⟨rfl, rfl⟩

theorem sweep_told (c : Catalog) (source : Source) (full : Bool) (now : Option String) :
    (sweep c source full now).told = c.told := by
  unfold sweep
  split
  · funext k
    refine update_told (fun k s => ?_) k
    split_ifs <;> exact ⟨rfl, rfl⟩
  · rfl

theorem ingestFile_told (index : Table String String) (roots : List String)
    (now : Option String) (c : Catalog) (file : ProbedFile) :
    (ingestFile index roots now c file).told =
      retold c.told (.localFs, canonicalPath file.1 roots) file.1 := by
  unfold ingestFile
  rw [addSource_told]
  split_ifs <;> rfl

theorem PlexPass.item_told (roots : List String) (now : Option String) (p : PlexPass)
    (item : PlexItem) : (p.item roots now item).catalog.told =
      retold p.catalog.told (.plex, item.ratingKey) item.playbackPath := by
  rw [(item_eq roots now p item).1, told_congr (writeItem_tables _ roots now item _).1,
    addSource_told]
  cases p.stale roots item with
  | none => rfl
  | some loser => rw [mergeEntry_told]; rfl

theorem writeExtra_told (stamp : String) (c : Catalog) (item : ExtrasItem) :
    (writeExtra stamp c item).told = match item.livePath with
      | none => c.told
      | some path => retold c.told (.extras, item.itemId) path := by
  unfold writeExtra
  cases item.livePath with
  | none => rfl
  | some path =>
    dsimp only
    rw [addSource_told]
    rfl

/-- A verdict goes on the rows of the keys it is given for. -/
theorem foldl_setSourceUnairable (reason : Option String)
    (others : List ((Source × String) × EntrySource)) (c : Catalog) (k : Source × String) :
    (others.foldl (fun c other => c.setSourceUnairable other.1.1 other.1.2 reason) c).sources.get k =
      (c.sources.get k).map fun s =>
        if k ∈ others.map Prod.fst then { s with unairableReason := reason } else s := by
  induction others generalizing c with
  | nil => simp
  | cons other others ih =>
    rw [List.foldl_cons, ih, Catalog.setSourceUnairable]
    dsimp only
    rw [Table.get_update, Option.map_map]
    congr 1
    funext s
    simp only [Function.comp_apply, List.map_cons, List.mem_cons, Prod.mk.eta]
    by_cases hmem : k ∈ others.map Prod.fst
    · rw [if_pos hmem, if_pos (Or.inr hmem)]
      split_ifs <;> rfl
    · rw [if_neg hmem]
      simp only [hmem, or_false]

theorem mem_sourcesFor {c : Catalog} {entryId : String} {r : (Source × String) × EntrySource} :
    r ∈ c.sourcesFor entryId ↔ c.sources.get r.1 = some r.2 ∧ r.2.entryId = entryId := by
  unfold Catalog.sourcesFor
  rw [List.mem_insertionSort, List.mem_filter, decide_eq_true_iff]
  exact and_congr_left fun _ => Table.mem_rows

/-- The rows a verdict on a file goes on. -/
def Catalog.judges (c : Catalog) (roots : List String) (p : String) (k : Source × String)
    (s : EntrySource) : Prop :=
  k = (.localFs, p) ∨ k.1 ≠ .localFs ∧ canonicalPath s.playbackPath roots = p ∧
    c.owner (.localFs, p) = some s.entryId

instance (c : Catalog) (roots : List String) (p : String) (k : Source × String)
    (s : EntrySource) : Decidable (c.judges roots p k s) :=
  inferInstanceAs (Decidable (k = (.localFs, p) ∨ k.1 ≠ .localFs ∧
    canonicalPath s.playbackPath roots = p ∧ c.owner (.localFs, p) = some s.entryId))

theorem setSourceUnairable_get (c : Catalog) (source : Source) (id : String)
    (reason : Option String) (k : Source × String) :
    (c.setSourceUnairable source id reason).sources.get k = (c.sources.get k).map fun s =>
      if k = (source, id) then { s with unairableReason := reason } else s :=
  Table.get_update _ _ _

theorem setSourceUnairable_owner (c : Catalog) (source : Source) (id : String)
    (reason : Option String) : (c.setSourceUnairable source id reason).owner = c.owner := by
  funext k
  rw [Catalog.owner, Catalog.owner, setSourceUnairable_get, Option.map_map]
  congr 1
  funext s
  simp only [Function.comp_apply]
  split_ifs <;> rfl

/-- The rows of an entry, other than a file's own, that name the file. -/
theorem mem_otherRows {c : Catalog} {roots : List String} {entryId p : String}
    {k : Source × String} {s : EntrySource} (hget : c.sources.get k = some s) :
    k ∈ ((c.sourcesFor entryId).filter fun other =>
        other.1.1 ≠ .localFs && canonicalPath other.2.playbackPath roots = p).map Prod.fst ↔
      k.1 ≠ .localFs ∧ canonicalPath s.playbackPath roots = p ∧ s.entryId = entryId := by
  rw [List.mem_map]
  constructor
  · rintro ⟨r, hr, rfl⟩
    obtain ⟨hin, hnames⟩ := List.mem_filter.mp hr
    obtain ⟨hrow, hentryId⟩ := mem_sourcesFor.mp hin
    rw [hget, Option.some.injEq] at hrow
    rw [Bool.and_eq_true, decide_eq_true_iff, decide_eq_true_iff, ← hrow] at hnames
    exact ⟨hnames.1, hnames.2, by rw [hrow, hentryId]⟩
  · rintro ⟨hsource, hnames, hentryId⟩
    refine ⟨(k, s), List.mem_filter.mpr ⟨mem_sourcesFor.mpr ⟨hget, hentryId⟩, ?_⟩, rfl⟩
    rw [Bool.and_eq_true, decide_eq_true_iff, decide_eq_true_iff]
    exact ⟨hsource, hnames⟩

theorem recordVerdict_get (c : Catalog) (roots : List String) (p : String)
    (reason : Option String) (k : Source × String) :
    (c.recordVerdict roots p reason).sources.get k = (c.sources.get k).map fun s =>
      if c.judges roots p k s then { s with unairableReason := reason } else s := by
  unfold Catalog.recordVerdict
  set c₁ := c.setSourceUnairable .localFs p reason with hc₁
  have howner : c₁.entryIdForSource .localFs p = c.owner (.localFs, p) :=
    congrFun (setSourceUnairable_owner c .localFs p reason) _
  have hfirst := setSourceUnairable_get c .localFs p reason k
  rw [← hc₁] at hfirst
  dsimp only
  rw [howner]
  cases hentry : c.owner (.localFs, p) with
  | none =>
    dsimp only
    rw [hfirst]
    congr 1
    funext s
    simp only [Catalog.judges, hentry, reduceCtorEq, and_false, or_false]
  | some entryId =>
    dsimp only
    rw [foldl_setSourceUnairable]
    cases hget : c.sources.get k with
    | none =>
      rw [hget] at hfirst
      rw [hfirst]
      rfl
    | some s =>
      rw [hget, Option.map_some] at hfirst
      have hmem : k ∈ ((c₁.sourcesFor entryId).filter fun other =>
          other.1.1 ≠ .localFs && canonicalPath other.2.playbackPath roots = p).map Prod.fst ↔ _ :=
        mem_otherRows hfirst
      rw [hfirst, Option.map_some, Option.map_some, Option.some.injEq]
      by_cases hk : k = (.localFs, p)
      · have hjudged : c.judges roots p k s := Or.inl hk
        rw [if_pos hjudged, if_pos hk]
        split_ifs <;> rfl
      · rw [if_neg hk] at hmem ⊢
        have hjudges : c.judges roots p k s ↔ k ∈ ((c₁.sourcesFor entryId).filter fun other =>
            other.1.1 ≠ .localFs && canonicalPath other.2.playbackPath roots = p).map Prod.fst := by
          rw [hmem, Catalog.judges, hentry, Option.some.injEq, eq_comm (a := entryId)]
          exact or_iff_right hk
        exact if_congr hjudges.symm rfl rfl

theorem recordVerdict_owner (c : Catalog) (roots : List String) (p : String)
    (reason : Option String) : (c.recordVerdict roots p reason).owner = c.owner := by
  funext k
  rw [Catalog.owner, Catalog.owner, recordVerdict_get, Option.map_map]
  congr 1
  funext s
  simp only [Function.comp_apply]
  split_ifs <;> rfl

theorem recordVerdict_entries (c : Catalog) (roots : List String) (p : String)
    (reason : Option String) : (c.recordVerdict roots p reason).entries = c.entries := by
  have hfold : ∀ (others : List ((Source × String) × EntrySource)) (c : Catalog),
      (others.foldl (fun c other => c.setSourceUnairable other.1.1 other.1.2 reason) c).entries =
        c.entries := by
    intro others
    induction others with
    | nil => exact fun _ => rfl
    | cons other others ih => exact fun c => ih (c.setSourceUnairable other.1.1 other.1.2 reason)
  unfold Catalog.recordVerdict
  dsimp only
  split
  · rfl
  · exact hfold _ _

/-- What a verdict depends on: whose the file's row is, and the entries. -/
theorem probeVerdict_congr {c c' : Catalog} (howner : c'.owner = c.owner)
    (hentries : c'.entries = c.entries) : c'.probeVerdict = c.probeVerdict := by
  have hruntime : c'.catalogRuntime = c.catalogRuntime := by
    funext p
    have hrow : c'.entryIdForSource .localFs p = c.entryIdForSource .localFs p :=
      congrFun howner (.localFs, p)
    rw [Catalog.catalogRuntime, Catalog.catalogRuntime, hrow, hentries]
  funext p probe
  cases probe with
  | noAnswer => rfl
  | garbled reason => rfl
  | answered duration streams => rw [Catalog.probeVerdict, Catalog.probeVerdict, hruntime]

end Tellings

end EtvStation.Ingest
