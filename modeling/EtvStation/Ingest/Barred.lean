import EtvStation.Ingest.Airability

/-! What the scans have learned of the files, set beside what the rows tell of them: a file found
unairable is out of every pool as long as no row names it without its verdict. -/
namespace EtvStation.Ingest

open Lib (Table)

/-- Where a scan last found each file, and whether the last answer about it there was that it
cannot air. -/
structure Learned where
  path : String → Option String
  unairable : String → Bool

namespace Learned

def nothing : Learned := ⟨fun _ => none, fun _ => false⟩

/-- A scan comes upon a file. At another path than before nothing is known of it. -/
def seen (k : Learned) (roots : List String) (raw : String) : Learned :=
  let p := canonicalPath raw roots
  if k.path p = some raw then k
  else
    { path := Function.update k.path p (some raw)
      unairable := Function.update k.unairable p false }

def probed (k : Learned) (p : String) : Option (Option String) → Learned
  | none => k
  | some reason => { k with unairable := Function.update k.unairable p reason.isSome }

end Learned

inductive Visit
  | scan (probes : List (String × FileProbe)) (full : Bool) (now : Option String)
  | fetch (items : List PlexItem) (full : Bool) (now : Option String)
  | extras (listed : List ExtrasItem) (full : Bool) (stamp : String)

namespace Visit

variable (roots : List String)

def run (c : Catalog) : Visit → Catalog
  | scan probes full now => ingestProbed c probes roots full now
  | fetch items full now => writePass c items roots full now
  | extras listed full stamp => ingestExtras c listed full stamp

def scanned (c : Catalog) (probes : List (String × FileProbe)) (full : Bool)
    (now : Option String) : Catalog :=
  ingestFiles c (probes.map fun p => (p.1, p.2.seconds)) roots full now

def learn (c : Catalog) (k : Learned) : Visit → Learned
  | scan probes full now =>
    probes.foldl (fun k p => k.probed (canonicalPath p.1 roots)
      ((scanned roots c probes full now).probeVerdict (canonicalPath p.1 roots) p.2))
      (probes.foldl (fun k p => k.seen roots p.1) k)
  | _ => k

def step (s : Catalog × Learned) (v : Visit) : Option ((Catalog × Learned) × List Visit) :=
  some ((v.run roots s.1, v.learn roots s.1 s.2), [v])

/-- The states that passes which meet `ok` lead to from an empty catalog. -/
abbrev Runs (ok : Catalog × Learned → Visit → Prop) : Catalog × Learned → List Visit → Prop :=
  Lib.Traced (step roots) ok ({}, .nothing)

/-- A pass that brings unairable files no new name: a row it writes for one has named that path
before, and a file it finds unairable has no rows of two entries. -/
def Heeds (s : Catalog × Learned) : Visit → Prop
  | scan probes full now => ∀ p ∈ probes,
    ((scanned roots s.1 probes full now).probeVerdict (canonicalPath p.1 roots) p.2).join ≠ none →
      ∀ k r k' r', s.1.sources.get k = some r → s.1.sources.get k' = some r' →
        canonicalPath r.playbackPath roots = canonicalPath p.1 roots →
        canonicalPath r'.playbackPath roots = canonicalPath p.1 roots → r.entryId = r'.entryId
  | fetch items _ _ => ∀ item ∈ items, s.2.unairable (canonicalPath item.playbackPath roots) →
    (s.1.sources.get (.plex, item.ratingKey)).map (·.playbackPath) = some item.playbackPath ∧
      ∀ other ∈ items, other.ratingKey = item.ratingKey →
        other.playbackPath = item.playbackPath
  | extras listed _ _ => ∀ item ∈ listed, ∀ path ∈ item.livePath,
    s.2.unairable (canonicalPath path roots) →
      (s.1.sources.get (.extras, item.itemId)).map (·.playbackPath) = some path ∧
        ∀ other ∈ listed, other.itemId = item.itemId → ∀ path' ∈ other.livePath, path' = path

end Visit

/-- No live row that names an unairable file counts as airable, and no pool draws an entry that has
live rows when all of them name such files. -/
structure StaysOut (roots : List String) (s : Catalog × Learned) : Prop where
  rows : ∀ k r, s.1.sources.get k = some r → r.missingSince = none →
    s.2.unairable (canonicalPath r.playbackPath roots) → r.unairableReason ≠ none
  pools : ∀ clause id, (∃ k r, s.1.sources.get k = some r ∧ r.entryId = id ∧
      r.missingSince = none) →
    (∀ k r, s.1.sources.get k = some r → r.entryId = id → r.missingSince = none →
      s.2.unairable (canonicalPath r.playbackPath roots)) → id ∉ s.1.resolveQuery clause

/-- Every row that names an unairable file tells so, and each file of a scan has its row. -/
structure Upholds (roots : List String) (told : Source × String → Option Telling) (k : Learned) :
    Prop where
  held : ∀ key v, told key = some v → k.unairable (canonicalPath v.1 roots) → v.2 ≠ none
  found : ∀ p, k.path p = (told (.localFs, p)).map Prod.fst
  keyed : ∀ p v, told (.localFs, p) = some v → canonicalPath v.1 roots = p

section Upholds

variable {roots : List String} {told : Source × String → Option Telling} {k : Learned}

theorem retold_self (told : Source × String → Option Telling) (key : Source × String)
    (path : String) : retold told key path key =
      some (path, (told key).bind fun v => if v.1 = path then v.2 else none) := if_pos rfl

theorem retold_of_ne {key key' : Source × String} {path : String} (h : key' ≠ key) :
    retold told key path key' = told key' := if_neg h

/-- A row of another source may be attached, if it names no unairable file newly. -/
theorem Upholds.retold (h : Upholds roots told k) {key : Source × String} {path : String}
    (hsource : key.1 ≠ .localFs) (hnamed : k.unairable (canonicalPath path roots) →
      (told key).map Prod.fst = some path) : Upholds roots (Ingest.retold told key path) k := by
  have hlocal : ∀ p, (Source.localFs, p) ≠ key := fun p heq => hsource (heq ▸ rfl)
  constructor
  · intro key' v hv hbad
    by_cases hkey : key' = key
    · rw [hkey, retold_self, Option.some.injEq] at hv
      rw [← hv] at hbad ⊢
      obtain ⟨v₀, hv₀, hpath⟩ := Option.map_eq_some_iff.mp (hnamed hbad)
      dsimp only
      rw [hv₀, Option.bind_some, if_pos hpath]
      refine h.held key v₀ hv₀ ?_
      rw [hpath]
      exact hbad
    · rw [retold_of_ne hkey] at hv
      exact h.held key' v hv hbad
  · intro p
    rw [retold_of_ne (hlocal p)]
    exact h.found p
  · intro p v hv
    rw [retold_of_ne (hlocal p)] at hv
    exact h.keyed p v hv

/-- A scan attaches a file's own row. -/
theorem Upholds.seen (h : Upholds roots told k) (raw : String) :
    Upholds roots (Ingest.retold told (.localFs, canonicalPath raw roots) raw)
      (k.seen roots raw) := by
  set p := canonicalPath raw roots with hp
  have hkeyed : ∀ q v, Ingest.retold told (.localFs, p) raw (.localFs, q) = some v →
      canonicalPath v.1 roots = q := by
    intro q v hv
    by_cases hq : (Source.localFs, q) = (.localFs, p)
    · rw [hq, retold_self, Option.some.injEq] at hv
      rw [← hv, (Prod.mk.inj hq).2]
    · rw [retold_of_ne hq] at hv
      exact h.keyed q v hv
  unfold Learned.seen
  dsimp only
  rw [← hp]
  split_ifs with hpath
  · have hnamed : (told (.localFs, p)).map Prod.fst = some raw := (h.found p).symm.trans hpath
    obtain ⟨v₀, hv₀, hraw⟩ := Option.map_eq_some_iff.mp hnamed
    have hsame : Ingest.retold told (.localFs, p) raw = told := by
      funext key
      by_cases hkey : key = (.localFs, p)
      · rw [hkey, retold_self, hv₀, Option.bind_some, if_pos hraw, ← hraw]
      · exact retold_of_ne hkey
    rw [hsame]
    exact h
  · refine ⟨fun key v hv hbad => ?_, fun q => ?_, hkeyed⟩
    · dsimp only at hbad
      by_cases hv' : canonicalPath v.1 roots = p
      · rw [hv', Function.update_self] at hbad
        cases hbad
      · rw [Function.update_of_ne hv'] at hbad
        have hkey : key ≠ (.localFs, p) := by
          rintro rfl
          exact hv' (hkeyed p v hv)
        rw [retold_of_ne hkey] at hv
        exact h.held key v hv hbad
    · dsimp only
      by_cases hq : q = p
      · rw [hq, Function.update_self, retold_self]
        rfl
      · rw [Function.update_of_ne hq, retold_of_ne fun heq => hq (Prod.mk.inj heq).2]
        exact h.found q

/-- A pass over a list, each element of which has at most one row of another source attached. -/
theorem Upholds.foldl {σ α : Type} (view : σ → Catalog) {f : σ → α → σ}
    (row : α → Option ((Source × String) × String))
    (hf : ∀ s a, (view (f s a)).told =
      (row a).elim (view s).told fun r => Ingest.retold (view s).told r.1 r.2)
    {as : List α} (hsource : ∀ a ∈ as, ∀ r ∈ row a, r.1.1 ≠ .localFs)
    (hsteady : ∀ a ∈ as, ∀ r ∈ row a, k.unairable (canonicalPath r.2 roots) →
      ∀ b ∈ as, ∀ r' ∈ row b, r'.1 = r.1 → r'.2 = r.2)
    {s : σ} (h : Upholds roots (view s).told k)
    (hnamed : ∀ a ∈ as, ∀ r ∈ row a, k.unairable (canonicalPath r.2 roots) →
      ((view s).told r.1).map Prod.fst = some r.2) :
    Upholds roots (view (as.foldl f s)).told k := by
  induction as generalizing s with
  | nil => exact h
  | cons a as ih =>
    have hmem : ∀ b ∈ as, b ∈ a :: as := fun b hb => List.mem_cons_of_mem _ hb
    rw [List.foldl_cons]
    refine ih (fun b hb => hsource b (hmem b hb))
      (fun b hb r hr hbad c hc => hsteady b (hmem b hb) r hr hbad c (hmem c hc)) ?_ ?_
    · rw [hf]
      cases hrow : row a with
      | none => exact h
      | some r =>
        exact h.retold (hsource a List.mem_cons_self r hrow) (hnamed a List.mem_cons_self r hrow)
    · intro b hb r hr hbad
      rw [hf]
      cases hrow : row a with
      | none => exact hnamed b (hmem b hb) r hr hbad
      | some r' =>
        dsimp only [Option.elim_some]
        by_cases hkey : r.1 = r'.1
        · have hsame := hsteady b (hmem b hb) r hr hbad a List.mem_cons_self r' hrow hkey.symm
          rw [hkey, retold_self, Option.map_some, hsame]
        · rw [retold_of_ne hkey]
          exact hnamed b (hmem b hb) r hr hbad

/-- A scan's files, each with its own row. -/
theorem Upholds.files (index : Table String String) (now : Option String)
    (probes : List (String × FileProbe)) {c : Catalog} (h : Upholds roots c.told k) :
    Upholds roots
      ((probes.map fun p => (p.1, p.2.seconds)).foldl (ingestFile index roots now) c).told
      (probes.foldl (fun k p => k.seen roots p.1) k) := by
  induction probes generalizing c k with
  | nil => exact h
  | cons p probes ih =>
    rw [List.map_cons, List.foldl_cons, List.foldl_cons]
    apply ih
    rw [ingestFile_told]
    exact h.seen p.1

theorem told_eq_some {c : Catalog} {key : Source × String} {v : Telling} :
    c.told key = some v ↔
      ∃ s, c.sources.get key = some s ∧ (s.playbackPath, s.unairableReason) = v :=
  Option.map_eq_some_iff

/-- The rows that name a file are all of the entry its own row is of. -/
def Whole (roots : List String) (c : Catalog) (p : String) : Prop :=
  ∀ key s, c.sources.get key = some s → canonicalPath s.playbackPath roots = p →
    c.owner (.localFs, p) = some s.entryId

/-- A verdict is written, on every row of the file when it is against it. -/
theorem Upholds.recordVerdict {c : Catalog} (h : Upholds roots c.told k) {p : String}
    {reason : Option String} (hwhole : reason ≠ none → Whole roots c p) :
    Upholds roots (c.recordVerdict roots p reason).told (k.probed p (some reason)) := by
  have hpaths : ∀ key, ((c.recordVerdict roots p reason).told key).map Prod.fst =
      (c.told key).map Prod.fst := by
    intro key
    unfold Catalog.told
    rw [recordVerdict_get, Option.map_map, Option.map_map, Option.map_map]
    congr 1
    funext s
    simp only [Function.comp_apply]
    split_ifs <;> rfl
  have hkeyed : ∀ q v, (c.recordVerdict roots p reason).told (.localFs, q) = some v →
      canonicalPath v.1 roots = q := by
    intro q v hv
    have hpath := hpaths (.localFs, q)
    rw [hv, Option.map_some] at hpath
    obtain ⟨v₀, hv₀, hsame⟩ := Option.map_eq_some_iff.mp hpath.symm
    rw [← hsame]
    exact h.keyed q v₀ hv₀
  refine ⟨fun key v hv hbad => ?_, fun q => (h.found q).trans (hpaths _).symm, hkeyed⟩
  dsimp only [Learned.probed] at hbad
  obtain ⟨s', hs', hv'⟩ := told_eq_some.mp hv
  rw [recordVerdict_get, Option.map_eq_some_iff] at hs'
  obtain ⟨s, hs, hjudged⟩ := hs'
  have hlocal : key.1 = .localFs → canonicalPath s.playbackPath roots = key.2 := by
    intro hsource
    have hkey : key = (.localFs, key.2) := Prod.ext hsource rfl
    rw [hkey] at hs
    exact h.keyed key.2 (s.playbackPath, s.unairableReason) (told_eq_some.mpr ⟨s, hs, rfl⟩)
  by_cases hnames : canonicalPath s.playbackPath roots = p
  · have hsame : canonicalPath v.1 roots = p := by
      rw [← hv', ← hjudged, ← hnames]
      split_ifs <;> rfl
    rw [hsame, Function.update_self] at hbad
    have hreason : reason ≠ none := Option.isSome_iff_ne_none.mp hbad
    have hjudges : c.judges roots p key s := by
      by_cases hsource : key.1 = .localFs
      · exact Or.inl (Prod.ext hsource ((hlocal hsource).symm.trans hnames))
      · exact Or.inr ⟨hsource, hnames, hwhole hreason key s hs hnames⟩
    rw [if_pos hjudges] at hjudged
    rw [← hv', ← hjudged]
    exact hreason
  · have hspared : ¬ c.judges roots p key s := by
      rintro (hkey | ⟨-, hat, -⟩)
      · have hat := hlocal (congrArg Prod.fst hkey)
        exact hnames (hat.trans (congrArg Prod.snd hkey))
      · exact hnames hat
    rw [if_neg hspared] at hjudged
    rw [← hv', ← hjudged] at hbad ⊢
    dsimp only at hbad ⊢
    rw [Function.update_of_ne hnames] at hbad
    exact h.held key (s.playbackPath, s.unairableReason) (told_eq_some.mpr ⟨s, hs, rfl⟩) hbad

theorem Whole.recordVerdict {c : Catalog} {p : String} (h : Whole roots c p) (q : String)
    (reason : Option String) : Whole roots (c.recordVerdict roots q reason) p := by
  intro key s' hs' hnames
  rw [recordVerdict_get, Option.map_eq_some_iff] at hs'
  obtain ⟨s, hs, rfl⟩ := hs'
  rw [recordVerdict_owner]
  split_ifs at hnames ⊢
  · exact h key s hs hnames
  · exact h key s hs hnames

/-- A scan's verdicts, one after another. -/
theorem Upholds.probes (probes : List (String × FileProbe)) {c : Catalog} (n : ℕ)
    (h : Upholds roots c.told k) (hwhole : ∀ p ∈ probes,
      (c.probeVerdict (canonicalPath p.1 roots) p.2).join ≠ none →
        Whole roots c (canonicalPath p.1 roots)) :
    Upholds roots (probes.foldl (recordProbe roots) (c, n)).1.told
      (probes.foldl (fun k p => k.probed (canonicalPath p.1 roots)
        (c.probeVerdict (canonicalPath p.1 roots) p.2)) k) := by
  induction probes generalizing c n k with
  | nil => exact h
  | cons p probes ih =>
    have hrest : ∀ q ∈ probes, q ∈ p :: probes := fun q hq => List.mem_cons_of_mem _ hq
    rw [List.foldl_cons, List.foldl_cons, recordProbe]
    dsimp only
    cases hverdict : c.probeVerdict (canonicalPath p.1 roots) p.2 with
    | none => exact ih n h fun q hq => hwhole q (hrest q hq)
    | some reason =>
      have hsame := probeVerdict_congr (recordVerdict_owner c roots (canonicalPath p.1 roots) reason)
        (recordVerdict_entries c roots (canonicalPath p.1 roots) reason)
      dsimp only
      rw [← hsame]
      refine ih _ (h.recordVerdict fun hreason => ?_) fun q hq hbad => ?_
      · refine hwhole p List.mem_cons_self ?_
        rw [hverdict]
        exact hreason
      · rw [hsame] at hbad
        exact (hwhole q (hrest q hq) hbad).recordVerdict _ _

theorem Upholds.scanned {c : Catalog} (h : Upholds roots c.told k)
    (probes : List (String × FileProbe)) (full : Bool) (now : Option String) :
    Upholds roots (Visit.scanned roots c probes full now).told
      (probes.foldl (fun k p => k.seen roots p.1) k) := by
  unfold Visit.scanned ingestFiles
  rw [sweep_told]
  exact h.files _ now probes

/-- A file whose rows are of one entry has its own row go to that one. -/
theorem Upholds.whole {c : Catalog} (h : Upholds roots c.told k)
    (probes : List (String × FileProbe)) (full : Bool) (now : Option String) {raw : String}
    (hraw : raw ∈ probes.map Prod.fst)
    (hone : ∀ key r key' r', c.sources.get key = some r → c.sources.get key' = some r' →
      canonicalPath r.playbackPath roots = canonicalPath raw roots →
      canonicalPath r'.playbackPath roots = canonicalPath raw roots → r.entryId = r'.entryId) :
    Whole roots (Visit.scanned roots c probes full now) (canonicalPath raw roots) := by
  intro key s hs hnames
  have htold : (Visit.scanned roots c probes full now).told key =
      some (s.playbackPath, s.unairableReason) := told_eq_some.mpr ⟨s, hs, rfl⟩
  have howner : (Visit.scanned roots c probes full now).owner key = some s.entryId := by
    rw [Catalog.owner, hs]
    rfl
  by_cases hlocal : key.1 = .localFs
  · have hkey : key = (.localFs, key.2) := Prod.ext hlocal rfl
    rw [hkey] at htold howner
    have hown := (h.scanned probes full now).keyed key.2 _ htold
    rw [← hnames, hown]
    exact howner
  · -- The row is one the scan found, and the index has its entry for the path.
    obtain ⟨hrows, hfiles⟩ := foldl_ingestFile_rows roots (canonicalIndex c roots) now
      (probes.map fun p => (p.1, p.2.seconds)) c
    unfold Visit.scanned ingestFiles at howner htold ⊢
    rw [sweep_owner, Catalog.owner, hrows key hlocal] at howner
    rw [sweep_told, Catalog.told, hrows key hlocal] at htold
    obtain ⟨s₀, hs₀, hid⟩ := Option.map_eq_some_iff.mp howner
    rw [hs₀, Option.map_some, Option.some.injEq, Prod.mk.injEq] at htold
    have hnames₀ : canonicalPath s₀.playbackPath roots = canonicalPath raw roots := by
      rw [htold.1, hnames]
    have hindexed := (canonicalIndex_get c roots).2 key s₀ hs₀
    rw [hnames₀] at hindexed
    obtain ⟨id, hget⟩ := Option.isSome_iff_exists.mp hindexed
    obtain ⟨key', s', hs', hat, hid'⟩ := (canonicalIndex_get c roots).1 _ id hget
    have hmem : canonicalPath raw roots ∈
        (probes.map fun p => (p.1, p.2.seconds)).map fun file => canonicalPath file.1 roots := by
      obtain ⟨p, hp, rfl⟩ := List.mem_map.mp hraw
      exact List.mem_map.mpr ⟨(p.1, p.2.seconds), List.mem_map_of_mem hp, rfl⟩
    rw [sweep_owner, hfiles _ hmem, hget, Option.getD_some, ← hid, ← hid',
      hone key s₀ key' s' hs₀ hs' hnames₀ hat]

/-- What one pass preserves. -/
theorem Upholds.run {s : Catalog × Learned} (h : Upholds roots s.1.told s.2) {v : Visit}
    (hv : v.Heeds roots s) : Upholds roots (v.run roots s.1).told (v.learn roots s.1 s.2) := by
  cases v with
  | scan probes full now =>
    refine (h.scanned probes full now).probes probes 0 fun p hp hbad => ?_
    exact h.whole probes full now (List.mem_map_of_mem hp) (hv p hp hbad)
  | fetch items full now =>
    let row : PlexItem → Option ((Source × String) × String) := fun item =>
      some ((.plex, item.ratingKey), item.playbackPath)
    have hitems : Upholds roots (items.foldl (PlexPass.item roots now)
        ⟨s.1, canonicalIndex s.1 roots, []⟩).catalog.told s.2 := by
      refine Upholds.foldl PlexPass.catalog row (PlexPass.item_told roots now) ?_ ?_ h ?_
      · intro item _ r hr
        obtain rfl := Option.some.inj hr
        intro hsource
        cases hsource
      · intro item hitem r hr hbad other hother r' hr' hkey
        obtain rfl := Option.some.inj hr
        obtain rfl := Option.some.inj hr'
        exact (hv item hitem hbad).2 other hother (Prod.mk.inj hkey).2
      · intro item hitem r hr hbad
        obtain rfl := Option.some.inj hr
        have hnamed := (hv item hitem hbad).1
        rw [Catalog.told, Option.map_map]
        exact hnamed
    show Upholds roots (writePass s.1 items roots full now).told s.2
    rw [writePass, sweep_told, ingestItems, told_congr (reconcile_marked _ _).1]
    exact hitems
  | extras listed full stamp =>
    let row : ExtrasItem → Option ((Source × String) × String) := fun item =>
      item.livePath.map fun path => ((.extras, item.itemId), path)
    have hwrites : ∀ c item, (writeExtra stamp c item).told =
        (row item).elim c.told fun r => Ingest.retold c.told r.1 r.2 := by
      intro c item
      rw [writeExtra_told]
      show _ = (item.livePath.map _).elim _ _
      cases item.livePath <;> rfl
    have hlisted : Upholds roots (listed.foldl (writeExtra stamp) s.1).told s.2 := by
      refine Upholds.foldl id row hwrites ?_ ?_ h ?_
      · intro item _ r hr
        obtain ⟨path, -, rfl⟩ := Option.map_eq_some_iff.mp hr
        intro hsource
        cases hsource
      · intro item hitem r hr hbad other hother r' hr' hkey
        obtain ⟨path, hpath, rfl⟩ := Option.map_eq_some_iff.mp hr
        obtain ⟨path', hpath', rfl⟩ := Option.map_eq_some_iff.mp hr'
        exact (hv item hitem path hpath hbad).2 other hother (Prod.mk.inj hkey).2 path' hpath'
      · intro item hitem r hr hbad
        obtain ⟨path, hpath, rfl⟩ := Option.map_eq_some_iff.mp hr
        have hnamed := (hv item hitem path hpath hbad).1
        rw [id, Catalog.told, Option.map_map]
        exact hnamed
    show Upholds roots (ingestExtras s.1 listed full stamp).told s.2
    rw [ingestExtras, sweep_told]
    exact hlisted

theorem Upholds.init (roots : List String) :
    Upholds roots ({} : Catalog).told Learned.nothing := by
  refine ⟨fun _ _ hv => ?_, fun _ => rfl, fun _ _ hv => ?_⟩
  · cases hv
  · cases hv

/-- Where every row of an unairable file tells so, the pools go without it. -/
theorem Upholds.staysOut {s : Catalog × Learned} (h : Upholds roots s.1.told s.2) :
    StaysOut roots s := by
  have hrows : ∀ k r, s.1.sources.get k = some r →
      s.2.unairable (canonicalPath r.playbackPath roots) → r.unairableReason ≠ none :=
    fun k r hget hbad => h.held k _ (told_eq_some.mpr ⟨r, hget, rfl⟩) hbad
  refine ⟨fun k r hget _ hbad => hrows k r hget hbad, fun clause id hlive hall hin => ?_⟩
  unfold Catalog.resolveQuery at hin
  rw [List.mem_insertionSort] at hin
  obtain ⟨e, he, rfl⟩ := List.mem_map.mp hin
  have hkept := (List.mem_filter.mp he).2
  have hbarred : s.1.unairableFilter e.1 = false := by
    obtain ⟨k, r, hget, hid, hmissing⟩ := hlive
    have hreason := hrows k r hget (hall k r hget hid hmissing)
    have hsome : (s.1.sources.any fun _ s => s.entryId = e.1 && s.unairableReason.isSome &&
        s.missingSince.isNone) = true := by
      refine Table.any_eq_true.mpr ⟨k, r, hget, ?_⟩
      simp [hid, hmissing, Option.isSome_iff_ne_none.mpr hreason]
    have hnone : (s.1.sources.any fun _ a => a.entryId = e.1 && a.unairableReason.isNone &&
        a.missingSince.isNone) = false := by
      rw [Bool.eq_false_iff]
      intro hany
      obtain ⟨k', a, hget', ha⟩ := Table.any_eq_true.mp hany
      simp only [Bool.and_eq_true, decide_eq_true_eq, Option.isNone_iff_eq_none] at ha
      exact hrows k' a hget' (hall k' a hget' ha.1.1 ha.2) ha.1.2
    rw [Catalog.unairableFilter, hsome, hnone]
    rfl
  rw [hbarred, Bool.and_false] at hkept
  cases hkept

end Upholds

/-- A file found unairable stays out of every pool in every run whose passes bring unairable files
no new name. -/
theorem unairable_staysOut (roots : List String) {s : Catalog × Learned} {vs : List Visit}
    (h : Visit.Runs roots (fun s v => v.Heeds roots s) s vs) : StaysOut roots s := by
  have hupholds : Upholds roots s.1.told s.2 := by
    refine h.invariant (I := fun s _ => Upholds roots s.1.told s.2) (.init roots) ?_
    intro s vs v s' vs' hI hok hstep
    obtain ⟨rfl, rfl⟩ := Prod.mk.inj (Option.some.inj hstep)
    exact hI.run hok
  exact hupholds.staysOut

def brokenFile : String × FileProbe :=
  ("/media/movies/Broken.mkv", .garbled "format.duration missing")

/-- A scan finds one film and one file that cannot air. -/
def scanBoth : Visit :=
  .scan [brokenFile, ("/media/movies/Heat.mkv", .answered 10200000000000 [.video, .audio])] true
    (some "1")

/-- Plex then lists the film. -/
theorem unairable_staysOut_listed : ∃ s vs,
    Visit.Runs [] (fun s v => v.Heeds [] s) s vs ∧ s.2.unairable "/media/movies/Broken.mkv" ∧
      (s.1.sources.get (.plex, "7")).isSome ∧ StaysOut [] s := by
  have hscan : scanBoth.Heeds [] ({}, .nothing) := by
    intro p _ _ k r k' r' hget
    cases hget
  have hfetch : (Visit.fetch [heat] true (some "2")).Heeds []
      (scanBoth.run [] {}, scanBoth.learn [] {} .nothing) := by
    intro item hitem hbad
    rw [List.mem_singleton.mp hitem] at hbad
    have hfine : (scanBoth.learn [] {} .nothing).unairable
        (canonicalPath heat.playbackPath []) = false := by decide
    rw [hfine] at hbad
    cases hbad
  let c₁ := scanBoth.run [] {}
  let k₁ := scanBoth.learn [] {} .nothing
  have hfirst : Visit.Runs [] (fun s v => v.Heeds [] s) (c₁, k₁) [scanBoth] :=
    Lib.Traced.init.step hscan rfl
  have hruns : Visit.Runs [] (fun s v => v.Heeds [] s)
      ((Visit.fetch [heat] true (some "2")).run [] c₁, k₁)
      [scanBoth, .fetch [heat] true (some "2")] := hfirst.step hfetch rfl
  exact ⟨_, _, hruns, by decide, by decide, unairable_staysOut [] hruns⟩

def broken : PlexItem where
  ratingKey := "8"
  playbackPath := "/media/movies/Broken.mkv"
  kind := "movie"
  title := "Broken"

/-- The row Plex adds after the scan has no verdict, and a pool draws the file. -/
theorem late_row_airs : ∃ s vs, Visit.Runs [] (fun _ _ => True) s vs ∧
    s.2.unairable "/media/movies/Broken.mkv" ∧
    s.1.resolveQuery (fun e => e.title = "Broken") =
      [deriveEntryId [] "/media/movies/Broken.mkv"] ∧ ¬ StaysOut [] s := by
  have hfollow : (Lib.follow (Visit.step []) (fun _ _ => True) (({}, .nothing), [])
      [.scan [brokenFile] true (some "1"), .fetch [broken] true (some "2")]).any fun r =>
        r.1.2.unairable "/media/movies/Broken.mkv" ∧
        r.1.1.resolveQuery (fun e => e.title = "Broken") =
          [deriveEntryId [] "/media/movies/Broken.mkv"] ∧
        (r.1.1.sources.get (.plex, "8")).any fun row => row.missingSince = none ∧
          row.unairableReason = none ∧ row.playbackPath = "/media/movies/Broken.mkv" := by decide
  obtain ⟨r, hr, hsaid⟩ := (Option.any_eq_true _ _).mp hfollow
  obtain ⟨hbad, hdrawn, hrow⟩ := of_decide_eq_true hsaid
  refine ⟨r.1, r.2, Lib.Traced.init.follow hr, hbad, hdrawn, fun h => ?_⟩
  obtain ⟨row, hget, hfree⟩ := (Option.any_eq_true _ _).mp hrow
  obtain ⟨hlive, hnone, hpath⟩ := of_decide_eq_true hfree
  refine h.rows _ row hget hlive ?_ hnone
  rw [hpath]
  exact hbad

end EtvStation.Ingest
