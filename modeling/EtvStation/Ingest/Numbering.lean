import EtvStation.Ingest.Pinned
import Mathlib.Data.List.Dedup

/-! Absolute numbers. A pass settles the numbers of the shows its items are in; a show an episode
leaves is settled by the next pass that lands an item in it. -/
namespace EtvStation.Ingest

open Lib (Table)

/-- All a show's numbering reads of an entry, and writes. -/
structure EpisodeRow where
  key : String
  entryId : String
  showId : Option String
  season : Option ℤ
  episode : Option ℤ
  absolute : Option ℤ
  plex : Option ℤ

def episodeRow (r : String × Entry) : EpisodeRow where
  key := r.1
  entryId := r.2.entryId
  showId := r.2.showId
  season := r.2.season
  episode := r.2.episode
  absolute := r.2.absoluteEpisode
  plex := r.2.plexAbsoluteEpisode

namespace EpisodeRow

def numbered (e : EpisodeRow) : Catalog.Numbered :=
  ⟨e.entryId, e.plex, e.absolute, e.season.any (1 ≤ ·) && e.episode.isSome⟩

/-- By season, episode and id. -/
def Before (a b : EpisodeRow) : Prop :=
  ((Catalog.nullsFirst a.season b.season).then ((Catalog.nullsFirst a.episode b.episode).then
    (compare a.entryId b.entryId))) ≠ .gt

instance : DecidableRel Before := fun _ _ => inferInstanceAs (Decidable (_ ≠ Ordering.gt))

end EpisodeRow

namespace Catalog

def episodeRows (c : Catalog) : List EpisodeRow := c.entries.rows.map episodeRow

/-- A show's rows in the order they are numbered. -/
def inOrder (rows : List EpisodeRow) (showId : String) : List EpisodeRow :=
  (rows.filter (·.showId = some showId)).insertionSort EpisodeRow.Before

theorem showRows_eq (c : Catalog) (showId : String) :
    c.showRows showId = (inOrder c.episodeRows showId).map EpisodeRow.numbered := by
  let rel := fun a b : String × Entry => (episodeRow a).Before (episodeRow b)
  let rows := c.entries.rows.filter fun r => r.2.showId = some showId
  have hrows : (rows.insertionSort rel).map episodeRow = inOrder c.episodeRows showId := by
    rw [List.map_insertionSort rel EpisodeRow.Before episodeRow rows fun a _ b _ => Iff.rfl,
      inOrder, episodeRows, List.filter_map]
    rfl
  have hentries : (rows.insertionSort rel).map Prod.snd =
      ((c.entries.rows.map Prod.snd).filter fun e => e.showId = some showId).insertionSort
        fun a b => ((nullsFirst a.season b.season).then ((nullsFirst a.episode b.episode).then
          (compare a.entryId b.entryId))) ≠ .gt := by
    rw [List.map_insertionSort rel (fun a b : Entry => ((nullsFirst a.season b.season).then
      ((nullsFirst a.episode b.episode).then (compare a.entryId b.entryId))) ≠ .gt) Prod.snd rows
        fun a _ b _ => Iff.rfl, List.filter_map]
    rfl
  rw [← hrows, List.map_map]
  unfold showRows
  dsimp only
  rw [← hentries, List.map_map]
  rfl

end Catalog

/-! ## One show settled -/

/-- The numbers a show is to have are those it has. -/
def SettledIn (rows : List EpisodeRow) (showId : String) : Prop :=
  Catalog.wantedNumbers ((Catalog.inOrder rows showId).map EpisodeRow.numbered) =
    (Catalog.inOrder rows showId).map fun e => (e.entryId, e.absolute)

/-- The computed numbers, from the one after `next` on. -/
theorem computed_eq (rows : List Catalog.Numbered) (acc : List (String × Option ℤ)) (next : ℤ) :
    (rows.foldl (fun (acc : List (String × Option ℤ) × ℤ) r =>
      if r.regular then (acc.1 ++ [(r.entryId, some (acc.2 + 1))], acc.2 + 1)
      else (acc.1 ++ [(r.entryId, none)], acc.2)) (acc, next)).1.map Prod.fst =
        acc.map Prod.fst ++ rows.map (·.entryId) := by
  induction rows generalizing acc next with
  | nil => simp
  | cons r rows ih =>
    rw [List.foldl_cons]
    split_ifs
    · rw [ih]
      simp
    · rw [ih]
      simp

theorem wantedNumbers_fst (rows : List Catalog.Numbered) :
    (Catalog.wantedNumbers rows).map Prod.fst = rows.map (·.entryId) := by
  unfold Catalog.wantedNumbers
  split_ifs
  · rw [List.map_map]
    rfl
  · exact computed_eq rows [] 0

/-- The numbers a show is to have do not depend on those it has. -/
theorem wantedNumbers_congr {rows rows' : List Catalog.Numbered}
    (h : rows.map (fun r => (r.entryId, r.plex, r.regular)) =
      rows'.map fun r => (r.entryId, r.plex, r.regular)) :
    Catalog.wantedNumbers rows = Catalog.wantedNumbers rows' := by
  have hall : (rows.all fun r => !r.regular || r.plex.isSome) =
      rows'.all fun r => !r.regular || r.plex.isSome := by
    have hmap := congrArg (·.all fun t => !t.2.2 || t.2.1.isSome) h
    rwa [List.all_map, List.all_map] at hmap
  have hplex : rows.map (fun r => (r.entryId, r.plex)) = rows'.map fun r => (r.entryId, r.plex) := by
    have hmap := congrArg (·.map fun t => (t.1, t.2.1)) h
    rwa [List.map_map, List.map_map] at hmap
  have hfold : ∀ (acc : List (String × Option ℤ) × ℤ),
      rows.foldl (fun (acc : List (String × Option ℤ) × ℤ) r =>
        if r.regular then (acc.1 ++ [(r.entryId, some (acc.2 + 1))], acc.2 + 1)
        else (acc.1 ++ [(r.entryId, none)], acc.2)) acc =
      rows'.foldl (fun (acc : List (String × Option ℤ) × ℤ) r =>
        if r.regular then (acc.1 ++ [(r.entryId, some (acc.2 + 1))], acc.2 + 1)
        else (acc.1 ++ [(r.entryId, none)], acc.2)) acc := by
    intro acc
    have hmap := congrArg (·.foldl (fun (acc : List (String × Option ℤ) × ℤ)
      (t : String × Option ℤ × Bool) =>
        if t.2.2 then (acc.1 ++ [(t.1, some (acc.2 + 1))], acc.2 + 1)
        else (acc.1 ++ [(t.1, none)], acc.2)) acc) h
    rwa [List.foldl_map, List.foldl_map] at hmap
  unfold Catalog.wantedNumbers
  rw [hall, hplex, hfold]

def EpisodeRow.renumber (wanted : List (String × Option ℤ)) (e : EpisodeRow) : EpisodeRow :=
  { e with absolute := (wanted.lookup e.key).getD e.absolute }

theorem setAbsoluteEpisode_rows (c : Catalog) (id : String) (w : Option ℤ) :
    (c.setAbsoluteEpisode id w).episodeRows =
      c.episodeRows.map fun e => if e.key = id then { e with absolute := w } else e := by
  simp only [Catalog.episodeRows, Catalog.setAbsoluteEpisode, Table.update, List.map_map]
  apply List.map_congr_left
  intro r _
  simp only [Function.comp_apply]
  split_ifs with hid hkey
  · rfl
  · exact absurd hid hkey
  · next hkey => exact absurd hkey hid
  · rfl

theorem foldl_set_rows (wanted : List (String × Option ℤ)) (hnodup : (wanted.map Prod.fst).Nodup)
    (c : Catalog) : (wanted.foldl (fun c w => c.setAbsoluteEpisode w.1 w.2) c).episodeRows =
      c.episodeRows.map (EpisodeRow.renumber wanted) := by
  induction wanted generalizing c with
  | nil =>
    have hid : EpisodeRow.renumber [] = id := rfl
    rw [hid, List.map_id]
    rfl
  | cons w wanted ih =>
    obtain ⟨id, number⟩ := w
    rw [List.map_cons, List.nodup_cons] at hnodup
    rw [List.foldl_cons, ih hnodup.2, setAbsoluteEpisode_rows, List.map_map]
    apply List.map_congr_left
    intro e _
    simp only [Function.comp_apply]
    split_ifs with hkey
    · have hnone : wanted.lookup id = none := by
        apply List.lookup_eq_none_iff.mpr
        intro p hp
        rw [bne_iff_ne]
        exact fun heq => hnodup.1 (List.mem_map.mpr ⟨p, hp, heq.symm⟩)
      simp only [EpisodeRow.renumber, hkey, hnone, List.lookup_cons, beq_self_eq_true,
        Option.getD_some, Option.getD_none]
    · have hne : (e.key == id) = false := beq_eq_false_iff_ne.mpr hkey
      simp only [EpisodeRow.renumber, List.lookup_cons, hne]

/-- Renumbering keeps the rows of a show and their order. -/
theorem inOrder_renumber (wanted : List (String × Option ℤ)) (rows : List EpisodeRow)
    (showId : String) : Catalog.inOrder (rows.map (EpisodeRow.renumber wanted)) showId =
      (Catalog.inOrder rows showId).map (EpisodeRow.renumber wanted) := by
  rw [Catalog.inOrder, Catalog.inOrder, List.filter_map]
  exact (List.map_insertionSort EpisodeRow.Before EpisodeRow.Before (EpisodeRow.renumber wanted)
    (rows.filter (·.showId = some showId)) fun _ _ _ _ => Iff.rfl).symm

theorem mem_inOrder {rows : List EpisodeRow} {showId : String} {e : EpisodeRow} :
    e ∈ Catalog.inOrder rows showId ↔ e ∈ rows ∧ e.showId = some showId := by
  rw [Catalog.inOrder, List.mem_insertionSort, List.mem_filter, decide_eq_true_eq]

/-- Rows under their own ids, no two under one. -/
structure Keyed (rows : List EpisodeRow) : Prop where
  own : ∀ e ∈ rows, e.entryId = e.key
  nodup : (rows.map (·.key)).Nodup

namespace Keyed

variable {rows : List EpisodeRow} {showId : String}

theorem renumber (h : Keyed rows) (wanted : List (String × Option ℤ)) :
    Keyed (rows.map (EpisodeRow.renumber wanted)) where
  own := by
    intro e he
    obtain ⟨e', he', rfl⟩ := List.mem_map.mp he
    exact h.own e' he'
  nodup := by
    rw [List.map_map]
    exact h.nodup

theorem inOrder_nodup (h : Keyed rows) (showId : String) :
    ((Catalog.inOrder rows showId).map (·.entryId)).Nodup := by
  have hkeys : (Catalog.inOrder rows showId).map (·.entryId) =
      (Catalog.inOrder rows showId).map (·.key) :=
    List.map_congr_left fun e he => h.own e (mem_inOrder.mp he).1
  have hperm : (Catalog.inOrder rows showId).Perm (rows.filter (·.showId = some showId)) :=
    List.perm_insertionSort _ _
  rw [hkeys, (hperm.map _).nodup_iff]
  exact h.nodup.sublist (List.filter_sublist.map _)

/-- The numbers a show is to have, one for each of its rows. -/
theorem wanted_fst (rows : List EpisodeRow) (showId : String) :
    (Catalog.wantedNumbers ((Catalog.inOrder rows showId).map EpisodeRow.numbered)).map Prod.fst =
      (Catalog.inOrder rows showId).map (·.entryId) := by
  rw [wantedNumbers_fst, List.map_map]
  rfl

/-- Written over a show's rows, its numbers are settled. -/
theorem settled_renumber (h : Keyed rows) (showId : String) :
    SettledIn (rows.map (EpisodeRow.renumber
      (Catalog.wantedNumbers ((Catalog.inOrder rows showId).map EpisodeRow.numbered)))) showId := by
  have hnodup := h.inOrder_nodup showId
  have hfst := wanted_fst rows showId
  have hown : ∀ e ∈ Catalog.inOrder rows showId, e.entryId = e.key :=
    fun e he => h.own e (mem_inOrder.mp he).1
  unfold SettledIn
  rw [inOrder_renumber, List.map_map, List.map_map]
  generalize Catalog.inOrder rows showId = ordered at hnodup hfst hown ⊢
  have hsame : Catalog.wantedNumbers (ordered.map (EpisodeRow.numbered ∘
      EpisodeRow.renumber (Catalog.wantedNumbers (ordered.map EpisodeRow.numbered)))) =
        Catalog.wantedNumbers (ordered.map EpisodeRow.numbered) := by
    apply wantedNumbers_congr
    rw [List.map_map, List.map_map]
    rfl
  rw [hsame]
  generalize Catalog.wantedNumbers (ordered.map EpisodeRow.numbered) = wanted at hfst ⊢
  have hwanted : (wanted.map Prod.fst).Nodup := by
    rw [hfst]
    exact hnodup
  apply List.ext_getElem?
  intro i
  have hi := congrArg (·[i]?) hfst
  simp only [List.getElem?_map] at hi ⊢
  cases hw : wanted[i]? with
  | none =>
    rw [hw] at hi
    cases he : ordered[i]? with
    | none => rfl
    | some e =>
      rw [he] at hi
      cases hi
  | some w =>
    rw [hw] at hi
    cases he : ordered[i]? with
    | none =>
      rw [he] at hi
      cases hi
    | some e =>
      rw [he] at hi
      have hid : w.1 = e.entryId := Option.some.inj hi
      have hlookup : wanted.lookup e.key = some w.2 := by
        rw [Lib.lookup_eq_some_iff_mem hwanted, ← hown e (List.mem_of_getElem? he), ← hid]
        exact List.mem_of_getElem? hw
      simp only [Option.map_some, Function.comp_apply, EpisodeRow.renumber, hlookup,
        Option.getD_some, ← hid]

/-- The rows of another show keep their numbers. -/
theorem other_renumber (h : Keyed rows) {showId other : String} (hne : other ≠ showId) :
    Catalog.inOrder (rows.map (EpisodeRow.renumber
      (Catalog.wantedNumbers ((Catalog.inOrder rows showId).map EpisodeRow.numbered)))) other =
        Catalog.inOrder rows other := by
  rw [inOrder_renumber]
  refine (List.map_congr_left ?_).trans (List.map_id _)
  intro e he
  obtain ⟨hmem, hshow⟩ := mem_inOrder.mp he
  have hnone : (Catalog.wantedNumbers
      ((Catalog.inOrder rows showId).map EpisodeRow.numbered)).lookup e.key = none := by
    apply List.lookup_eq_none_iff.mpr
    intro p hp
    rw [bne_iff_ne]
    intro heq
    have hfst : p.1 ∈ (Catalog.inOrder rows showId).map (·.entryId) := by
      rw [← wanted_fst rows]
      exact List.mem_map_of_mem hp
    obtain ⟨e', he', hid⟩ := List.mem_map.mp hfst
    obtain ⟨hmem', hshow'⟩ := mem_inOrder.mp he'
    have hkey : e'.key = e.key := by
      rw [← h.own e' hmem', hid, heq]
    have hsame : e' = e := List.inj_on_of_nodup_map h.nodup hmem' hmem hkey
    rw [hsame, hshow] at hshow'
    exact hne (Option.some.inj hshow')
  simp only [EpisodeRow.renumber, hnone, Option.getD_none, id]

end Keyed

/-- Whatever was settled before stays so, and so become the shows settled now. -/
theorem reconcile_settled (c : Catalog) (h : Keyed c.episodeRows) (showIds : List String) :
    Keyed (c.reconcileAbsoluteEpisodes showIds).episodeRows ∧
      ∀ showId, showId ∈ showIds ∨ SettledIn c.episodeRows showId →
        SettledIn (c.reconcileAbsoluteEpisodes showIds).episodeRows showId := by
  induction showIds generalizing c with
  | nil =>
    refine ⟨h, fun showId hsettled => ?_⟩
    exact hsettled.resolve_left List.not_mem_nil
  | cons first showIds ih =>
    have hnodup : ((Catalog.wantedNumbers (c.showRows first)).map Prod.fst).Nodup := by
      rw [Catalog.showRows_eq, Keyed.wanted_fst]
      exact h.inOrder_nodup first
    have hrows := foldl_set_rows _ hnodup c
    have hrec : c.reconcileAbsoluteEpisodes (first :: showIds) =
        ((Catalog.wantedNumbers (c.showRows first)).foldl
          (fun c w => c.setAbsoluteEpisode w.1 w.2) c).reconcileAbsoluteEpisodes showIds := rfl
    rw [hrec]
    generalize (Catalog.wantedNumbers (c.showRows first)).foldl
      (fun c w => c.setAbsoluteEpisode w.1 w.2) c = c₁ at hrows
    rw [Catalog.showRows_eq] at hrows
    have hkeyed : Keyed c₁.episodeRows := by
      rw [hrows]
      exact h.renumber _
    obtain ⟨hlast, hrest⟩ := ih c₁ hkeyed
    refine ⟨hlast, fun showId hsettled => hrest showId ?_⟩
    by_cases hfirst : showId = first
    · right
      rw [hrows, hfirst]
      exact h.settled_renumber first
    · refine hsettled.imp ?_ ?_
      · exact fun hmem => (List.mem_cons.mp hmem).resolve_left hfirst
      · intro hbefore
        unfold SettledIn at hbefore ⊢
        rw [hrows, h.other_renumber hfirst]
        exact hbefore

/-! ## What a pass writes -/

/-- The entries a pass writes, each with the show it lands it in. -/
abbrev Landings := List (String × Option String)

def Landings.ids (l : Landings) : List String := l.map Prod.fst

theorem Landings.mem_append {l l' : Landings} {id : String} :
    id ∈ Landings.ids (l ++ l') ↔ id ∈ l.ids ∨ id ∈ l'.ids := by
  rw [Landings.ids, List.map_append, List.mem_append]
  rfl

def Landings.shows (l : Landings) : List (Option String) := l.map Prod.snd

/-- Writes that touch the rows of their own entries only. -/
structure Carried (rows : List EpisodeRow) (l : Landings) (rows' : List EpisodeRow) : Prop where
  keyed : Keyed rows → Keyed rows'
  kept : rows'.filter (fun e => e.key ∉ l.ids) = rows.filter fun e => e.key ∉ l.ids
  landed : ∀ e ∈ rows', e.key ∈ l.ids → ∀ showId, e.showId = some showId →
    some showId ∈ l.shows

namespace Carried

variable {rows rows' rows'' : List EpisodeRow} {l l' : Landings}

theorem refl (rows : List EpisodeRow) : Carried rows [] rows where
  keyed := id
  kept := rfl
  landed := fun _ _ hmem => absurd hmem List.not_mem_nil

theorem trans (h : Carried rows l rows') (h' : Carried rows' l' rows'') :
    Carried rows (l ++ l') rows'' where
  keyed := h'.keyed ∘ h.keyed
  kept := by
    have hsplit : ∀ rows : List EpisodeRow, rows.filter (fun e => e.key ∉ Landings.ids (l ++ l')) =
        (rows.filter fun e => e.key ∉ l.ids).filter fun e => e.key ∉ l'.ids := by
      intro rows
      rw [List.filter_filter]
      apply List.filter_congr
      intro e _
      rw [Bool.eq_iff_iff, Bool.and_eq_true, decide_eq_true_iff, decide_eq_true_iff,
        decide_eq_true_iff, Landings.mem_append, not_or]
      exact and_comm
    have hswap : ∀ rows : List EpisodeRow,
        (rows.filter fun e => e.key ∉ l.ids).filter (fun e => e.key ∉ l'.ids) =
          (rows.filter fun e => e.key ∉ l'.ids).filter fun e => e.key ∉ l.ids := by
      intro rows
      rw [List.filter_filter, List.filter_filter]
      apply List.filter_congr
      intro e _
      rw [Bool.and_comm]
    rw [hsplit, hsplit, hswap, h'.kept, ← hswap, h.kept]
  landed := by
    intro e he hmem showId hshow
    rw [Landings.shows, List.map_append, List.mem_append]
    by_cases hlast : e.key ∈ l'.ids
    · exact Or.inr (h'.landed e he hlast showId hshow)
    · left
      have hfirst : e.key ∈ l.ids := by
        exact (Landings.mem_append.mp hmem).resolve_right hlast
      have hbefore : e ∈ rows'.filter fun e => e.key ∉ l'.ids := by
        rw [← h'.kept]
        exact List.mem_filter.mpr ⟨he, decide_eq_true hlast⟩
      exact h.landed e (List.mem_filter.mp hbefore).1 hfirst showId hshow

/-- A show none of the landings is in keeps its rows, where they were all left alone, and loses
them, where all were written. -/
theorem inOrder_eq (h : Carried rows l rows') {showId : String}
    (hshow : some showId ∉ l.shows)
    (hwhole : ∀ e ∈ rows, ∀ e' ∈ rows, e.showId = some showId → e'.showId = some showId →
      e.key ∈ l.ids → e'.key ∈ l.ids) :
    Catalog.inOrder rows' showId = Catalog.inOrder rows showId ∨
      Catalog.inOrder rows' showId = [] := by
  have hrows' : rows'.filter (·.showId = some showId) =
      (rows.filter fun e => e.key ∉ l.ids).filter (·.showId = some showId) := by
    rw [← h.kept, List.filter_filter]
    apply List.filter_congr
    intro e he
    by_cases hin : e.showId = some showId
    · have hout : e.key ∉ l.ids := fun hmem => hshow (h.landed e he hmem showId hin)
      simp [hin, hout]
    · simp [hin]
  unfold Catalog.inOrder
  rw [hrows']
  by_cases hany : ∃ e ∈ rows, e.showId = some showId ∧ e.key ∈ l.ids
  · right
    obtain ⟨e, he, hin, hmem⟩ := hany
    have hnone : (rows.filter fun e => e.key ∉ l.ids).filter (·.showId = some showId) = [] := by
      apply List.filter_eq_nil_iff.mpr
      intro e' he' hin'
      obtain ⟨hmem', hout⟩ := List.mem_filter.mp he'
      exact of_decide_eq_true hout
        (hwhole e he e' hmem' hin (of_decide_eq_true hin') hmem)
    rw [hnone]
    rfl
  · left
    congr 1
    rw [List.filter_filter]
    apply List.filter_congr
    intro e he
    by_cases hin : e.showId = some showId
    · have hout : e.key ∉ l.ids := fun hmem => hany ⟨e, he, hin, hmem⟩
      simp [hin, hout]
    · simp [hin]

theorem settled (h : Carried rows l rows') {showId : String} (hshow : some showId ∉ l.shows)
    (hwhole : ∀ e ∈ rows, ∀ e' ∈ rows, e.showId = some showId → e'.showId = some showId →
      e.key ∈ l.ids → e'.key ∈ l.ids) (hsettled : SettledIn rows showId) :
    SettledIn rows' showId := by
  unfold SettledIn at hsettled ⊢
  rcases h.inOrder_eq hshow hwhole with heq | hnil
  · rw [heq]
    exact hsettled
  · rw [hnil]
    rfl

end Carried

/-! ## Passes -/

namespace PlexPass

/-- The catalog an item is written to, once the `fs:` entry of its path is folded in. -/
def folded (roots : List String) (now : Option String) (p : PlexPass) (item : PlexItem) :
    Catalog :=
  match p.stale roots item with
  | some loser => p.catalog.mergeEntry loser (p.entryOf roots item) (now.getD "")
  | none => p.catalog

/-- The entry an item goes to, and the show it lands it in. -/
def landing (roots : List String) (now : Option String) (p : PlexPass) (item : PlexItem) :
    String × Option String :=
  (p.entryOf roots item,
    (plexEntry (p.folded roots now item) roots item (p.entryOf roots item)).showId)

def landings (roots : List String) (now : Option String) : PlexPass → List PlexItem → Landings
  | _, [] => []
  | p, item :: items =>
    p.landing roots now item :: landings roots now (p.item roots now item) items

end PlexPass

/-- What a pass writes: its items' entries, the `fs:` entries its files go to, or its extras. -/
def Pass.landings (c : Catalog) : Pass → Landings
  | .files scanned roots _ _ =>
    ((scanned.map fun file => (fileEntry (canonicalIndex c roots) roots file).1).filter isFs).map
      fun id => (id, none)
  | .items fetched roots _ stamp =>
    PlexPass.landings roots (some stamp) ⟨c, canonicalIndex c roots, []⟩ fetched
  | .extras listed _ _ =>
    (listed.filterMap fun item => item.livePath.map fun _ => item.itemId).map fun id => (id, none)

/-- A pass that writes an entry of a show lands an item in that show, or writes all its entries. -/
def Pass.LeavesWhole (c : Catalog) (p : Pass) : Prop :=
  ∀ e ∈ c.episodeRows, ∀ e' ∈ c.episodeRows, e.showId ≠ none → e'.showId = e.showId →
    e.showId ∉ (p.landings c).shows → e.key ∈ (p.landings c).ids → e'.key ∈ (p.landings c).ids

instance (c : Catalog) : DecidablePred (Pass.LeavesWhole c) := fun _ =>
  inferInstanceAs (Decidable (∀ _ ∈ _, ∀ _ ∈ _, _))

theorem update_rows {c c' : Catalog} {f : String → Entry → Entry}
    (hc : c'.entries = c.entries.update f)
    (hf : ∀ r : String × Entry, episodeRow (r.1, f r.1 r.2) = episodeRow r) :
    c'.episodeRows = c.episodeRows := by
  rw [Catalog.episodeRows, Catalog.episodeRows, hc, Table.update, List.map_map]
  exact List.map_congr_left fun r _ => hf r

theorem mergeEntry_rows (c : Catalog) (loser survivor stamp : String) :
    (c.mergeEntry loser survivor stamp).episodeRows = c.episodeRows := by
  unfold Catalog.mergeEntry
  split_ifs
  · rfl
  · refine update_rows (f := fun id e =>
      if id = loser then { e with missingSince := some stamp } else e) rfl fun r => ?_
    split_ifs
    · rfl
    · rfl

theorem markEntries_rows (c : Catalog) (stamp : String) :
    (c.markEntriesMissingWithoutLiveSources stamp).episodeRows = c.episodeRows := by
  refine update_rows (f := fun id e => if !c.hasLiveSource id && e.missingSince.isNone then
    { e with missingSince := some stamp } else e) rfl fun r => ?_
  split_ifs
  · rfl
  · rfl

theorem sweep_episodeRows (c : Catalog) (source : Source) (full : Bool) (now : Option String) :
    (sweep c source full now).episodeRows = c.episodeRows := by
  unfold sweep
  split
  · exact markEntries_rows _ _
  · rfl

theorem keys_nodup (c : Catalog) : (c.episodeRows.map (·.key)).Nodup := by
  rw [Catalog.episodeRows, List.map_map]
  exact c.entries.keyed

theorem mem_episodeRows {c : Catalog} {e : EpisodeRow} :
    e ∈ c.episodeRows ↔ ∃ v, c.entries.get e.key = some v ∧ episodeRow (e.key, v) = e := by
  constructor
  · intro h
    obtain ⟨r, hr, rfl⟩ := List.mem_map.mp h
    exact ⟨r.2, Table.mem_rows.mp hr, rfl⟩
  · rintro ⟨v, hget, heq⟩
    exact List.mem_map.mpr ⟨_, Table.mem_rows.mpr hget, heq⟩

theorem filter_episodeRows (c : Catalog) (id : String) :
    c.episodeRows.filter (fun e => e.key ∉ Landings.ids [(id, none)]) =
      (c.entries.rows.filter fun r => r.1 ≠ id).map episodeRow := by
  rw [Catalog.episodeRows, List.filter_map]
  congr 1
  apply List.filter_congr
  intro r _
  rw [Bool.eq_iff_iff, Function.comp_apply, decide_eq_true_iff, decide_eq_true_iff]
  exact not_congr List.mem_singleton

/-- Writing an entry touches its own row only. -/
theorem upsertEntry_carried (c : Catalog) (e : Entry) :
    Carried c.episodeRows [(e.entryId, e.showId)] (c.upsertEntry e).episodeRows where
  keyed := by
    intro h
    refine ⟨?_, keys_nodup _⟩
    intro r hr
    obtain ⟨v, hget, heq⟩ := mem_episodeRows.mp hr
    rw [Catalog.upsertEntry, Table.get_upsert] at hget
    rw [← heq]
    split_ifs at hget with hkey
    · obtain rfl := Option.some.inj hget
      exact hkey.symm
    · have hold : episodeRow (r.key, v) ∈ c.episodeRows := mem_episodeRows.mpr ⟨v, hget, rfl⟩
      exact h.own _ hold
  kept := by
    have hrows := c.entries.filter_upsert e.entryId fun old =>
      { e with
        missingSince := none
        plexAbsoluteEpisode := old.bind (·.plexAbsoluteEpisode) }
    exact (filter_episodeRows _ _).trans
      ((congrArg (List.map episodeRow) hrows).trans (filter_episodeRows c e.entryId).symm)
  landed := by
    intro r hr hmem showId hshow
    have hkey : r.key = e.entryId := List.mem_singleton.mp hmem
    obtain ⟨v, hget, heq⟩ := mem_episodeRows.mp hr
    rw [Catalog.upsertEntry, Table.get_upsert, if_pos hkey] at hget
    obtain rfl := Option.some.inj hget
    rw [← heq] at hshow
    exact List.mem_singleton.mpr hshow.symm

theorem setPlex_carried {c : Catalog} {rows : List EpisodeRow} {landing : String × Option String}
    (value : Option ℤ) (h : Carried rows [landing] c.episodeRows) :
    Carried rows [landing] (c.setPlexAbsoluteEpisode landing.1 value).episodeRows := by
  have hrows : (c.setPlexAbsoluteEpisode landing.1 value).episodeRows =
      c.episodeRows.map fun e => if e.key = landing.1 then { e with plex := value } else e := by
    simp only [Catalog.episodeRows, Catalog.setPlexAbsoluteEpisode, Table.update, List.map_map]
    apply List.map_congr_left
    intro r _
    simp only [Function.comp_apply]
    split_ifs with hid hkey
    · rfl
    · exact absurd hid hkey
    · next hkey => exact absurd hkey hid
    · rfl
  constructor
  · intro hkeyed
    refine ⟨?_, keys_nodup _⟩
    intro e he
    rw [hrows] at he
    obtain ⟨e', he', rfl⟩ := List.mem_map.mp he
    split_ifs
    · exact (h.keyed hkeyed).own e' he'
    · exact (h.keyed hkeyed).own e' he'
  · rw [← h.kept, hrows, List.filter_map]
    have hsame : c.episodeRows.filter ((fun e => decide (e.key ∉ Landings.ids [landing])) ∘
        fun e => if e.key = landing.1 then { e with plex := value } else e) =
          c.episodeRows.filter fun e => e.key ∉ Landings.ids [landing] := by
      apply List.filter_congr
      intro e _
      rw [Function.comp_apply]
      split_ifs
      · rfl
      · rfl
    rw [hsame]
    refine (List.map_congr_left ?_).trans (List.map_id _)
    intro e he
    have hout : e.key ∉ Landings.ids [landing] := of_decide_eq_true (List.mem_filter.mp he).2
    have hne : e.key ≠ landing.1 := fun heq => hout (List.mem_singleton.mpr heq)
    rw [if_neg hne]
    rfl
  · intro e he hmem showId hshow
    rw [hrows] at he
    obtain ⟨e', he', rfl⟩ := List.mem_map.mp he
    split_ifs at hmem hshow
    · exact h.landed e' he' hmem showId hshow
    · exact h.landed e' he' hmem showId hshow

theorem writeItem_carried (c : Catalog) (roots : List String) (now : Option String)
    (item : PlexItem) (entryId : String) :
    Carried c.episodeRows [(entryId, (plexEntry c roots item entryId).showId)]
      (writeItem c roots now item entryId).episodeRows := by
  have hentries : (writeItem c roots now item entryId).entries =
      ((c.upsertEntry (plexEntry c roots item entryId)).setPlexAbsoluteEpisode entryId
        (plexEntry c roots item entryId).absoluteEpisode).entries := by
    unfold writeItem
    dsimp only
    rw [(writeTags_tables _ _ _).entries]
    exact (foldl_addExternalId _ _ _ _).2
  have hwrite := setPlex_carried (plexEntry c roots item entryId).absoluteEpisode
    (upsertEntry_carried c (plexEntry c roots item entryId))
  have hrows : (writeItem c roots now item entryId).episodeRows =
      ((c.upsertEntry (plexEntry c roots item entryId)).setPlexAbsoluteEpisode entryId
        (plexEntry c roots item entryId).absoluteEpisode).episodeRows := by
    rw [Catalog.episodeRows, hentries]
    rfl
  rw [hrows]
  exact hwrite

namespace PlexPass

variable (roots : List String) (now : Option String)

theorem item_carried (p : PlexPass) (item : PlexItem) :
    Carried p.catalog.episodeRows [p.landing roots now item]
        (p.item roots now item).catalog.episodeRows ∧
      (p.item roots now item).touchedShows =
        p.touchedShows ++ (p.landing roots now item).2.toList := by
  have hfolded : (p.folded roots now item).episodeRows = p.catalog.episodeRows := by
    unfold folded
    cases p.stale roots item with
    | none => rfl
    | some loser => exact mergeEntry_rows _ _ _ _
  have hwrite := writeItem_carried (p.folded roots now item) roots now item (p.entryOf roots item)
  rw [hfolded] at hwrite
  unfold PlexPass.item
  dsimp only
  rw [← pathMatch, ← entryOf, ← stale]
  unfold landing folded at *
  cases hstale : p.stale roots item with
  | none =>
    rw [hstale] at hwrite
    exact ⟨hwrite, rfl⟩
  | some loser =>
    rw [hstale] at hwrite
    exact ⟨hwrite, rfl⟩

theorem items_carried (p : PlexPass) (items : List PlexItem) :
    Carried p.catalog.episodeRows (landings roots now p items)
        (items.foldl (PlexPass.item roots now) p).catalog.episodeRows ∧
      (items.foldl (PlexPass.item roots now) p).touchedShows =
        p.touchedShows ++ (landings roots now p items).filterMap Prod.snd := by
  induction items generalizing p with
  | nil => exact ⟨.refl _, (List.append_nil _).symm⟩
  | cons item items ih =>
    obtain ⟨hone, htouched⟩ := p.item_carried roots now item
    obtain ⟨hrest, hlast⟩ := ih (p.item roots now item)
    refine ⟨hone.trans hrest, ?_⟩
    rw [List.foldl_cons, hlast, htouched, landings, List.append_assoc, List.filterMap_cons]
    cases (p.landing roots now item).2 with
    | none => rfl
    | some showId => rfl

end PlexPass

theorem ingestFile_carried (index : Table String String) (roots : List String)
    (now : Option String) (c : Catalog) (files : List ProbedFile) :
    Carried c.episodeRows
      (((files.map fun file => (fileEntry index roots file).1).filter isFs).map fun id => (id, none))
      (files.foldl (ingestFile index roots now) c).episodeRows := by
  induction files generalizing c with
  | nil => exact .refl _
  | cons file files ih =>
    have hrest := ih (ingestFile index roots now c file)
    rw [List.map_cons, List.filter_cons]
    by_cases hfs : isFs (fileEntry index roots file).1 = true
    · rw [if_pos hfs, List.map_cons]
      have hone : Carried c.episodeRows [((fileEntry index roots file).1, none)]
          (ingestFile index roots now c file).episodeRows := by
        unfold ingestFile
        dsimp only
        rw [if_pos hfs]
        exact upsertEntry_carried c (fsEntry c (fileEntry index roots file).1 file)
      exact hone.trans hrest
    · rw [if_neg hfs]
      have hone : (ingestFile index roots now c file).episodeRows = c.episodeRows := by
        unfold ingestFile
        dsimp only
        rw [if_neg hfs]
        rfl
      rw [hone] at hrest
      exact hrest

theorem writeExtra_carried (stamp : String) (c : Catalog) (items : List ExtrasItem) :
    Carried c.episodeRows
      ((items.filterMap fun item => item.livePath.map fun _ => item.itemId).map fun id => (id, none))
      (items.foldl (writeExtra stamp) c).episodeRows := by
  induction items generalizing c with
  | nil => exact .refl _
  | cons item items ih =>
    have hrest := ih (writeExtra stamp c item)
    rw [List.filterMap_cons]
    cases hpath : item.livePath with
    | none =>
      have hone : writeExtra stamp c item = c := by
        unfold writeExtra
        rw [hpath]
      rw [hone] at hrest
      rw [List.foldl_cons, hone]
      exact hrest
    | some path =>
      have hone : Carried c.episodeRows [(item.itemId, none)]
          (writeExtra stamp c item).episodeRows := by
        unfold writeExtra
        rw [hpath]
        exact upsertEntry_carried c
          { entryId := item.itemId
            kind := item.kind
            title := item.title
            primarySource := .extras
            year := item.year
            durationMs := item.durationMs
            library := some item.library }
      exact hone.trans hrest

/-- Every show's numbers are settled, its rows under their own ids. -/
structure Catalog.Settled (c : Catalog) : Prop where
  keyed : Keyed c.episodeRows
  settled : ∀ showId, SettledIn c.episodeRows showId

/-- A pass that leaves each show whole leaves all of them settled. -/
theorem Pass.run_settled {c : Catalog} (h : c.Settled) {p : Pass} (hp : p.LeavesWhole c) :
    (p.run c).Settled := by
  have hwhole : ∀ showId, some showId ∉ (p.landings c).shows →
      ∀ e ∈ c.episodeRows, ∀ e' ∈ c.episodeRows, e.showId = some showId →
        e'.showId = some showId → e.key ∈ (p.landings c).ids → e'.key ∈ (p.landings c).ids := by
    intro showId hout e he e' he' hshow hshow'
    apply hp e he e' he'
    · rw [hshow]
      simp
    · rw [hshow, hshow']
    · rw [hshow]
      exact hout
  have hplain : ∀ c' : Catalog, Carried c.episodeRows (p.landings c) c'.episodeRows →
      (∀ showId, some showId ∉ (p.landings c).shows) → c'.Settled := by
    intro c' hcarried hnone
    refine ⟨hcarried.keyed h.keyed, fun showId => ?_⟩
    exact hcarried.settled (hnone showId) (hwhole showId (hnone showId)) (h.settled showId)
  have hnone : ∀ (ids : List String) showId,
      some showId ∉ Landings.shows (ids.map fun id => (id, none)) := by
    intro ids showId hmem
    rw [Landings.shows, List.map_map] at hmem
    obtain ⟨id, -, heq⟩ := List.mem_map.mp hmem
    cases heq
  cases p with
  | files scanned roots full stamp =>
    apply hplain
    · rw [Pass.run, ingestFiles, sweep_episodeRows]
      exact ingestFile_carried _ roots (some stamp) c scanned
    · exact hnone _
  | extras listed full stamp =>
    apply hplain
    · rw [Pass.run, ingestExtras, sweep_episodeRows]
      exact writeExtra_carried stamp c listed
    · exact hnone _
  | items fetched roots full stamp =>
    obtain ⟨hcarried, htouched⟩ := PlexPass.items_carried roots (some stamp)
      ⟨c, canonicalIndex c roots, []⟩ fetched
    have hmem : ∀ showId, some showId ∈ (Pass.landings c (.items fetched roots full stamp)).shows →
        showId ∈ (fetched.foldl (PlexPass.item roots (some stamp))
          ⟨c, canonicalIndex c roots, []⟩).touchedShows.dedup.insertionSort (· ≤ ·) := by
      intro showId hshow
      obtain ⟨landing, hlanding, heq⟩ := List.mem_map.mp hshow
      rw [List.mem_insertionSort, List.mem_dedup, htouched]
      exact List.mem_append_right _ (List.mem_filterMap.mpr ⟨landing, hlanding, heq⟩)
    obtain ⟨hkeyed, hsettled⟩ := reconcile_settled _ (hcarried.keyed h.keyed)
      ((fetched.foldl (PlexPass.item roots (some stamp))
        ⟨c, canonicalIndex c roots, []⟩).touchedShows.dedup.insertionSort (· ≤ ·))
    have hrows : (Pass.run c (.items fetched roots full stamp)).episodeRows =
        ((fetched.foldl (PlexPass.item roots (some stamp))
          ⟨c, canonicalIndex c roots, []⟩).catalog.reconcileAbsoluteEpisodes
            ((fetched.foldl (PlexPass.item roots (some stamp))
              ⟨c, canonicalIndex c roots, []⟩).touchedShows.dedup.insertionSort
                (· ≤ ·))).episodeRows := by
      rw [Pass.run, writePass, sweep_episodeRows]
      rfl
    constructor
    · rw [hrows]
      exact hkeyed
    · intro showId
      rw [hrows]
      apply hsettled
      by_cases hshow : some showId ∈ (Pass.landings c (.items fetched roots full stamp)).shows
      · exact Or.inl (hmem showId hshow)
      · exact Or.inr (hcarried.settled hshow (hwhole showId hshow) (h.settled showId))

/-! ## What settled numbers are -/

/-- Plex's numbers where it has one for every regular episode, else the regular episodes in order
from 1 on and none for the others. -/
def Catalog.AbsoluteSettled (c : Catalog) (showId : String) : Prop :=
  (∀ r ∈ c.showRows showId, (r.regular → r.plex.isSome) ∧ r.current = r.plex) ∨
  (((c.showRows showId).filter (·.regular)).map (·.current) =
      (List.range ((c.showRows showId).countP (·.regular))).map (fun i : ℕ => some ((i : ℤ) + 1)) ∧
    ∀ r ∈ c.showRows showId, ¬ r.regular → r.current = none)

instance (c : Catalog) : DecidablePred c.AbsoluteSettled := fun _ =>
  inferInstanceAs (Decidable ((∀ _ ∈ _, _ ∧ _) ∨ (_ ∧ ∀ _ ∈ _, _)))

/-- The regular episodes numbered on from `next`, the others without a number. -/
def computed (next : ℤ) : List Catalog.Numbered → List (String × Option ℤ)
  | [] => []
  | r :: rows =>
    if r.regular then (r.entryId, some (next + 1)) :: computed (next + 1) rows
    else (r.entryId, none) :: computed next rows

theorem foldl_computed (rows : List Catalog.Numbered) (acc : List (String × Option ℤ)) (next : ℤ) :
    (rows.foldl (fun (acc : List (String × Option ℤ) × ℤ) r =>
      if r.regular then (acc.1 ++ [(r.entryId, some (acc.2 + 1))], acc.2 + 1)
      else (acc.1 ++ [(r.entryId, none)], acc.2)) (acc, next)).1 = acc ++ computed next rows := by
  induction rows generalizing acc next with
  | nil => exact (List.append_nil acc).symm
  | cons r rows ih =>
    rw [List.foldl_cons, computed]
    split_ifs
    · rw [ih, List.append_assoc]
      rfl
    · rw [ih, List.append_assoc]
      rfl

theorem computed_settled {rows : List Catalog.Numbered} {next : ℤ}
    (h : computed next rows = rows.map fun r => (r.entryId, r.current)) :
    (rows.filter (·.regular)).map (·.current) =
        (List.range (rows.countP (·.regular))).map (fun i : ℕ => some (next + (i : ℤ) + 1)) ∧
      ∀ r ∈ rows, ¬ r.regular → r.current = none := by
  induction rows generalizing next with
  | nil => exact ⟨rfl, fun _ hr => absurd hr List.not_mem_nil⟩
  | cons r rows ih =>
    rw [computed, List.map_cons] at h
    split_ifs at h with hregular
    · obtain ⟨hhead, htail⟩ := List.cons.inj h
      obtain ⟨hnumbers, hothers⟩ := ih htail
      have hcurrent : r.current = some (next + 1) := (Prod.mk.inj hhead).2.symm
      constructor
      · rw [List.filter_cons_of_pos hregular, List.map_cons, List.countP_cons_of_pos hregular,
          List.range_succ_eq_map, List.map_cons, hnumbers, hcurrent, List.map_map, Nat.cast_zero,
          add_zero]
        congr 1
        apply List.map_congr_left
        intro i _
        simp only [Function.comp_apply, Nat.cast_succ, Option.some.injEq]
        omega
      · intro r' hr' hnot
        rcases List.mem_cons.mp hr' with rfl | hr'
        · exact absurd hregular hnot
        · exact hothers r' hr' hnot
    · obtain ⟨hhead, htail⟩ := List.cons.inj h
      obtain ⟨hnumbers, hothers⟩ := ih htail
      constructor
      · rw [List.filter_cons_of_neg hregular, List.countP_cons_of_neg hregular]
        exact hnumbers
      · intro r' hr' hnot
        rcases List.mem_cons.mp hr' with rfl | hr'
        · exact (Prod.mk.inj hhead).2.symm
        · exact hothers r' hr' hnot

namespace Catalog.Settled

variable {c : Catalog}

theorem wanted_eq (h : c.Settled) (showId : String) :
    wantedNumbers (c.showRows showId) =
      (c.showRows showId).map fun r => (r.entryId, r.current) := by
  rw [showRows_eq, List.map_map]
  exact h.settled showId

theorem absolute (h : c.Settled) (showId : String) : c.AbsoluteSettled showId := by
  have hwanted := h.wanted_eq showId
  unfold wantedNumbers at hwanted
  split_ifs at hwanted with hall
  · left
    intro r hr
    constructor
    · intro hregular
      have hplex := List.all_eq_true.mp hall r hr
      rw [hregular] at hplex
      exact hplex
    · have heq := List.map_inj_left.mp hwanted r hr
      exact (Prod.mk.inj heq).2.symm
  · right
    rw [foldl_computed, List.nil_append] at hwanted
    have hsettled := computed_settled hwanted
    simp only [zero_add] at hsettled
    exact hsettled

/-- Settling any shows again changes no number. -/
theorem reconcile_rows (h : c.Settled) (showIds : List String) :
    (c.reconcileAbsoluteEpisodes showIds).episodeRows = c.episodeRows := by
  induction showIds generalizing c with
  | nil => rfl
  | cons first showIds ih =>
    have hnodup : ((wantedNumbers (c.showRows first)).map Prod.fst).Nodup := by
      rw [showRows_eq, Keyed.wanted_fst]
      exact h.keyed.inOrder_nodup first
    have hrows := foldl_set_rows _ hnodup c
    have hsame : c.episodeRows.map (EpisodeRow.renumber (wantedNumbers (c.showRows first))) =
        c.episodeRows := by
      refine (List.map_congr_left ?_).trans (List.map_id _)
      intro e he
      have hwanted := h.settled first
      unfold SettledIn at hwanted
      cases hlookup : (wantedNumbers (c.showRows first)).lookup e.key with
      | none =>
        unfold EpisodeRow.renumber
        rw [hlookup]
        rfl
      | some number =>
        have hmem := (Lib.lookup_eq_some_iff_mem hnodup).mp hlookup
        rw [showRows_eq, hwanted] at hmem
        obtain ⟨e', he', heq⟩ := List.mem_map.mp hmem
        obtain ⟨hid, hnumber⟩ := Prod.mk.inj heq
        have hmem' := (mem_inOrder.mp he').1
        have hkey : e'.key = e.key := by
          rw [← h.keyed.own e' hmem', hid]
        have hsame : e' = e := List.inj_on_of_nodup_map h.keyed.nodup hmem' he hkey
        rw [hsame] at hnumber
        unfold EpisodeRow.renumber
        rw [hlookup, ← hnumber]
        rfl
    have hrec : c.reconcileAbsoluteEpisodes (first :: showIds) =
        ((wantedNumbers (c.showRows first)).foldl
          (fun c w => c.setAbsoluteEpisode w.1 w.2) c).reconcileAbsoluteEpisodes showIds := rfl
    rw [hrec]
    generalize (wantedNumbers (c.showRows first)).foldl
      (fun c w => c.setAbsoluteEpisode w.1 w.2) c = c₁ at hrows
    rw [hsame] at hrows
    have hsettled : c₁.Settled := by
      refine ⟨?_, fun showId => ?_⟩
      · rw [hrows]
        exact h.keyed
      · rw [hrows]
        exact h.settled showId
    rw [ih hsettled, hrows]

end Catalog.Settled

theorem Pass.Runs.settled {c : Catalog} {ps : List Pass}
    (h : Pass.Runs (fun c p => p.LeavesWhole c) c ps) : c.Settled := by
  refine h.invariant (I := fun c _ => c.Settled) ?_ ?_
  · exact ⟨⟨fun _ he => absurd he List.not_mem_nil, List.nodup_nil⟩, fun _ => rfl⟩
  · intro c ps p c' ps' hI hok hstep
    obtain ⟨rfl, rfl⟩ := Prod.mk.inj (Option.some.inj hstep)
    exact Pass.run_settled hI hok

/-- As long as every pass leaves whole the shows it lands no item in, each show's numbers are
settled after every pass, and settling any of them again changes none. -/
theorem absolute_settled {c : Catalog} {ps : List Pass}
    (h : Pass.Runs (fun c p => p.LeavesWhole c) c ps) :
    (∀ showId, c.AbsoluteSettled showId) ∧
      ∀ showIds, (c.reconcileAbsoluteEpisodes showIds).episodeRows = c.episodeRows :=
  ⟨h.settled.absolute, h.settled.reconcile_rows⟩

def episodeOf (ratingKey showRatingKey : String) (episode : ℤ) : PlexItem where
  ratingKey
  playbackPath := "/media/tv/" ++ ratingKey ++ ".mkv"
  kind := "episode"
  title := ratingKey
  showRatingKey := some showRatingKey
  season := some 1
  episode := some episode

def bothEpisodes : Pass := .items [episodeOf "e1" "100" 1, episodeOf "e2" "100" 2] [] true "1"

def refetch : Pass := .items [episodeOf "e2" "100" 2] [] false "2"

/-- The first episode alone, in another show. -/
def rematch : Pass := .items [episodeOf "e1" "200" 1] [] false "2"

theorem absolute_settled_refetched : ∃ c ps, Pass.Runs (fun c p => p.LeavesWhole c) c ps ∧
    ps.length = 2 ∧ (∀ showId, c.AbsoluteSettled showId) ∧
      ∀ showIds, (c.reconcileAbsoluteEpisodes showIds).episodeRows = c.episodeRows := by
  have hfollow : (Lib.follow Pass.step (fun c p => p.LeavesWhole c) ({}, []) [bothEpisodes, refetch]).any
      (fun r => r.2.length = 2) := by decide
  obtain ⟨r, hr, hlen⟩ := (Option.any_eq_true _ _).mp hfollow
  have hruns : Pass.Runs (fun c p => p.LeavesWhole c) r.1 r.2 := Lib.Traced.init.follow hr
  have hsettled := absolute_settled hruns
  exact ⟨r.1, r.2, hruns, of_decide_eq_true hlen, hsettled.1, hsettled.2⟩

/-- The episode left behind keeps the number it had after the other one. -/
theorem rematched_unsettled : ∃ c, Pass.Runs (fun _ _ => True) c [bothEpisodes, rematch] ∧
    ∃ showId, ¬ c.AbsoluteSettled showId := by
  have hfirst : Pass.step {} bothEpisodes = some (bothEpisodes.run {}, [bothEpisodes]) := rfl
  have hsecond : Pass.step (bothEpisodes.run {}) rematch =
      some (rematch.run (bothEpisodes.run {}), [rematch]) := rfl
  have hrun : Pass.Runs (fun _ _ => True) (rematch.run (bothEpisodes.run {}))
      ([] ++ [bothEpisodes] ++ [rematch]) :=
    (Lib.Traced.init.step trivial hfirst).step trivial hsecond
  have hleft : ((rematch.run (bothEpisodes.run {})).entries.rows.any fun e =>
      e.2.showId.any fun s =>
        !decide ((rematch.run (bothEpisodes.run {})).AbsoluteSettled s)) = true := by
    decide
  obtain ⟨e, -, he⟩ := List.any_eq_true.mp hleft
  obtain ⟨showId, -, hnot⟩ := (Option.any_eq_true _ _).mp he
  rw [Bool.not_eq_true', decide_eq_false_iff_not] at hnot
  exact ⟨_, hrun, showId, hnot⟩

end EtvStation.Ingest
