import EtvStation.Bumper.Filled
import EtvStation.Emit

/-! One generation of the catch-up: where it joins its list, what it hands on to be emitted, and
the ledger rows it records. -/
namespace EtvStation

open Bumper
open Lib (F64)

variable {β : Type}

structure PlayRecord where
  entryId : String
  showId : Option String
  start : ℤ
  errorCard : Bool
  deriving DecidableEq, Repr

/-- How many items the generation skips, and when the first of the others begins: the very first
one joins its list where the time since a past anchor says. -/
def joinAt (anchor : Option ℤ) (firstGeneration : Bool) (from_ : ℤ) (durations : List ℕ) :
    ℕ × ℤ :=
  match anchor.filter fun _ => firstGeneration with
  | some anchor =>
    let (skip, into) := phaseAt anchor from_ durations
    (skip, from_ - into)
  | none => (0, from_)

/-- A row for every item that is not a bumper, laid end to end from `from_`. -/
def playRecords (showIds : String → Option String) (from_ : ℤ) (items : Sequential β) :
    List PlayRecord :=
  (items.itemSpans from_).filterMap fun e =>
    if e.1.bumper.isSome then none
    else some ⟨e.1.id, showIds e.1.id, e.2.1, e.1.errorCard⟩

/-- A generation, probed: what it lays, its end state, and the show of each entry. -/
structure Generation (β : Type) where
  laid : Laid β
  endProgress : Progress
  showIds : String → Option String

/-- What a generation comes to: its items with the bumpers among them, of which the first `skip`
are not handed on, and the instant the others begin. -/
structure Handed (β : Type) where
  items : Sequential β
  skip : ℕ
  seqStart : ℤ

namespace Handed

variable (h : Handed β)

def rule : Sequential β := h.items.drop h.skip

def span (from_ : ℤ) : ℤ := h.rule.totalDuration - (from_ - h.seqStart)

end Handed

def Generation.hand (g : Generation β) (env : FillEnv β) (anchor : Option ℤ)
    (firstGeneration : Bool) (from_ : ℤ) : Handed β :=
  let (skip, seqStart) := joinAt anchor firstGeneration from_ g.laid.durations
  let out := fillGaps env g.laid skip seqStart (seqStart = from_) g.endProgress
  ⟨out.items.zip out.durations, skip, seqStart⟩

def Generation.records (g : Generation β) (h : Handed β) (from_ : ℤ) : List PlayRecord :=
  playRecords g.showIds from_ h.items

/-- The chunk windows a generation is emitted in: from the cursor to the end of its chunk. -/
def emitWindows (grid : ChunkGrid) (to_ : ℤ) : (fuel : ℕ) → ℤ → List (ℤ × ℤ)
  | 0, _ => []
  | fuel + 1, cursor =>
    if cursor < to_ then
      (cursor, grid.next (grid.boundary cursor)) ::
        emitWindows grid to_ fuel (grid.next (grid.boundary cursor))
    else []

section Windows

variable {grid : ChunkGrid} {to_ : ℤ}

theorem emitWindows_bounds (fuel : ℕ) {cursor : ℤ} :
    ∀ w ∈ emitWindows grid to_ fuel cursor, cursor ≤ w.1 ∧ w.1 < to_ ∧ w.1 < w.2 ∧
      (w.1 = cursor ∨ grid.boundary w.1 = w.1) ∧ w.2 = grid.next (grid.boundary w.1) := by
  induction fuel generalizing cursor with
  | zero => exact fun w hw => absurd hw List.not_mem_nil
  | succ fuel ih =>
    intro w hw
    rw [emitWindows] at hw
    split_ifs at hw with hmore
    · have hlt := grid.lt_next cursor
      rcases List.mem_cons.mp hw with rfl | hw
      · exact ⟨le_rfl, hmore, hlt, Or.inl rfl, rfl⟩
      · obtain ⟨hle, hto, hwidth, hstart, hend⟩ := ih w hw
        refine ⟨by omega, hto, hwidth, Or.inr ?_, hend⟩
        rcases hstart with hstart | hstart
        · rw [hstart, grid.boundary_next]
        · exact hstart
    · exact absurd hw List.not_mem_nil

/-- Every instant up to the end is in a window. -/
theorem exists_emitWindow (grid : ChunkGrid) (fuel : ℕ) {cursor t : ℤ} (hfuel : (to_ - cursor).toNat ≤ fuel)
    (hle : cursor ≤ t) (hlt : t < to_) :
    ∃ w ∈ emitWindows grid to_ fuel cursor, w.1 ≤ t ∧ t < w.2 := by
  induction fuel generalizing cursor with
  | zero => omega
  | succ fuel ih =>
    have hnext := grid.lt_next cursor
    rw [emitWindows, if_pos (by omega)]
    by_cases hin : t < grid.next (grid.boundary cursor)
    · exact ⟨_, List.mem_cons_self, hle, hin⟩
    · obtain ⟨w, hw, hat⟩ := ih (by omega) (not_lt.mp hin)
      exact ⟨w, List.mem_cons_of_mem _ hw, hat⟩

/-- A span from the start on overlaps a window, unless it begins past the last of them, or takes no
time and stands at the start or on a boundary. -/
theorem exists_overlap_iff {from_ : ℤ} (hspan : from_ < to_) {s f : ℤ} (hfrom : from_ ≤ s)
    (hsf : s ≤ f) : (∃ w ∈ emitWindows grid to_ (to_ - from_).toNat from_, s < w.2 ∧ w.1 < f) ↔
      s < grid.lastEnd to_ ∧ (s = f → s ≠ from_ ∧ grid.boundary s ≠ s) := by
  constructor
  · rintro ⟨w, hw, hlo, hhi⟩
    obtain ⟨hle, hlt, -, -, hend⟩ := emitWindows_bounds _ w hw
    have hlast := grid.next_boundary_mono (show w.1 ≤ to_ - 1 by omega)
    refine ⟨hlo.trans_le (hend.trans_le hlast), ?_⟩
    rintro rfl
    refine ⟨by omega, fun hboundary => ?_⟩
    have hb := grid.boundary_le w.1
    have hsame : grid.boundary s = grid.boundary w.1 :=
      grid.boundary_eq (by omega) (by rw [← hend]; exact hlo)
    omega
  · rintro ⟨hlast, hempty⟩
    by_cases hbefore : s < to_
    · obtain ⟨w, hw, hlo, hhi⟩ := exists_emitWindow grid _ le_rfl hfrom hbefore
      obtain ⟨-, -, -, hstart, -⟩ := emitWindows_bounds _ w hw
      refine ⟨w, hw, hhi, ?_⟩
      by_cases hlong : s < f
      · omega
      · obtain ⟨hne, hboundary⟩ := hempty (by omega)
        rcases hstart with hstart | hstart
        · omega
        · have : w.1 ≠ s := fun hsame => hboundary (hsame ▸ hstart)
          omega
    · obtain ⟨w, hw, hlo, hhi⟩ := exists_emitWindow grid _ le_rfl
        (show from_ ≤ to_ - 1 by omega) (show to_ - 1 < to_ by omega)
      obtain ⟨-, -, -, -, hend⟩ := emitWindows_bounds _ w hw
      have hsame : grid.boundary (to_ - 1) = grid.boundary w.1 :=
        grid.boundary_eq ((grid.boundary_le w.1).trans hlo) (by rw [← hend]; exact hhi)
      refine ⟨w, hw, ?_, by omega⟩
      rwa [hend, ← hsame]

end Windows

/-- What a generation records is what it hands to be emitted. -/
structure Generation.LedgerSays (g : Generation β) (grid : ChunkGrid) (h : Handed β)
    (from_ : ℤ) : Prop where
  /-- The rows are the handed items that are not bumpers, at the instants they are emitted at. -/
  rows : g.records h from_ = playRecords g.showIds h.seqStart h.rule
  /-- Each of them is among the items of some chunk window. -/
  onDisk : ∀ e ∈ h.rule.itemSpans h.seqStart, e.1.bumper = none →
    ∃ w ∈ emitWindows grid (from_ + h.span from_) (h.span from_).toNat from_,
      buildPlayoutItem e.1 e.2.1 e.2.2 ∈ h.rule.itemsCovering h.seqStart w.1 w.2

theorem mem_itemsCovering {rule : Sequential β} {start lo hi : ℤ} (h : lo < hi)
    {e : ResolvedItem β × ℤ × ℤ} (he : e ∈ rule.itemSpans start) :
    buildPlayoutItem e.1 e.2.1 e.2.2 ∈ rule.itemsCovering start lo hi ↔
      e.2.1 < hi ∧ lo < e.2.2 := by
  rw [Sequential.itemsCovering_eq_filter rule h]
  constructor
  · intro hmem
    obtain ⟨e', he', hbuilt⟩ := List.mem_map.mp hmem
    have hstart := congrArg PlayoutItem.start hbuilt
    have hfinish := congrArg PlayoutItem.finish hbuilt
    simp only [buildPlayoutItem_start, buildPlayoutItem_finish] at hstart hfinish
    have := (List.mem_filter.mp he').2
    simp only [Bool.and_eq_true, decide_eq_true_eq] at this
    rwa [hstart, hfinish] at this
  · intro hover
    exact List.mem_map_of_mem (List.mem_filter.mpr ⟨he, by simpa using hover⟩)

theorem playRecords_length (showIds : String → Option String) (from_ : ℤ) (l : Sequential β) :
    (playRecords showIds from_ l).length = (l.filter fun e => e.1.bumper.isNone).length := by
  induction l generalizing from_ with
  | nil => rfl
  | cons e l ih =>
    obtain ⟨item, dur⟩ := e
    rw [playRecords, Sequential.itemSpans]
    cases hbumper : item.bumper with
    | none =>
      rw [List.filterMap_cons_some (by simp [hbumper]; rfl), List.filter_cons_of_pos (by simp [hbumper])]
      exact congrArg (· + 1) (ih _)
    | some b =>
      rw [List.filterMap_cons_none (by simp [hbumper]), List.filter_cons_of_neg (by simp [hbumper])]
      exact ih _

theorem entries_fst {laid : Laid β} (h : laid.durations.length = laid.items.length ∧
    laid.progress.length = laid.items.length) :
    laid.entries.map Prod.fst = laid.items.zip laid.durations := by
  unfold Laid.entries
  rw [List.map_fst_zip]
  rw [List.length_zip, h.1, h.2]
  exact Nat.min_le_left _ _

theorem fillLead_of_not_leading (env : FillEnv β) (items : List (Piece β)) (start : ℤ)
    (state : PassState) : (env.fillLead items start false state).1 = [] := by
  unfold FillEnv.fillLead
  split
  · split
    · rfl
    · rfl
  · rfl

theorem phaseIn_lt (i : ℕ) {remaining : F64} {durations : List ℕ} :
    phaseIn i durations remaining = (0, 0) ∨
      (phaseIn i durations remaining).1 < i + durations.length := by
  induction durations generalizing i remaining with
  | nil => exact Or.inl rfl
  | cons dur durations ih =>
    rw [phaseIn]
    split_ifs with hin
    · exact Or.inr (by simp)
    · refine (ih (i + 1)).imp_right fun h => ?_
      rw [List.length_cons]
      omega

/-- A generation that does not start at the top of its list skips an item of it, or is some way
into one. -/
theorem joinAt_cases (anchor : Option ℤ) (first : Bool) (from_ : ℤ) (durations : List ℕ) :
    joinAt anchor first from_ durations = (0, from_) ∨
      ((joinAt anchor first from_ durations).1 < durations.length ∧
        (0 < (joinAt anchor first from_ durations).1 ∨
          (joinAt anchor first from_ durations).2 ≠ from_)) := by
  unfold joinAt
  cases anchor.filter fun _ => first with
  | none => exact Or.inl rfl
  | some anchor =>
    dsimp only
    by_cases htop : phaseAt anchor from_ durations = (0, 0)
    · left
      rw [htop]
      simp
    · right
      have hlt : (phaseAt anchor from_ durations).1 < durations.length := by
        unfold phaseAt at htop ⊢
        dsimp only at htop ⊢
        split_ifs at htop ⊢ with hnone
        · exact absurd rfl htop
        · have := (phaseIn_lt 0).resolve_left htop
          omega
      refine ⟨hlt, ?_⟩
      by_contra hnot
      push Not at hnot
      refine htop (Prod.ext (by omega) ?_)
      have := hnot.2
      show (phaseAt anchor from_ durations).2 = 0
      omega

/-- A generation that does not join its list part-way hands on all of it, from its start. -/
theorem hand_top (g : Generation β) (fill : FillEnv β) {anchor : Option ℤ} {first : Bool}
    (h : anchor = none ∨ first = false) (from_ : ℤ) :
    let hand := g.hand fill anchor first from_
    hand.seqStart = from_ ∧ hand.rule = hand.items ∧
      hand.span from_ = hand.rule.totalDuration := by
  have htop : joinAt anchor first from_ g.laid.durations = (0, from_) := by
    unfold joinAt
    rcases h with rfl | rfl
    · rfl
    · cases anchor <;> rfl
  intro hand
  have hskip : hand.skip = 0 := congrArg Prod.fst htop
  have hstart : hand.seqStart = from_ := congrArg Prod.snd htop
  refine ⟨hstart, by rw [Handed.rule, hskip, List.drop_zero], ?_⟩
  rw [Handed.span, hstart]
  omega

/-- What stands in a filled schedule up to the item the generation joins at. -/
theorem hand_items {g : Generation β} (env : FillEnv β) (anchor : Option ℤ) (first : Bool)
    (from_ : ℤ) (hlengths : g.laid.durations.length = g.laid.items.length ∧
      g.laid.progress.length = g.laid.items.length) :
    ∃ after, (g.hand env anchor first from_).items =
      (g.laid.items.zip g.laid.durations).take (g.hand env anchor first from_).skip ++ after ∧
      ((g.hand env anchor first from_).seqStart ≠ from_ →
        (g.hand env anchor first from_).skip < g.laid.items.length →
        ∃ e ∈ g.laid.items, ∃ dur rest, after = (e, dur) :: rest) := by
  set skip := (g.hand env anchor first from_).skip with hskip
  set seqStart := (g.hand env anchor first from_).seqStart with hstart
  obtain ⟨hout, hwoven⟩ := fillGaps_woven env hlengths skip seqStart (seqStart = from_)
    g.endProgress
  have hitems : (g.hand env anchor first from_).items =
      (fillGaps env g.laid skip seqStart (seqStart = from_) g.endProgress).entries.map
        Prod.fst := by
    rw [entries_fst hout]
    rfl
  rw [hitems, hwoven, List.append_assoc, List.map_append, List.map_take, entries_fst hlengths]
  refine ⟨_, rfl, fun hne hlt => ?_⟩
  have hleading : decide (seqStart = from_) = false := by simpa using hne
  rw [hleading, fillLead_of_not_leading]
  have hdrop : g.laid.entries.drop skip ≠ [] := by
    intro hnil
    have hlen := List.drop_eq_nil_iff.mp hnil
    simp only [Laid.entries, List.length_zip] at hlen
    omega
  obtain ⟨entry, rest, hentry⟩ := List.exists_cons_of_ne_nil hdrop
  rw [hentry]
  refine ⟨entry.1.1, ?_, entry.1.2, _, rfl⟩
  have hmem : entry ∈ g.laid.entries := List.mem_of_mem_drop (hentry ▸ List.mem_cons_self)
  exact (List.of_mem_zip (List.of_mem_zip hmem).1).1

/-- The ledger says what is on disk of a generation exactly when it starts at the top of its list,
no programme begins past the last chunk the total length reaches into, and none of no length stands
at the start or on a chunk boundary. -/
theorem ledgerSays_iff {g : Generation β} {env : FillEnv β} {grid : ChunkGrid}
    {anchor : Option ℤ} {first : Bool} {from_ : ℤ}
    (hlengths : g.laid.durations.length = g.laid.items.length ∧
      g.laid.progress.length = g.laid.items.length)
    (hprogrammes : ∀ item ∈ g.laid.items, item.bumper = none)
    (hspan : 0 < (g.hand env anchor first from_).span from_) :
    g.LedgerSays grid (g.hand env anchor first from_) from_ ↔
      joinAt anchor first from_ g.laid.durations = (0, from_) ∧
        ∀ e ∈ (g.hand env anchor first from_).items.itemSpans from_, e.1.bumper = none →
          e.2.1 < grid.lastEnd (from_ + (g.hand env anchor first from_).span from_) ∧
            (e.2.1 = e.2.2 → e.2.1 ≠ from_ ∧ grid.boundary e.2.1 ≠ e.2.1) := by
  obtain ⟨after, hitems, hafter⟩ := hand_items env anchor first from_ hlengths
  have hskip : (g.hand env anchor first from_).skip =
      (joinAt anchor first from_ g.laid.durations).1 := rfl
  have hstart : (g.hand env anchor first from_).seqStart =
      (joinAt anchor first from_ g.laid.durations).2 := rfl
  generalize g.hand env anchor first from_ = h at *
  rcases joinAt_cases anchor first from_ g.laid.durations with htop | ⟨hlt, hinto⟩
  · rw [htop] at hskip hstart
    dsimp only at hskip hstart
    have hrule : h.rule = h.items := by
      rw [Handed.rule, hskip, List.drop_zero]
    have hover : ∀ e ∈ h.items.itemSpans from_,
        (∃ w ∈ emitWindows grid (from_ + h.span from_) (h.span from_).toNat from_,
          buildPlayoutItem e.1 e.2.1 e.2.2 ∈ h.items.itemsCovering from_ w.1 w.2) ↔
          e.2.1 < grid.lastEnd (from_ + h.span from_) ∧
            (e.2.1 = e.2.2 → e.2.1 ≠ from_ ∧ grid.boundary e.2.1 ≠ e.2.1) := by
      intro e he
      obtain ⟨hlo, hle, -, -⟩ := Sequential.mem_itemSpans he
      have hfuel : (h.span from_).toNat = (from_ + h.span from_ - from_).toNat := by omega
      rw [hfuel, ← exists_overlap_iff (show from_ < from_ + h.span from_ by omega) hlo hle]
      constructor
      · rintro ⟨w, hw, hmem⟩
        exact ⟨w, hw, (mem_itemsCovering (emitWindows_bounds _ w hw).2.2.1 he).mp hmem⟩
      · rintro ⟨w, hw, hlap⟩
        exact ⟨w, hw, (mem_itemsCovering (emitWindows_bounds _ w hw).2.2.1 he).mpr hlap⟩
    constructor
    · intro hspells
      refine ⟨htop, fun e he hnone => (hover e he).mp ?_⟩
      have := hspells.onDisk e (by rwa [hrule, hstart]) hnone
      rwa [hrule, hstart] at this
    · rintro ⟨-, hzero⟩
      refine ⟨?_, fun e he hnone => ?_⟩
      · rw [Generation.records, hrule, hstart]
      · rw [hrule, hstart] at he ⊢
        exact (hover e he).mpr (hzero e he hnone)
  · refine iff_of_false (fun hspells => ?_) (fun hcond => ?_)
    · have hrows := hspells.rows
      by_cases hskipped : 0 < h.skip
      · -- A skipped item has a row and is not handed on.
        have hlen := congrArg List.length hrows
        rw [Generation.records, playRecords_length, playRecords_length, Handed.rule] at hlen
        have hsplit : h.items = h.items.take h.skip ++ h.items.drop h.skip :=
          (List.take_append_drop _ _).symm
        have htake : h.items.take h.skip =
            (g.laid.items.zip g.laid.durations).take h.skip := by
          rw [hitems, List.take_append_of_le_length, List.take_take, Nat.min_self]
          rw [List.length_take, List.length_zip]
          omega
        have hkept : ((h.items.take h.skip).filter fun e => e.1.bumper.isNone).length =
            h.skip := by
          rw [List.filter_eq_self.mpr, htake, List.length_take, List.length_zip]
          · omega
          · intro e he
            rw [htake] at he
            have hmem := (List.of_mem_zip (List.mem_of_mem_take he)).1
            rw [hprogrammes _ hmem]
            rfl
        conv_lhs at hlen => rw [hsplit, List.filter_append, List.length_append, hkept]
        omega
      · -- The first row starts at `from_`, and the first item handed on does not.
        have hzero : h.skip = 0 := by omega
        have hne : h.seqStart ≠ from_ := by
          rw [hstart]
          exact hinto.resolve_left (by omega)
        obtain ⟨item, hitem, dur, rest, rfl⟩ := hafter hne (by omega)
        rw [hzero, List.take_zero, List.nil_append] at hitems
        rw [Generation.records, Handed.rule, hzero, List.drop_zero, hitems] at hrows
        simp only [playRecords, Sequential.itemSpans, hprogrammes item hitem, Option.isSome_none,
          Bool.false_eq_true, if_false, List.filterMap_cons] at hrows
        have := congrArg PlayRecord.start (List.cons.inj hrows).1
        exact hne this.symm
    · rw [hcond.1] at hinto
      simp at hinto

/-- Two programmes of an hour, on a channel whose blocks do not align. -/
def twoHours : Generation Unit where
  laid :=
    { items := [⟨"a", 0, .local_ "/a.mkv" none none, none, false, ()⟩,
        ⟨"b", 0, .local_ "/b.mkv" none none, none, false, ()⟩]
      durations := [3600000000000, 3600000000000]
      progress := [{}, {}] }
  endProgress := {}
  showIds _ := none

def plainEnv : FillEnv Unit := { shortsEnv 0 0 with plans := [none] }

theorem ledgerSays_iff_twoHours :
    twoHours.LedgerSays sixHours (twoHours.hand plainEnv none true 0) 0 ↔
      joinAt none true 0 twoHours.laid.durations = (0, 0) ∧
        ∀ e ∈ (twoHours.hand plainEnv none true 0).items.itemSpans 0, e.1.bumper = none →
          e.2.1 < sixHours.lastEnd (0 + (twoHours.hand plainEnv none true 0).span 0) ∧
            (e.2.1 = e.2.2 → e.2.1 ≠ 0 ∧ sixHours.boundary e.2.1 ≠ e.2.1) :=
  ledgerSays_iff ⟨rfl, rfl⟩ (by simp [twoHours]) (by decide +kernel)

/-- Joined an hour into its list, the channel airs `b` at one o'clock; its ledger says `a` aired
then, and `b` an hour later. -/
theorem joined_records_skipped :
    playRecords twoHours.showIds (twoHours.hand plainEnv (some 0) true HOUR).seqStart
        (twoHours.hand plainEnv (some 0) true HOUR).rule = [⟨"b", none, 1 * HOUR, false⟩] ∧
      twoHours.records (twoHours.hand plainEnv (some 0) true HOUR) HOUR =
        [⟨"a", none, 1 * HOUR, false⟩, ⟨"b", none, 2 * HOUR, false⟩] ∧
      ¬ twoHours.LedgerSays sixHours (twoHours.hand plainEnv (some 0) true HOUR) HOUR := by
  refine ⟨by decide +kernel, by decide +kernel, fun h => ?_⟩
  have hrows := h.rows
  revert hrows
  decide +kernel

end EtvStation
