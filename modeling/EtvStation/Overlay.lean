import EtvStation.Lib.Spans
import EtvStation.Emit
import Mathlib.Data.List.Induction

/-! The overlay timeline: which overlay config is on screen when. A generation restates the span it
covers and keeps what went before it. -/
namespace EtvStation

variable {β σ : Type}

/-- `none` is a span that draws nothing. -/
structure OverlaySpan (σ : Type) where
  start : ℤ
  finish : ℤ
  spec : Option σ
  deriving DecidableEq, Repr

structure OverlayTimeline (σ : Type) where
  base : σ
  spans : List (OverlaySpan σ) := []
  deriving DecidableEq, Repr

/-- The config on screen at `now`: the covering span's, or the base when no span covers it. -/
def OverlayTimeline.specAt (timeline : OverlayTimeline σ) (now : ℤ) : Option σ :=
  match (timeline.spans.takeWhile fun s => s.start ≤ now).getLast? with
  | some span => if now ≥ span.start ∧ now < span.finish then span.spec else some timeline.base
  | none => some timeline.base

/-- What a channel draws: its own config, and each block's. -/
structure ChannelOverlays (σ : Type) where
  base : Option σ
  blocks : List (Option σ)
  deriving DecidableEq, Repr

namespace ChannelOverlays

variable [DecidableEq σ] (overlays : ChannelOverlays σ)

def variesByBlock : Bool := overlays.blocks.any fun b => b ≠ overlays.base

def forBlock (block : ℕ) : Option σ :=
  match overlays.base with
  | none => none
  | some base => if overlays.variesByBlock then overlays.blocks[block]?.join else some base

end ChannelOverlays

structure BlockSpan where
  start : ℤ
  finish : ℤ
  block : ℕ
  deriving DecidableEq, Repr

/-- An item goes on the last span when that is of its block and ends where it starts. -/
def mergeSpan (out : List BlockSpan) (e : ResolvedItem β × ℤ × ℤ) : List BlockSpan :=
  match out.getLast? with
  | some last =>
    if last.block = e.1.block ∧ last.finish = e.2.1 then
      out.dropLast ++ [{ last with finish := e.2.2 }]
    else out ++ [⟨e.2.1, e.2.2, e.1.block⟩]
  | none => [⟨e.2.1, e.2.2, e.1.block⟩]

/-- The blocks that serve `[from_, to_)`, one span for consecutive items of one block. -/
def Sequential.blockSpansCovering (rule : Sequential β) (start from_ to_ : ℤ) : List BlockSpan :=
  if rule.isEmpty || to_ ≤ from_ then []
  else
    (((rule.itemSpans start).takeWhile fun e => e.2.1 < to_).filter fun e => from_ < e.2.2).foldl
      mergeSpan []

def OverlayTimeline.reset (base : σ) : OverlayTimeline σ := { base }

/-- Record what each block of `[from_, to_)` puts on screen, over what the timeline said of it. -/
def OverlayTimeline.append [DecidableEq σ] (overlays : ChannelOverlays σ) (rule : Sequential β)
    (anchor from_ to_ retainFrom : ℤ) (file : Option (OverlayTimeline σ)) :
    Option (OverlayTimeline σ) :=
  match overlays.base with
  | none => file
  | some base =>
    if overlays.variesByBlock then
      let kept := ((file.map (·.spans)).getD []).filter fun s =>
        retainFrom < s.finish ∧ s.finish ≤ from_
      let laid := (rule.blockSpansCovering anchor from_ to_).map fun span =>
        (⟨span.start, span.finish, overlays.forBlock span.block⟩ : OverlaySpan σ)
      some ⟨base, (kept ++ laid).insertionSort fun a b => a.start ≤ b.start⟩
    else file

open Lib (Apart covering)

abbrev ApartSpans (l : List (OverlaySpan σ)) : Prop :=
  Apart OverlaySpan.start OverlaySpan.finish l

/-- Kept apart, the spans are looked up by the instant they cover. -/
theorem OverlayTimeline.specAt_eq (timeline : OverlayTimeline σ) (t : ℤ) :
    timeline.specAt t = ((covering OverlaySpan.start OverlaySpan.finish timeline.spans t).map
      (·.spec)).getD (some timeline.base) := by
  unfold specAt covering
  cases hlast : (timeline.spans.takeWhile fun s => s.start ≤ t).getLast? with
  | none => rfl
  | some span =>
    have hstarts := List.all_eq_true.mp List.all_takeWhile span (List.mem_of_getLast? hlast)
    have hstart : span.start ≤ t := of_decide_eq_true hstarts
    by_cases hend : t < span.finish
    · simp [Option.filter, hstart, hend]
    · simp [Option.filter, hend]

/-- What merging keeps of the items it goes over: the same blocks at the same instants. -/
structure Merged (items : List (ResolvedItem β × ℤ × ℤ)) (out : List BlockSpan) : Prop where
  apart : Apart BlockSpan.start BlockSpan.finish out
  block : ∀ t b, (∃ s ∈ out, s.start ≤ t ∧ t < s.finish ∧ s.block = b) ↔
    ∃ e ∈ items, e.2.1 ≤ t ∧ t < e.2.2 ∧ e.1.block = b
  starts : ∀ x, (∀ e ∈ items, x ≤ e.2.1) → ∀ s ∈ out, x ≤ s.start
  ends : ∀ x, (∀ e ∈ items, e.2.2 ≤ x) → ∀ s ∈ out, s.finish ≤ x

theorem mergeSpan_merged {items : List (ResolvedItem β × ℤ × ℤ)} {out : List BlockSpan}
    (h : Merged items out) {e : ResolvedItem β × ℤ × ℤ} (hbefore : ∀ a ∈ items, a.2.2 ≤ e.2.1)
    (he : e.2.1 ≤ e.2.2) : Merged (items ++ [e]) (mergeSpan out e) := by
  have hout := h.ends e.2.1 hbefore
  have hpushed : Merged (items ++ [e]) (out ++ [⟨e.2.1, e.2.2, e.1.block⟩]) := by
    constructor
    · refine h.apart.append ⟨?_, List.pairwise_singleton _ _⟩ ?_
      · simpa using he
      · simpa using hout
    · intro t b
      simp only [List.mem_append, List.mem_singleton, or_and_right, exists_or, exists_eq_left,
        h.block]
    · intro x hx s hs
      rcases List.mem_append.mp hs with hs | hs
      · exact h.starts x (fun a ha => hx a (List.mem_append_left _ ha)) s hs
      · rw [List.mem_singleton.mp hs]
        exact hx e (List.mem_append_right _ (List.mem_singleton_self e))
    · intro x hx s hs
      rcases List.mem_append.mp hs with hs | hs
      · exact h.ends x (fun a ha => hx a (List.mem_append_left _ ha)) s hs
      · rw [List.mem_singleton.mp hs]
        exact hx e (List.mem_append_right _ (List.mem_singleton_self e))
  unfold mergeSpan
  cases hlast : out.getLast? with
  | none =>
    rw [List.getLast?_eq_none_iff.mp hlast] at hpushed
    exact hpushed
  | some last =>
    dsimp only
    split_ifs with hjoin
    · obtain ⟨hblock, hfinish⟩ := hjoin
      obtain ⟨front, rfl⟩ := List.getLast?_eq_some_iff.mp hlast
      rw [List.dropLast_concat]
      have hordered := List.pairwise_append.mp h.apart.ordered
      have hlastle := h.apart.forward last (List.mem_append_right _ (List.mem_singleton_self _))
      constructor
      · constructor
        · intro s hs
          rcases List.mem_append.mp hs with hs | hs
          · exact h.apart.forward s (List.mem_append_left _ hs)
          · rw [List.mem_singleton.mp hs]
            dsimp only
            omega
        · refine List.pairwise_append.mpr ⟨hordered.1, List.pairwise_singleton _ _, ?_⟩
          intro s hs s' hs'
          rw [List.mem_singleton.mp hs']
          exact hordered.2.2 s hs last (List.mem_singleton_self _)
      · intro t b
        rw [← hpushed.block t b]
        simp only [List.mem_append, List.mem_singleton, or_and_right, exists_or, exists_eq_left]
        rw [or_assoc]
        refine or_congr_right ?_
        constructor
        · intro ⟨hstart, hend, hb⟩
          by_cases hearly : t < last.finish
          · exact Or.inl ⟨hstart, hearly, hb⟩
          · exact Or.inr ⟨by omega, hend, hblock ▸ hb⟩
        · intro hor
          rcases hor with ⟨hstart, hend, hb⟩ | ⟨hstart, hend, hb⟩
          · exact ⟨hstart, by omega, hb⟩
          · exact ⟨by omega, hend, hblock.trans hb⟩
      · intro x hx s hs
        rcases List.mem_append.mp hs with hs | hs
        · exact hpushed.starts x hx s (List.mem_append_left _ (List.mem_append_left _ hs))
        · rw [List.mem_singleton.mp hs]
          exact hpushed.starts x hx last
            (List.mem_append_left _ (List.mem_append_right _ (List.mem_singleton_self _)))
      · intro x hx s hs
        rcases List.mem_append.mp hs with hs | hs
        · exact hpushed.ends x hx s (List.mem_append_left _ (List.mem_append_left _ hs))
        · rw [List.mem_singleton.mp hs]
          exact hx e (List.mem_append_right _ (List.mem_singleton_self e))
    · exact hpushed

/-- Items laid one after another are merged without loss. -/
theorem foldl_mergeSpan {items : List (ResolvedItem β × ℤ × ℤ)}
    (h : Apart (fun e => e.2.1) (fun e => e.2.2) items) : Merged items (items.foldl mergeSpan []) := by
  induction items using List.reverseRecOn with
  | nil =>
    refine ⟨Apart.nil, fun t b => ?_, fun x _ s hs => ?_, fun x _ s hs => ?_⟩
    · simp
    · exact absurd hs List.not_mem_nil
    · exact absurd hs List.not_mem_nil
  | append_singleton items e ih =>
    have hordered := List.pairwise_append.mp h.ordered
    have hmem : ∀ a ∈ items, a ∈ items ++ [e] := fun a ha => List.mem_append_left _ ha
    rw [List.foldl_append]
    refine mergeSpan_merged (ih ⟨fun a ha => h.forward a (hmem a ha), hordered.1⟩) ?_ ?_
    · exact fun a ha => hordered.2.2 a ha e (List.mem_singleton_self e)
    · exact h.forward e (List.mem_append_right _ (List.mem_singleton_self e))

theorem itemSpans_apart (rule : Sequential β) (start : ℤ) :
    Apart (fun e => e.2.1) (fun e => e.2.2) (rule.itemSpans start) :=
  ⟨fun _ he => (Sequential.mem_itemSpans he).2.1, Sequential.itemSpans_pairwise start rule⟩

/-- What a generation laid from `from_` says of its window. -/
structure Restates (rule : Sequential β) (from_ to_ : ℤ) (spans : List BlockSpan) : Prop where
  apart : Apart BlockSpan.start BlockSpan.finish spans
  ahead : ∀ s ∈ spans, from_ ≤ s.start
  block : ∀ e ∈ rule.itemSpans from_, ∀ t, t < to_ → e.2.1 ≤ t → t < e.2.2 →
    ∃ s ∈ spans, s.start ≤ t ∧ t < s.finish ∧ s.block = e.1.block

theorem blockSpansCovering_restates (rule : Sequential β) (from_ to_ : ℤ) :
    Restates rule from_ to_ (rule.blockSpansCovering from_ from_ to_) := by
  unfold Sequential.blockSpansCovering
  split_ifs with hnone
  · refine ⟨Apart.nil, fun s hs => absurd hs List.not_mem_nil, fun e he t ht hat hta => ?_⟩
    rw [Bool.or_eq_true, List.isEmpty_iff, decide_eq_true_eq] at hnone
    rcases hnone with rfl | hle
    · exact absurd he List.not_mem_nil
    · have := (Sequential.mem_itemSpans he).1
      omega
  · have hapart := itemSpans_apart rule from_
    have htaken : Apart (fun e => e.2.1) (fun e => e.2.2)
        ((rule.itemSpans from_).takeWhile fun e => e.2.1 < to_) :=
      ⟨fun e he => hapart.forward e ((List.takeWhile_sublist _).mem he),
        hapart.ordered.sublist (List.takeWhile_sublist _)⟩
    have hmerged := foldl_mergeSpan (htaken.filter fun e => from_ < e.2.2)
    refine ⟨hmerged.apart, hmerged.starts from_ fun e he => ?_, fun e he t ht hat hta => ?_⟩
    · have hmem := (List.takeWhile_sublist _).mem (List.mem_filter.mp he).1
      exact (Sequential.mem_itemSpans hmem).1
    · refine (hmerged.block t e.1.block).mpr ⟨e, List.mem_filter.mpr ⟨?_, ?_⟩, hat, hta, rfl⟩
      · -- The items before `e` start before it does, and so inside the window.
        obtain ⟨before, after, hsplit⟩ := List.append_of_mem he
        have hsorted := hapart.sorted
        rw [hsplit] at hsorted ⊢
        have hinside : ∀ a ∈ before, decide (a.2.1 < to_) = true := by
          intro a ha
          have hle := (List.pairwise_append.mp hsorted).2.2 a ha e List.mem_cons_self
          exact decide_eq_true (by omega)
        rw [List.takeWhile_append_of_pos hinside,
          List.takeWhile_cons_of_pos (by simpa using lt_of_le_of_lt hat ht)]
        exact List.mem_append_right _ List.mem_cons_self
      · have := (Sequential.mem_itemSpans he).1
        exact decide_eq_true (by omega)

section Append

variable {timeline : OverlayTimeline σ}

theorem specAt_of_mem (hapart : ApartSpans timeline.spans) {s : OverlaySpan σ} {t : ℤ}
    (hs : s ∈ timeline.spans) (hat : s.start ≤ t) (hta : t < s.finish) :
    timeline.specAt t = s.spec := by
  have hfound : covering OverlaySpan.start OverlaySpan.finish timeline.spans t = some s :=
    hapart.covering_eq_some_iff.mpr ⟨hs, hat, hta⟩
  rw [OverlayTimeline.specAt_eq, hfound]
  rfl

theorem specAt_of_uncovered (hapart : ApartSpans timeline.spans) {t : ℤ}
    (h : ∀ s ∈ timeline.spans, s.start ≤ t → s.finish ≤ t) :
    timeline.specAt t = some timeline.base := by
  have hnone : covering OverlaySpan.start OverlaySpan.finish timeline.spans t = none :=
    hapart.covering_eq_none_iff.mpr h
  rw [OverlayTimeline.specAt_eq, hnone]
  rfl

variable [DecidableEq σ] {overlays : ChannelOverlays σ} {timeline' : OverlayTimeline σ}
  {rule : Sequential β} {from_ to_ retainFrom : ℤ}

/-- Whether the call cuts nothing: no span that is still retained runs on past where it starts,
unless what it puts on screen is the channel's own config. -/
def CutsNone (timeline : OverlayTimeline σ) (from_ retainFrom : ℤ) : Prop :=
  retainFrom < from_ → ∀ s ∈ timeline.spans, s.start < from_ → from_ < s.finish →
    s.spec = some timeline.base

instance : Decidable (CutsNone timeline from_ retainFrom) :=
  inferInstanceAs (Decidable (_ → _))

/-- What a call leaves of the timeline: the spans that ended by `from_` and are retained, and then
what it lays. -/
structure Appended (overlays : ChannelOverlays σ) (rule : Sequential β) (from_ to_ retainFrom : ℤ)
    (timeline timeline' : OverlayTimeline σ) : Prop where
  base : timeline'.base = timeline.base
  apart : ApartSpans timeline'.spans
  kept : ∀ s, s.start < from_ →
    (s ∈ timeline'.spans ↔ s ∈ timeline.spans ∧ retainFrom < s.finish ∧ s.finish ≤ from_)
  laid : ∀ e ∈ rule.itemSpans from_, ∀ t, t < to_ → e.2.1 ≤ t → t < e.2.2 →
    ∃ s ∈ timeline'.spans, s.start ≤ t ∧ t < s.finish ∧ s.spec = overlays.forBlock e.1.block

theorem append_appended (hapart : ApartSpans timeline.spans)
    (hbase : overlays.base = some timeline.base) (hvaries : overlays.variesByBlock = true)
    (h : OverlayTimeline.append overlays rule from_ from_ to_ retainFrom (some timeline) =
      some timeline') : Appended overlays rule from_ to_ retainFrom timeline timeline' := by
  unfold OverlayTimeline.append at h
  simp only [hbase, hvaries, if_true, Option.map_some, Option.getD_some, Option.some.injEq] at h
  subst h
  have hrestates := blockSpansCovering_restates rule from_ to_
  set kept := timeline.spans.filter fun s => retainFrom < s.finish ∧ s.finish ≤ from_ with hkept
  set laid := (rule.blockSpansCovering from_ from_ to_).map fun span =>
    (⟨span.start, span.finish, overlays.forBlock span.block⟩ : OverlaySpan σ) with hlaid
  have hmemkept : ∀ s, s ∈ kept ↔ s ∈ timeline.spans ∧ retainFrom < s.finish ∧ s.finish ≤ from_ := by
    intro s
    simp [hkept]
  have hahead : ∀ s ∈ laid, from_ ≤ s.start := by
    intro s hs
    obtain ⟨span, hspan, rfl⟩ := List.mem_map.mp hs
    exact hrestates.ahead span hspan
  have hlaidapart : ApartSpans laid := by
    constructor
    · intro s hs
      obtain ⟨span, hspan, rfl⟩ := List.mem_map.mp hs
      exact hrestates.apart.forward span hspan
    · exact List.pairwise_map.mpr hrestates.apart.ordered
  have hall : ApartSpans (kept ++ laid) :=
    (hapart.filter _).append hlaidapart fun a ha b hb => ((hmemkept a).mp ha).2.2.trans (hahead b hb)
  have hsort : (kept ++ laid).insertionSort (fun a b => a.start ≤ b.start) = kept ++ laid :=
    hall.sorted.insertionSort_eq
  refine ⟨rfl, ?_, fun s hs => ?_, fun e he t ht hat hta => ?_⟩
  · dsimp only
    rwa [hsort]
  · dsimp only
    rw [hsort, List.mem_append, hmemkept]
    refine or_iff_left fun hin => ?_
    have := hahead s hin
    omega
  · obtain ⟨span, hspan, hcovers⟩ := hrestates.block e he t ht hat hta
    dsimp only
    rw [hsort]
    refine ⟨⟨span.start, span.finish, overlays.forBlock span.block⟩, ?_, hcovers.1, hcovers.2.1, ?_⟩
    · exact List.mem_append_right _ (List.mem_map.mpr ⟨span, hspan, rfl⟩)
    · dsimp only
      rw [hcovers.2.2]

/-- The call leaves what was on screen before `from_` exactly when it cuts nothing. -/
theorem Appended.past_iff (hapart : ApartSpans timeline.spans)
    (h : Appended overlays rule from_ to_ retainFrom timeline timeline') :
    (∀ t, retainFrom ≤ t → t < from_ → timeline'.specAt t = timeline.specAt t) ↔
      CutsNone timeline from_ retainFrom := by
  -- A span cut at `from_` leaves the instants it covered to the base.
  have hcut : ∀ s ∈ timeline.spans, from_ < s.finish → ∀ t, s.start ≤ t → t < from_ →
      timeline'.specAt t = some timeline.base := by
    intro s hs hlong t hat hlt
    rw [← h.base]
    refine specAt_of_uncovered h.apart fun s' hs' hat' => ?_
    by_contra hover
    obtain ⟨hold, -, hshort⟩ := (h.kept s' (by omega)).mp hs'
    have hsame := hapart.unique hs hold hat (by omega) hat' (not_le.mp hover)
    rw [← hsame] at hshort
    omega
  constructor
  · intro hpast hretain s hs hstart hlong
    have hat : s.start ≤ max s.start retainFrom := le_max_left _ _
    have hlt : max s.start retainFrom < from_ := max_lt hstart hretain
    have hsame := hpast _ (le_max_right _ _) hlt
    rw [hcut s hs hlong _ hat hlt, specAt_of_mem hapart hs hat (hlt.trans hlong)] at hsame
    exact hsame.symm
  · intro hnone t hretain hlt
    by_cases hcovered : ∃ s ∈ timeline.spans, s.start ≤ t ∧ t < s.finish
    · obtain ⟨s, hs, hat, hta⟩ := hcovered
      rw [specAt_of_mem hapart hs hat hta]
      by_cases hlong : from_ < s.finish
      · rw [hcut s hs hlong t hat hlt, hnone (by omega) s hs (by omega) hlong]
      · have hkept := (h.kept s (by omega)).mpr ⟨hs, by omega, not_lt.mp hlong⟩
        exact specAt_of_mem h.apart hkept hat hta
    · have hfree : ∀ s ∈ timeline.spans, s.start ≤ t → s.finish ≤ t := fun s hs hat =>
        not_lt.mp fun hta => hcovered ⟨s, hs, hat, hta⟩
      rw [specAt_of_uncovered hapart hfree, ← h.base]
      refine specAt_of_uncovered h.apart fun s hs hat => ?_
      exact hfree s ((h.kept s (by omega)).mp hs).1 hat

end Append

/-- The timelines a channel's calls leave, from a start over: generations end to end, and again
from any instant after a wipe. -/
inductive Restated (β : Type) [DecidableEq σ] (overlays : ChannelOverlays σ) :
    OverlayTimeline σ → Prop
  | reset {base : σ} (h : overlays.base = some base) : Restated β overlays (.reset base)
  | append {timeline timeline' : OverlayTimeline σ} (rule : Sequential β)
      (from_ to_ retainFrom : ℤ) (h : Restated β overlays timeline)
      (call : OverlayTimeline.append overlays rule from_ from_ to_ retainFrom (some timeline) =
        some timeline') : Restated β overlays timeline'

theorem Restated.apart [DecidableEq σ] {overlays : ChannelOverlays σ}
    (hvaries : overlays.variesByBlock = true) {timeline : OverlayTimeline σ}
    (h : Restated β overlays timeline) :
    overlays.base = some timeline.base ∧ ApartSpans timeline.spans := by
  induction h with
  | reset h => exact ⟨h, Apart.nil⟩
  | append rule from_ to_ retainFrom _ call ih =>
    have happended := append_appended ih.2 ih.1 hvaries call
    exact ⟨happended.base ▸ ih.1, happended.apart⟩

/-- Every call keeps the spans apart and puts each block's own config on its window, and it leaves
what was on screen before exactly when it cuts no retained span. -/
theorem restated_past [DecidableEq σ] {overlays : ChannelOverlays σ}
    (hvaries : overlays.variesByBlock = true) {timeline : OverlayTimeline σ}
    (h : Restated β overlays timeline) :
    ApartSpans timeline.spans ∧
      ∀ (rule : Sequential β) (from_ to_ retainFrom : ℤ) (timeline' : OverlayTimeline σ),
        OverlayTimeline.append overlays rule from_ from_ to_ retainFrom (some timeline) =
          some timeline' →
        (∀ e ∈ rule.itemSpans from_, ∀ t, t < to_ → e.2.1 ≤ t → t < e.2.2 →
          timeline'.specAt t = overlays.forBlock e.1.block) ∧
        ((∀ t, retainFrom ≤ t → t < from_ → timeline'.specAt t = timeline.specAt t) ↔
          CutsNone timeline from_ retainFrom) := by
  obtain ⟨hbase, hapart⟩ := h.apart hvaries
  refine ⟨hapart, fun rule from_ to_ retainFrom timeline' call => ?_⟩
  have happended := append_appended hapart hbase hvaries call
  refine ⟨fun e he t ht hat hta => ?_, happended.past_iff hapart⟩
  obtain ⟨s, hs, hcovers⟩ := happended.laid e he t ht hat hta
  rw [specAt_of_mem happended.apart hs hcovers.1 hcovers.2.1, hcovers.2.2]

/-- A channel whose second block draws another config than its own. -/
def twoOverlays : ChannelOverlays ℕ := ⟨some 30, [some 30, some 31]⟩

def secondBlock (id : String) : ResolvedItem Unit × ℕ :=
  ({ (clip id 1).1 with block := 1 }, (clip id 1).2)

theorem restated_past_twoOverlays :
    let timeline : OverlayTimeline ℕ := ⟨30, [⟨0, 1 * HOUR, some 31⟩]⟩
    ApartSpans timeline.spans ∧
      ∀ (rule : Sequential Unit) (from_ to_ retainFrom : ℤ) (timeline' : OverlayTimeline ℕ),
        OverlayTimeline.append twoOverlays rule from_ from_ to_ retainFrom (some timeline) =
          some timeline' →
        (∀ e ∈ rule.itemSpans from_, ∀ t, t < to_ → e.2.1 ≤ t → t < e.2.2 →
          timeline'.specAt t = twoOverlays.forBlock e.1.block) ∧
        ((∀ t, retainFrom ≤ t → t < from_ → timeline'.specAt t = timeline.specAt t) ↔
          CutsNone timeline from_ retainFrom) :=
  restated_past (by decide)
    (.append [secondBlock "a"] 0 (1 * HOUR) 0
      (show Restated Unit twoOverlays (.reset 30) from .reset rfl) (by decide))

/-- Two hours of one block are one span: when a wipe lays the second hour again, the first, still
on air, falls back to the channel's own config. -/
theorem regeneration_strips_airing :
    let laid := OverlayTimeline.append twoOverlays [secondBlock "a", secondBlock "b"] 0 0 (2 * HOUR) 0
      (some (.reset 30))
    let again := OverlayTimeline.append twoOverlays [secondBlock "b"] (1 * HOUR) (1 * HOUR)
      (2 * HOUR) 0 laid
    laid.map (fun timeline => timeline.specAt (HOUR / 2)) = some (some 31) ∧
      again.map (fun timeline => timeline.specAt (HOUR / 2)) = some (some 30) := by
  decide

end EtvStation
