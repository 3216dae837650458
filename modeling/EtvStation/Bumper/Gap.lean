import EtvStation.Bumper.Fill

/-! One gap. Whatever the scripts draw and the pools hold, the loop ends on the grid line, or the
last piece can be nudged onto it; only a pool item left just short of the line is stretched. -/
namespace EtvStation.Bumper

variable {β : Type}

section Spans

/-- Every span is at least a millisecond long. -/
def Whole (spans : List Span) : Prop := ∀ s ∈ spans, s.start + MILLISECOND ≤ s.finish

theorem pushParts_whole (id path : String) (inMs n : ℕ) (start : ℤ) {lens : List ℕ}
    (h : ∀ len ∈ lens, 0 < len) : Whole (pushParts id path inMs n start lens) := by
  induction lens generalizing n start with
  | nil => simp [pushParts, Whole]
  | cons len lens ih =>
    intro s hs
    rcases List.mem_cons.mp hs with rfl | hs
    · have := h len List.mem_cons_self
      show start + MILLISECOND ≤ start + len * MILLISECOND
      simp only [MILLISECOND]
      omega
    · exact ih _ _ (fun l hl => h l (List.mem_cons_of_mem _ hl)) s hs

theorem pushLocalPadded_whole (lenMs : String → Option ℕ) (id path : String) (inMs : ℕ)
    (start : ℤ) (durationMs : ℕ) : Whole (pushLocalPadded lenMs id path inMs start durationMs) := by
  intro s hs
  obtain ⟨fileMs, hspans⟩ : ∃ fileMs : ℕ,
      pushLocalPadded lenMs id path inMs start durationMs =
        (if 0 < fileMs then [⟨id, start, start + fileMs * MILLISECOND,
          .local_ path (some inMs) (some (inMs + fileMs))⟩] else []) ++
        if fileMs < durationMs then
          [⟨if fileMs = 0 then id else id ++ "#pad",
            if 0 < fileMs then start + fileMs * MILLISECOND else start,
            start + durationMs * MILLISECOND, .lavfi "color=c=black"⟩] else [] := ⟨_, rfl⟩
  rw [hspans] at hs
  rcases List.mem_append.mp hs with hs | hs
  · by_cases hplays : 0 < fileMs
    · rw [if_pos hplays] at hs
      obtain rfl := List.mem_singleton.mp hs
      show start + MILLISECOND ≤ start + fileMs * MILLISECOND
      simp only [MILLISECOND]
      omega
    · rw [if_neg hplays] at hs
      exact absurd hs List.not_mem_nil
  · by_cases hpad : fileMs < durationMs
    · rw [if_pos hpad] at hs
      obtain rfl := List.mem_singleton.mp hs
      show (if 0 < fileMs then start + fileMs * MILLISECOND else start) + MILLISECOND ≤
        start + durationMs * MILLISECOND
      simp only [MILLISECOND]
      split_ifs <;> omega
    · rw [if_neg hpad] at hs
      exact absurd hs List.not_mem_nil

theorem pushLocalSpan_whole (lenMs : String → Option ℕ) (id path : String) (inMs windowMs : ℕ)
    (loop : Bool) (start : ℤ) (durationMs : ℕ) :
    Whole (pushLocalSpan lenMs id path inMs windowMs loop start durationMs) := by
  unfold pushLocalSpan
  split_ifs with hloop
  · refine pushParts_whole _ _ _ _ _ fun len hlen => ?_
    simp only [Bool.and_eq_true, decide_eq_true_eq] at hloop
    rcases List.mem_append.mp hlen with hlen | hlen
    · rw [List.eq_of_mem_replicate hlen]
      exact hloop.1.2
    · split_ifs at hlen with htail
      · obtain rfl := List.mem_singleton.mp hlen
        exact htail
      · exact absurd hlen List.not_mem_nil
  · exact pushLocalPadded_whole _ _ _ _ _ _

theorem segmentSpans_covers (env : FillEnv β) (idBase : String) (seg : ResolvedSegment)
    (begin : ℤ) : SpansCover begin (begin + seg.durationMs * MILLISECOND)
      (env.segmentSpans idBase seg begin) := by
  have hone : ∀ source, SpansCover begin (begin + seg.durationMs * MILLISECOND)
      [⟨idBase, begin, begin + seg.durationMs * MILLISECOND, source⟩] := by
    intro source
    refine ⟨rfl, ?_, rfl⟩
    simp only [MILLISECOND]
    omega
  unfold FillEnv.segmentSpans
  cases seg.segment.source with
  | clip path inMs outMs => exact pushLocalSpan_covers _ _ _ _ _ _ _ _
  | render path => exact pushLocalPadded_covers _ _ _ _ _ _
  | pending path standIn => exact pushLocalPadded_covers _ _ _ _ _ _
  | http url inMs outMs => exact hone _
  | lavfi params => exact hone _
  | still imagePath => exact hone _

theorem segmentSpans_whole (env : FillEnv β) (idBase : String) {seg : ResolvedSegment}
    (hpos : 0 < seg.durationMs) (begin : ℤ) : Whole (env.segmentSpans idBase seg begin) := by
  have hone : ∀ source, Whole [⟨idBase, begin, begin + seg.durationMs * MILLISECOND, source⟩] := by
    intro source s hs
    obtain rfl := List.mem_singleton.mp hs
    show begin + MILLISECOND ≤ begin + seg.durationMs * MILLISECOND
    simp only [MILLISECOND]
    omega
  unfold FillEnv.segmentSpans
  cases seg.segment.source with
  | clip path inMs outMs => exact pushLocalSpan_whole _ _ _ _ _ _ _ _
  | render path => exact pushLocalPadded_whole _ _ _ _ _ _
  | pending path standIn => exact pushLocalPadded_whole _ _ _ _ _ _
  | http url inMs outMs => exact hone _
  | lavfi params => exact hone _
  | still imagePath => exact hone _

end Spans

section Pieces

theorem totalNs_append (l m : List (Piece β)) : totalNs (l ++ m) = totalNs l + totalNs m := by
  simp [totalNs]

theorem totalNs_cons (p : Piece β) (l : List (Piece β)) : totalNs (p :: l) = p.2 + totalNs l := by
  simp [totalNs]

theorem totalNs_nonneg (l : List (Piece β)) : 0 ≤ totalNs l := by
  unfold totalNs
  positivity

/-- The pieces of consecutive spans are as long together as what the spans cover. -/
theorem totalNs_spans {s f : ℤ} {spans : List Span} (h : SpansCover s f spans)
    (g : Span → Piece β) (hg : ∀ a ∈ spans, (g a).2 = (a.finish - a.start).toNat) :
    s + totalNs (spans.map g) = f := by
  induction spans generalizing s with
  | nil =>
    have : s = f := h
    simp [totalNs, this]
  | cons a spans ih =>
    obtain ⟨hstart, hle, hrest⟩ := h
    have hone := ih hrest fun b hb => hg b (List.mem_cons_of_mem _ hb)
    have hlen := hg a List.mem_cons_self
    rw [List.map_cons, totalNs_cons, hlen]
    omega

def FillEnv.timelinePieces (env : FillEnv β) (segments : List ResolvedSegment) (start : ℤ)
    (block : ℕ) : List (Piece β) :=
  (env.emitTimeline segments start).map (env.pieceFrom · block)

/-- Bumper pieces of at least a millisecond each. -/
def Bumpers (pieces : List (Piece β)) : Prop :=
  ∀ p ∈ pieces, p.1.bumper.isSome ∧ MILLISECOND ≤ (p.2 : ℤ)

theorem zipIdx_pieces (env : FillEnv β) (start : ℤ) (block : ℕ) {segments : List ResolvedSegment}
    (n : ℕ) {s f : ℕ} (h : PlacedFrom s f segments) (g : ℕ → ResolvedSegment → String)
    (make : ResolvedSegment → Span → PlayoutItem β)
    (hmake : ∀ seg span, (make seg span).start = span.start ∧ (make seg span).finish = span.finish) :
    let pieces := ((segments.zipIdx n).flatMap fun (seg, index) =>
      (env.segmentSpans (g index seg) seg (start + seg.startMs * MILLISECOND)).map
        (make seg)).map (env.pieceFrom · block)
    (s : ℤ) * MILLISECOND + totalNs pieces = f * MILLISECOND ∧ Bumpers pieces := by
  induction segments generalizing n s with
  | nil =>
    obtain rfl : s = f := h
    exact ⟨by simp [totalNs], fun p hp => absurd hp (by simp)⟩
  | cons seg segments ih =>
    obtain ⟨hstart, hpos, hrest⟩ := h
    obtain ⟨htotal, hbumpers⟩ := ih (n + 1) hrest
    have hlength : ∀ span ∈ env.segmentSpans (g n seg) seg (start + seg.startMs * MILLISECOND),
        (env.pieceFrom (make seg span) block).2 = (span.finish - span.start).toNat := by
      intro span _
      show ((make seg span).finish - (make seg span).start).toNat = _
      rw [(hmake seg span).1, (hmake seg span).2]
    have hone := totalNs_spans (segmentSpans_covers env (g n seg) seg
      (start + seg.startMs * MILLISECOND)) (fun span => env.pieceFrom (make seg span) block) hlength
    simp only [List.zipIdx_cons, List.flatMap_cons, List.map_append, List.map_map] at htotal hone ⊢
    refine ⟨?_, ?_⟩
    · rw [totalNs_append]
      simp only [Function.comp_def] at hone ⊢
      rw [show ((s + seg.durationMs : ℕ) : ℤ) = s + seg.durationMs by push_cast; ring] at htotal
      rw [add_mul] at htotal
      linarith
    · intro p hp
      rcases List.mem_append.mp hp with hp | hp
      · obtain ⟨span, hspan, rfl⟩ := List.mem_map.mp hp
        refine ⟨rfl, ?_⟩
        have hwhole := segmentSpans_whole env (g n seg) hpos (start + seg.startMs * MILLISECOND)
          span hspan
        have := hlength span hspan
        simp only [Function.comp_apply, MILLISECOND] at *
        omega
      · exact hbumpers p hp

/-- A timeline that fits a gap becomes pieces that fill it. -/
theorem timelinePieces_total (env : FillEnv β) {timeline : List Segment} {gapMs : ℕ} {fps : ℚ}
    {segments : List ResolvedSegment} (h : fit timeline gapMs fps = .ok segments) (start : ℤ)
    (block : ℕ) : totalNs (env.timelinePieces segments start block) = gapMs * MILLISECOND ∧
      Bumpers (env.timelinePieces segments start block) := by
  obtain ⟨-, hplaced⟩ := fit_placed h
  have := zipIdx_pieces env start block 0 hplaced
    (fun index _ => s!"{env.idPrefix}{env.channel}:{start / MILLISECOND}:{index}")
    (fun seg span =>
      { id := span.id, start := span.start, finish := span.finish, source := some span.source,
        pending := pendingOf seg.segment, segment := some seg.segment.name, rest := env.dress seg })
    (fun _ _ => ⟨rfl, rfl⟩)
  simpa [FillEnv.timelinePieces, FillEnv.emitTimeline] using this

theorem blackPiece_length (env : FillEnv β) (block : ℕ) (at_ length : ℤ) :
    (env.blackPiece block at_ length).2 = length.toNat := by
  show (at_ + length - at_).toNat = _
  rw [add_sub_cancel_left]

theorem scanPool_spec (minFill : ℕ) (skip : ℕ → Bool) (i : ℕ) (items : List (Piece β)) (left : ℤ) :
    (∀ p ∈ scanPool minFill skip i items left, p.2 ∈ items ∧ 0 < p.2.2) ∧
      (scanPool minFill skip i items left ≠ [] →
        totalNs ((scanPool minFill skip i items left).map Prod.snd) + minFill ≤ left) := by
  induction items generalizing i left with
  | nil => simp [scanPool]
  | cons item items ih =>
    obtain ⟨item, length⟩ := item
    rw [scanPool]
    split_ifs with hfits
    · obtain ⟨hmem, htotal⟩ := ih (i + 1) (left - length)
      simp only [Bool.and_eq_true, decide_eq_true_eq] at hfits
      refine ⟨fun p hp => ?_, fun _ => ?_⟩
      · rcases List.mem_cons.mp hp with rfl | hp
        · exact ⟨List.mem_cons_self, hfits.1.2⟩
        · exact ⟨List.mem_cons_of_mem _ (hmem p hp).1, (hmem p hp).2⟩
      · rw [List.map_cons, totalNs_cons]
        by_cases hnil : scanPool minFill skip (i + 1) items (left - length) = []
        · rw [hnil]
          simp only [List.map_nil, totalNs, List.sum_nil]
          have := hfits.2
          push_cast
          omega
        · have := htotal hnil
          simp only
          omega
    · obtain ⟨hmem, htotal⟩ := ih (i + 1) left
      exact ⟨fun p hp => ⟨List.mem_cons_of_mem _ (hmem p hp).1, (hmem p hp).2⟩, htotal⟩

/-- What an entry takes from its pool: whole items of it, that leave `minFill` of the gap. -/
theorem poolPicks_spec (env : FillEnv β) (plan : FillPlan) (block : ℕ) (name : String)
    (remaining : ℤ) (used : ℕ × String → List ℕ) :
    (∀ p ∈ (env.poolPicks plan block name remaining used).1,
        (∃ items, env.pools (block, name) = some items ∧ p.2 ∈ items) ∧ 0 < p.2.2) ∧
      ((env.poolPicks plan block name remaining used).1 ≠ [] →
        totalNs ((env.poolPicks plan block name remaining used).1.map Prod.snd) + plan.minFill ≤
          remaining) := by
  unfold FillEnv.poolPicks
  cases hpool : env.pools (block, name) with
  | none => simp
  | some items =>
    dsimp only
    split_ifs
    · obtain ⟨hmem, htotal⟩ := scanPool_spec plan.minFill
        (fun i => (used (block, name)).contains i) 0 items remaining
      exact ⟨fun p hp => ⟨⟨items, rfl, (hmem p hp).1⟩, (hmem p hp).2⟩, htotal⟩
    · obtain ⟨hmem, htotal⟩ := scanPool_spec plan.minFill (fun _ => false) 0 items remaining
      exact ⟨fun p hp => ⟨⟨items, rfl, (hmem p hp).1⟩, (hmem p hp).2⟩, htotal⟩

end Pieces

/-- A drawn timeline, when it fits, fits a gap of at most `gapMs`. -/
def Drawn.Fits (d : Drawn) (gapMs : ℕ) : Prop :=
  ∀ segments, d.resolved = some segments →
    ∃ timeline drawMs, drawMs ≤ gapMs ∧ fit timeline drawMs FILL_FPS = .ok segments

theorem drawOne_fits (env : FillEnv β) (script : String) (gapMs draw : ℕ) (around : Around β)
    (pass : List BumperRow) : (env.drawOne script gapMs draw around pass).Fits gapMs := by
  have hone : ∀ timeline failed,
      (⟨timeline, (fit timeline gapMs FILL_FPS).toOption, failed⟩ : Drawn).Fits gapMs := by
    intro timeline failed segments hsegments
    refine ⟨timeline, gapMs, le_rfl, ?_⟩
    cases hfit : fit timeline gapMs FILL_FPS with
    | error e => simp [hfit, Except.toOption] at hsegments
    | ok segments' =>
      simp only [hfit, Except.toOption, Option.some.injEq] at hsegments
      rw [hsegments]
  unfold FillEnv.drawOne
  cases env.build script gapMs draw around pass with
  | ok timeline => exact hone _ _
  | error e => exact hone _ _

namespace GapEnv

variable {g : GapEnv β}

theorem choose_fits (draw remainingMs : ℕ) (lastDraw : Bool) (records : List BumperRow)
    (order : List FillCandidate) {chosen : Option Drawn}
    (h : ∀ d, chosen = some d → d.Fits remainingMs) :
    ∀ d, g.choose draw remainingMs lastDraw records order chosen = some d → d.Fits remainingMs := by
  induction order generalizing chosen with
  | nil => exact h
  | cons cand order ih =>
    rw [choose]
    cases cand.source with
    | pool name => exact ih h
    | script script =>
      dsimp only
      set drawMs := if lastDraw then remainingMs
        else min (cand.maxGapMs.getD remainingMs) remainingMs with hdrawMs
      have hle : drawMs ≤ remainingMs := by
        rw [hdrawMs]
        split_ifs
        · exact le_rfl
        · exact Nat.min_le_right _ _
      have hdrawn : (g.env.drawOne script drawMs draw g.around records).Fits remainingMs := by
        intro segments hsegments
        obtain ⟨timeline, ms, hms, hfit⟩ := drawOne_fits _ _ _ _ _ _ segments hsegments
        exact ⟨timeline, ms, hms.trans hle, hfit⟩
      split_ifs
      · intro d hd
        rw [← Option.some.inj hd]
        exact hdrawn
      · refine ih fun d hd => ?_
        rw [← Option.some.inj hd]
        cases chosen with
        | none => exact hdrawn
        | some c => exact h c rfl

theorem roundMs_bounds {d : ℤ} (h : 0 ≤ d) :
    (roundMs d : ℤ) * MILLISECOND ≤ d + 500000 ∧ d < roundMs d * MILLISECOND + 500000 := by
  unfold roundMs
  rw [max_eq_left h]
  simp only [MILLISECOND]
  omega

/-- What a draw brings: either it runs to the line and ends the gap, in black; or its last piece
can be cut back to the line, and pool items leave `minFill` of the gap. -/
structure Brings (g : GapEnv β) (cursor : ℤ) (d : Draw β) : Prop where
  stops : d.stop → cursor + totalNs d.pieces = g.around.boundary ∧
    ∃ p, d.pieces.getLast? = some p ∧ p.1.bumper.isSome
  goes : d.stop = false → ∃ p, d.pieces.getLast? = some p ∧
    cursor + totalNs d.pieces - g.around.boundary ≤ p.2 ∧
    (p.1.bumper = none → cursor + totalNs d.pieces + g.plan.minFill ≤ g.around.boundary)
  ne_nil : d.pieces ≠ []

theorem orBlack_brings {cursor : ℤ} (hroom : 0 < g.around.boundary - cursor)
    {pieces : List (Piece β)} {state : PassState}
    (h : ∀ p, pieces.getLast? = some p →
      cursor + totalNs pieces - g.around.boundary ≤ p.2 ∧
      (p.1.bumper = none → cursor + totalNs pieces + g.plan.minFill ≤ g.around.boundary)) :
    g.Brings cursor (g.orBlack cursor pieces state) := by
  unfold orBlack
  split_ifs with hempty
  · have hzero : totalNs pieces = 0 := le_antisymm hempty (totalNs_nonneg _)
    refine ⟨fun _ => ⟨?_, _, List.getLast?_concat, rfl⟩, fun h => (by cases h), by simp⟩
    rw [totalNs_append, hzero, totalNs_cons, blackPiece_length]
    simp only [totalNs, List.map_nil, List.sum_nil]
    omega
  · have hne : pieces ≠ [] := by
      rintro rfl
      exact hempty le_rfl
    refine ⟨fun h => (by cases h), fun _ => ?_, hne⟩
    have hlast := List.getLast?_eq_some_getLast hne
    exact ⟨_, hlast, h _ hlast⟩

theorem black_brings {cursor : ℤ} (hroom : 0 < g.around.boundary - cursor) (state : PassState) :
    g.Brings cursor
      ⟨[g.env.blackPiece g.block cursor (g.around.boundary - cursor)], state, true⟩ := by
  refine ⟨fun _ => ⟨?_, _, rfl, rfl⟩, fun h => (by cases h), List.cons_ne_nil _ _⟩
  rw [totalNs_cons, blackPiece_length]
  simp only [totalNs, List.map_nil, List.sum_nil]
  omega

theorem drawAt_brings (draw : ℕ) {cursor : ℤ} (hroom : 0 < g.around.boundary - cursor)
    (state : PassState) : g.Brings cursor (g.drawAt draw cursor state) := by
  unfold drawAt
  dsimp only
  cases horder : (g.order draw (g.around.boundary - cursor) state.used).1 with
  | nil => exact black_brings hroom state
  | cons first order =>
    dsimp only
    cases first.source with
    | pool name =>
      refine orBlack_brings hroom fun p hp => ?_
      have hne : (g.env.poolPicks g.plan g.block name (g.around.boundary - cursor)
          state.used).1 ≠ [] := by
        intro hnil
        rw [hnil] at hp
        cases hp
      have htotal := (poolPicks_spec g.env g.plan g.block name (g.around.boundary - cursor)
        state.used).2 hne
      exact ⟨by omega, fun _ => by omega⟩
    | script script =>
      dsimp only
      cases hchosen : (g.choose draw (roundMs (g.around.boundary - cursor))
          (g.order draw (g.around.boundary - cursor) state.used).2 state.records
          (first :: order) none).bind Drawn.resolved with
      | none => exact black_brings hroom state
      | some segments =>
        obtain ⟨drawn, hdrawn, hresolved⟩ := Option.bind_eq_some_iff.mp hchosen
        obtain ⟨timeline, drawMs, hle, hfit⟩ :=
          choose_fits _ _ _ _ _ (fun d hd => by cases hd) drawn hdrawn segments hresolved
        obtain ⟨htotal, hbumpers⟩ := timelinePieces_total g.env hfit cursor g.block
        refine orBlack_brings hroom fun p hp => ?_
        have hp' := hbumpers p (List.mem_of_getLast? hp)
        have hround := roundMs_bounds hroom.le
        have hms : (drawMs : ℤ) * MILLISECOND ≤
            roundMs (g.around.boundary - cursor) * MILLISECOND := by
          have : (drawMs : ℤ) ≤ roundMs (g.around.boundary - cursor) := by exact_mod_cast hle
          exact mul_le_mul_of_nonneg_right this (by simp [MILLISECOND])
        unfold FillEnv.timelinePieces at htotal
        rw [htotal]
        refine ⟨?_, fun hnone => ?_⟩
        · have := hp'.2
          simp only [MILLISECOND] at *
          omega
        · rw [hnone] at hp'
          simp at hp'

/-- The loop's next draw is of pool items that leave a rest no draw is made for. -/
def StrandsAt (g : GapEnv β) (cursor : ℤ) (d : Draw β) : Prop :=
  (∃ p, d.pieces.getLast? = some p ∧ p.1.bumper = none) ∧
    0 < g.around.boundary - (cursor + totalNs d.pieces) ∧
    roundMs (g.around.boundary - (cursor + totalNs d.pieces)) = 0

/-- Some draw of the gap takes pool items up to less than half a millisecond from the line. -/
def Strands (g : GapEnv β) : (left : ℕ) → ℤ → PassState → Prop
  | 0, _, _ => False
  | left + 1, cursor, state =>
    if (g.rest cursor false).isSome then False
    else
      let d := g.drawAt (MAX_DRAWS_PER_GAP - (left + 1)) cursor state
      d.stop = false ∧ (g.StrandsAt cursor d ∨ g.Strands left (cursor + totalNs d.pieces) d.state)

theorem rest_eq_none {cursor : ℤ} {capped : Bool} (h : g.rest cursor capped = none) :
    0 < g.around.boundary - cursor ∧ roundMs (g.around.boundary - cursor) ≠ 0 ∧
      capped = false := by
  unfold rest at h
  dsimp only at h
  split_ifs at h with hdone hblack
  push Not at hdone hblack
  refine ⟨hdone.1, hdone.2, ?_⟩
  cases capped
  · rfl
  · exact absurd rfl hblack.2

/-- Where no draw is made the gap is done, or its rest is black. -/
theorem rest_eq_some {cursor : ℤ} {capped : Bool} {pieces : List (Piece β)}
    (h : g.rest cursor capped = some pieces) :
    (pieces = [] ∧ (g.around.boundary ≤ cursor ∨ roundMs (g.around.boundary - cursor) = 0)) ∨
      (cursor + totalNs pieces = g.around.boundary ∧
        0 < g.around.boundary - cursor ∧ roundMs (g.around.boundary - cursor) ≠ 0 ∧
        ∃ p, pieces.getLast? = some p ∧ p.1.bumper.isSome) := by
  unfold rest at h
  dsimp only at h
  split_ifs at h with hdone hblack
  · left
    obtain rfl := Option.some.inj h
    refine ⟨rfl, hdone.imp_left fun hle => ?_⟩
    omega
  · right
    obtain rfl := Option.some.inj h
    push Not at hdone
    refine ⟨?_, hdone.1, hdone.2, _, rfl, rfl⟩
    rw [totalNs_cons, blackPiece_length]
    simp only [totalNs, List.map_nil, List.sum_nil]
    omega

/-- What the loop leaves: nothing to fill, or pieces whose last can be moved to the line. -/
structure Fills (g : GapEnv β) (cursor : ℤ) (pieces : List (Piece β)) : Prop where
  nil : pieces = [] → g.around.boundary ≤ cursor ∨ roundMs (g.around.boundary - cursor) = 0
  reaches : ∀ p, pieces.getLast? = some p → cursor + totalNs pieces - g.around.boundary ≤ p.2

theorem rest_fills {cursor : ℤ} {capped : Bool} {pieces : List (Piece β)}
    (h : g.rest cursor capped = some pieces) : g.Fills cursor pieces := by
  rcases rest_eq_some h with ⟨rfl, hdone⟩ | ⟨htotal, -, -, p, hp, -⟩
  · exact ⟨fun _ => hdone, fun p hp => by cases hp⟩
  · refine ⟨fun hnil => ?_, fun q _ => by omega⟩
    rw [hnil] at hp
    cases hp

theorem fillLoop_fills (g : GapEnv β) (left : ℕ) (cursor : ℤ) (state : PassState) :
    g.Fills cursor (g.fillLoop left cursor state).1 := by
  induction left generalizing cursor state with
  | zero =>
    rw [fillLoop]
    cases hrest : g.rest cursor true with
    | none => exact absurd (rest_eq_none hrest).2.2 (by simp)
    | some pieces => exact rest_fills hrest
  | succ left ih =>
    rw [fillLoop]
    cases hrest : g.rest cursor false with
    | some pieces => exact rest_fills hrest
    | none =>
      have hbrings := drawAt_brings (MAX_DRAWS_PER_GAP - (left + 1))
        (rest_eq_none hrest).1 state
      dsimp only
      generalize g.drawAt (MAX_DRAWS_PER_GAP - (left + 1)) cursor state = d at *
      cases hstop : d.stop with
      | true =>
        obtain ⟨htotal, -⟩ := hbrings.stops hstop
        exact ⟨fun hnil => absurd hnil hbrings.ne_nil, fun p _ => by
          simp only [if_true]
          omega⟩
      | false =>
        obtain ⟨p, hp, hreach, -⟩ := hbrings.goes hstop
        have hmore := ih (cursor + totalNs d.pieces) d.state
        simp only [Bool.false_eq_true, if_false]
        generalize (g.fillLoop left (cursor + totalNs d.pieces) d.state).1 = more at *
        refine ⟨fun hnil => absurd (List.append_eq_nil_iff.mp hnil).1 hbrings.ne_nil, ?_⟩
        intro q hq
        rw [totalNs_append]
        by_cases hnil : more = []
        · rw [hnil, List.append_nil, hp] at hq
          obtain rfl := Option.some.inj hq
          rw [hnil]
          simp only [totalNs, List.map_nil, List.sum_nil] at *
          omega
        · rw [List.getLast?_append_of_ne_nil _ hnil] at hq
          have := hmore.reaches q hq
          omega

/-- The pieces end on a pool item that is not on the line. -/
def EndsOnPool (g : GapEnv β) (cursor : ℤ) (pieces : List (Piece β)) : Prop :=
  ∃ p, pieces.getLast? = some p ∧ p.1.bumper = none ∧
    cursor + totalNs pieces ≠ g.around.boundary

theorem not_endsOnPool_rest {cursor : ℤ} {capped : Bool} {pieces : List (Piece β)}
    (h : g.rest cursor capped = some pieces) : ¬ g.EndsOnPool cursor pieces := by
  rintro ⟨p, hp, hnone, hmiss⟩
  rcases rest_eq_some h with ⟨rfl, -⟩ | ⟨htotal, -⟩
  · cases hp
  · exact hmiss htotal

theorem fillLoop_nil {left : ℕ} {cursor : ℤ} {state : PassState}
    (h : (g.fillLoop left cursor state).1 = []) :
    g.around.boundary ≤ cursor ∨ roundMs (g.around.boundary - cursor) = 0 :=
  (g.fillLoop_fills left cursor state).nil h

theorem fillLoop_done {left : ℕ} {cursor : ℤ} {state : PassState}
    (h : g.around.boundary ≤ cursor ∨ roundMs (g.around.boundary - cursor) = 0) :
    (g.fillLoop left cursor state).1 = [] ∧ ¬ g.Strands left cursor state := by
  have hrest : ∀ capped, g.rest cursor capped = some [] := by
    intro capped
    unfold rest
    dsimp only
    rw [if_pos (h.imp_left fun hle => by omega)]
  cases left with
  | zero => exact ⟨by rw [fillLoop, hrest]; rfl, id⟩
  | succ left =>
    refine ⟨by rw [fillLoop, hrest], ?_⟩
    rw [Strands, hrest]
    simp

/-- A gap is left stranded exactly when what is drawn for it ends on a pool item short of the
line. -/
theorem strands_iff (left : ℕ) (cursor : ℤ) (state : PassState) :
    g.Strands left cursor state ↔ g.EndsOnPool cursor (g.fillLoop left cursor state).1 := by
  induction left generalizing cursor state with
  | zero =>
    refine iff_of_false id ?_
    rw [fillLoop]
    cases hrest : g.rest cursor true with
    | none => exact absurd (rest_eq_none hrest).2.2 (by simp)
    | some pieces => exact not_endsOnPool_rest hrest
  | succ left ih =>
    rw [fillLoop, Strands]
    cases hrest : g.rest cursor false with
    | some pieces =>
      refine iff_of_false (by simp) (not_endsOnPool_rest hrest)
    | none =>
      have hbrings := drawAt_brings (MAX_DRAWS_PER_GAP - (left + 1))
        (rest_eq_none hrest).1 state
      simp only [Option.isSome_none, Bool.false_eq_true, if_false]
      generalize g.drawAt (MAX_DRAWS_PER_GAP - (left + 1)) cursor state = d at *
      cases hstop : d.stop with
      | true =>
        obtain ⟨htotal, -⟩ := hbrings.stops hstop
        refine iff_of_false (by simp) ?_
        rintro ⟨p, -, -, hmiss⟩
        exact hmiss htotal
      | false =>
        obtain ⟨q, hq, -, hpool⟩ := hbrings.goes hstop
        simp only [Bool.false_eq_true, if_false, true_and]
        by_cases hnil : (g.fillLoop left (cursor + totalNs d.pieces) d.state).1 = []
        · have hdone := fillLoop_nil hnil
          rw [or_iff_left (fillLoop_done hdone).2, hnil, List.append_nil]
          constructor
          · rintro ⟨⟨p, hp, hnone⟩, hshort, -⟩
            exact ⟨p, hp, hnone, by omega⟩
          · rintro ⟨p, hp, hnone, hmiss⟩
            rw [hq] at hp
            obtain rfl := Option.some.inj hp
            have hleaves := hpool hnone
            have hshort : 0 < g.around.boundary - (cursor + totalNs d.pieces) := by omega
            exact ⟨⟨q, hq, hnone⟩, hshort, hdone.resolve_left (by omega)⟩
        · have hnot : ¬ g.StrandsAt cursor d := by
            rintro ⟨-, -, hround⟩
            exact hnil (fillLoop_done (Or.inr hround)).1
          rw [or_iff_right hnot, ih]
          unfold EndsOnPool
          rw [List.getLast?_append_of_ne_nil _ hnil, totalNs_append, add_assoc]

/-- A `min_fill:` of half a millisecond or more leaves no gap stranded. -/
theorem not_strands (h : 500000 ≤ g.plan.minFill) (left : ℕ) (cursor : ℤ) (state : PassState) :
    ¬ g.Strands left cursor state := by
  induction left generalizing cursor state with
  | zero => exact id
  | succ left ih =>
    rw [Strands]
    cases hrest : g.rest cursor false with
    | some pieces => simp
    | none =>
      have hbrings := drawAt_brings (MAX_DRAWS_PER_GAP - (left + 1))
        (rest_eq_none hrest).1 state
      simp only [Option.isSome_none, Bool.false_eq_true, if_false]
      rintro ⟨hstop, ⟨⟨p, hp, hnone⟩, hshort, hround⟩ | hlater⟩
      · obtain ⟨q, hq, -, hpool⟩ := hbrings.goes hstop
        rw [hq] at hp
        obtain rfl := Option.some.inj hp
        have hleaves := hpool hnone
        have hbounds := roundMs_bounds hshort.le
        rw [hround] at hbounds
        simp only [MILLISECOND] at hbounds
        omega
      · exact ih _ _ hlater

end GapEnv

section Landing

variable {at_ boundary : ℤ} {pieces : List (Piece β)}

theorem landOn_of_eq (n : ℕ) (h : at_ + totalNs pieces = boundary) :
    landOn at_ boundary n pieces = pieces := by
  cases n with
  | zero => rfl
  | succ n =>
    rw [landOn]
    exact if_pos (by omega)

theorem landOn_nil (n : ℕ) : landOn at_ boundary n ([] : List (Piece β)) = [] := by
  cases n with
  | zero => rfl
  | succ n =>
    rw [landOn]
    simp

/-- One nudge of the last piece puts the end on the line. -/
theorem landOn_last (n : ℕ) {p : Piece β} (hp : pieces.getLast? = some p)
    (hmiss : at_ + totalNs pieces ≠ boundary) (hreach : at_ + totalNs pieces - boundary ≤ p.2) :
    landOn at_ boundary (n + 1) pieces =
        pieces.dropLast ++ [(p.1, (p.2 + (boundary - (at_ + totalNs pieces))).toNat)] ∧
      at_ + totalNs (landOn at_ boundary (n + 1) pieces) = boundary := by
  have hsplit : pieces = pieces.dropLast ++ [p] := by
    obtain ⟨front, rfl⟩ := List.getLast?_eq_some_iff.mp hp
    rw [List.dropLast_concat]
  have htotal : totalNs pieces = totalNs pieces.dropLast + p.2 := by
    conv_lhs => rw [hsplit, totalNs_append]
    simp [totalNs]
  have hland : at_ + totalNs (pieces.dropLast ++
      [(p.1, (p.2 + (boundary - (at_ + totalNs pieces))).toNat)]) = boundary := by
    rw [totalNs_append, totalNs_cons]
    simp only [totalNs, List.map_nil, List.sum_nil] at *
    omega
  have hone : landOn at_ boundary (n + 1) pieces =
      pieces.dropLast ++ [(p.1, (p.2 + (boundary - (at_ + totalNs pieces))).toNat)] := by
    rw [landOn, if_neg (by omega), hp]
    exact landOn_of_eq n hland
  exact ⟨hone, hone ▸ hland⟩

def isPool (p : Piece β) : Bool := p.1.bumper.isNone

/-- Landing keeps the pool items as they were drawn unless it nudges one. -/
theorem landOn_pool_iff (n : ℕ)
    (hreach : ∀ p, pieces.getLast? = some p → at_ + totalNs pieces - boundary ≤ p.2) :
    (landOn at_ boundary (n + 1) pieces).filter isPool = pieces.filter isPool ↔
      ¬ ∃ p, pieces.getLast? = some p ∧ p.1.bumper = none ∧
        at_ + totalNs pieces ≠ boundary := by
  by_cases hmiss : at_ + totalNs pieces = boundary
  · rw [landOn_of_eq _ hmiss]
    exact iff_of_true rfl fun ⟨p, _, _, hne⟩ => hne hmiss
  · cases hlast : pieces.getLast? with
    | none =>
      rw [List.getLast?_eq_none_iff.mp hlast, landOn_nil]
      simp
    | some p =>
      have hr := hreach p hlast
      rw [(landOn_last n hlast hmiss hr).1]
      have hsplit : pieces = pieces.dropLast ++ [p] := by
        obtain ⟨front, rfl⟩ := List.getLast?_eq_some_iff.mp hlast
        rw [List.dropLast_concat]
      conv_lhs => rw [hsplit]
      simp only [List.dropLast_concat, List.filter_append, List.append_cancel_left_eq]
      cases hbumper : p.1.bumper with
      | none =>
        refine iff_of_false ?_ (not_not.mpr ⟨p, rfl, hbumper, hmiss⟩)
        have hpool : isPool p = true := by simp [isPool, hbumper]
        have hpool' : ∀ len : ℕ, isPool (p.1, len) = true := fun len => by simp [isPool, hbumper]
        rw [← hsplit]
        rw [List.filter_cons_of_pos (hpool' _), List.filter_cons_of_pos hpool]
        intro heq
        have := congrArg Prod.snd (List.cons.inj heq).1
        simp only at this
        omega
      | some b =>
        have hpool : isPool p = false := by simp [isPool, hbumper]
        have hpool' : ∀ len : ℕ, isPool (p.1, len) = false := fun len => by simp [isPool, hbumper]
        refine iff_of_true ?_ ?_
        · rw [List.filter_cons_of_neg (by simp [hpool']), List.filter_cons_of_neg (by simp [hpool])]
        · rintro ⟨q, hq, hnone, -⟩
          obtain rfl := Option.some.inj hq
          rw [hbumper] at hnone
          cases hnone

end Landing

end EtvStation.Bumper
