import EtvStation.Bumper.Filled

/-! What a fitted timeline airs. Its items tile the slot, and none plays past the end of its file;
a clip is to stay inside the slice it names. -/
namespace EtvStation.Bumper

variable {β : Type}

def FillEnv.segmentItems (env : FillEnv β) (start : ℤ) (e : ResolvedSegment × ℕ) :
    List (PlayoutItem β) :=
  (env.segmentSpans s!"{env.idPrefix}{env.channel}:{start / MILLISECOND}:{e.2}" e.1
      (start + e.1.startMs * MILLISECOND)).map fun span =>
    { id := span.id, start := span.start, finish := span.finish, source := some span.source,
      pending := pendingOf e.1.segment, segment := some e.1.segment.name, rest := env.dress e.1 }

/-- How much of a file is played by an item that is only cut at the file's end. -/
def playedMs (lenMs : String → Option ℕ) (path : String) (inMs durationMs : ℕ) : ℕ :=
  match lenMs path with
  | some len => min (len - inMs) durationMs
  | none => durationMs

/-- How much of a looping clip one play covers: its slice, up to the file's end. -/
def loopWindow (lenMs : String → Option ℕ) (path : String) (inMs outMs : ℕ) : ℕ :=
  min (outMs - inMs) ((lenMs path).elim (outMs - inMs) (· - inMs))

/-- A clip stays inside its slice: a looping one repeats it, another plays once and is followed
by black. -/
structure ClipPlays (lenMs : String → Option ℕ) (path : String) (inMs outMs : ℕ) (loop : Bool)
    (sources : List PlayoutItemSource) : Prop where
  inside : ∀ a ∈ sources, a = .lavfi "color=c=black" ∨
    ∃ o ≤ outMs, a = .local_ path (some inMs) (some o)
  repeats : loop = true → ∀ a ∈ sources.dropLast,
    a = .local_ path (some inMs) (some (inMs + loopWindow lenMs path inMs outMs))
  padded : loop = false → ∀ a ∈ sources.tail, a = .lavfi "color=c=black"

/-- The items of a timeline from `start` are right. -/
structure FillEnv.Emitted (env : FillEnv β) (segments : List ResolvedSegment) (start : ℤ) :
    Prop where
  covers : Covers start (start + (segments.map (·.durationMs)).sum * MILLISECOND)
    (env.emitTimeline segments start)
  spans : ∀ a ∈ env.emitTimeline segments start, ∀ file lo hi,
    a.source = some (.local_ file lo hi) → ∃ i o : ℕ, lo = some i ∧ hi = some o ∧
      a.finish - a.start = (o - i) * MILLISECOND
  within : ∀ a ∈ env.emitTimeline segments start, ∀ file lo hi len,
    a.source = some (.local_ file lo hi) → env.lenMs file = some len →
      ∃ o, hi = some o ∧ o ≤ len
  clips : ∀ e ∈ segments.zipIdx, ∀ path inMs outMs, e.1.segment.source = .clip path inMs outMs →
    ClipPlays env.lenMs path inMs outMs e.1.segment.loop
      ((env.segmentItems start e).filterMap (·.source))

/-- A clip that fits its slot: it repeats, or what its file has of the slot is not longer than the
slice. -/
def ClipFits (lenMs : String → Option ℕ) (seg : ResolvedSegment) : Prop :=
  ∀ path inMs outMs, seg.segment.source = .clip path inMs outMs →
    (seg.segment.loop = true ∧ inMs < outMs) ∨
      playedMs lenMs path inMs seg.durationMs ≤ outMs - inMs

theorem emitTimeline_eq (env : FillEnv β) (segments : List ResolvedSegment) (start : ℤ) :
    env.emitTimeline segments start = segments.zipIdx.flatMap (env.segmentItems start) := rfl

/-- Each span plays from the in point, as long as it lasts and not past the file's end. -/
structure PlaysFrom (lenMs : String → Option ℕ) (path : String) (inMs : ℕ) (s : Span) : Prop where
  source : (∃ o, s.source = .local_ path (some inMs) (some o) ∧
      s.finish - s.start = (o - inMs) * MILLISECOND ∧ ∀ len, lenMs path = some len → o ≤ len) ∨
    s.source = .lavfi "color=c=black"

theorem pushLocalPadded_eq (lenMs : String → Option ℕ) (id path : String) (inMs : ℕ) (start : ℤ)
    (durationMs : ℕ) : pushLocalPadded lenMs id path inMs start durationMs =
      let fileMs := playedMs lenMs path inMs durationMs
      (if 0 < fileMs then [⟨id, start, start + fileMs * MILLISECOND,
        .local_ path (some inMs) (some (inMs + fileMs))⟩] else []) ++
      if fileMs < durationMs then
        [⟨if fileMs = 0 then id else id ++ "#pad",
          if 0 < fileMs then start + fileMs * MILLISECOND else start,
          start + durationMs * MILLISECOND, .lavfi "color=c=black"⟩] else [] := rfl

theorem playedMs_le {lenMs : String → Option ℕ} {path : String} {inMs durationMs len : ℕ}
    (hlen : lenMs path = some len) (hpos : 0 < playedMs lenMs path inMs durationMs) :
    inMs + playedMs lenMs path inMs durationMs ≤ len := by
  simp only [playedMs, hlen] at hpos ⊢
  omega

theorem pushLocalPadded_plays (lenMs : String → Option ℕ) (id path : String) (inMs : ℕ)
    (start : ℤ) (durationMs : ℕ) : ∀ s ∈ pushLocalPadded lenMs id path inMs start durationMs,
      PlaysFrom lenMs path inMs s := by
  intro s hs
  rw [pushLocalPadded_eq] at hs
  dsimp only at hs
  rcases List.mem_append.mp hs with hs | hs
  · by_cases hplays : 0 < playedMs lenMs path inMs durationMs
    · rw [if_pos hplays] at hs
      obtain rfl := List.mem_singleton.mp hs
      refine ⟨Or.inl ⟨_, rfl, ?_, fun len hlen => playedMs_le hlen hplays⟩⟩
      push_cast
      ring
    · rw [if_neg hplays] at hs
      exact absurd hs List.not_mem_nil
  · by_cases hpad : playedMs lenMs path inMs durationMs < durationMs
    · rw [if_pos hpad] at hs
      obtain rfl := List.mem_singleton.mp hs
      exact ⟨Or.inr rfl⟩
    · rw [if_neg hpad] at hs
      exact absurd hs List.not_mem_nil

/-- Each part plays the file from the in point, for its own length. -/
theorem pushParts_part (id path : String) (inMs n : ℕ) (start : ℤ) (lens : List ℕ) :
    ∀ s ∈ pushParts id path inMs n start lens, ∃ part ∈ lens,
      s.source = .local_ path (some inMs) (some (inMs + part)) ∧
        s.finish - s.start = part * MILLISECOND := by
  induction lens generalizing n start with
  | nil => simp [pushParts]
  | cons part lens ih =>
    intro s hs
    rcases List.mem_cons.mp hs with rfl | hs
    · exact ⟨part, List.mem_cons_self, rfl, add_sub_cancel_left _ _⟩
    · obtain ⟨part', hmem, hpart⟩ := ih _ _ s hs
      exact ⟨part', List.mem_cons_of_mem _ hmem, hpart⟩

theorem pushParts_dropLast (id path : String) (inMs n : ℕ) (start : ℤ) (lens : List ℕ) :
    (pushParts id path inMs n start lens).dropLast =
      pushParts id path inMs n start lens.dropLast := by
  induction lens generalizing n start with
  | nil => rfl
  | cons part lens ih =>
    cases lens with
    | nil => rfl
    | cons next lens =>
      have hrest := ih (n + 1) (start + part * MILLISECOND)
      rw [pushParts, List.dropLast_cons_of_ne_nil (by simp [pushParts]), hrest]
      rfl

/-- The parts of a repeated window: whole ones, and a shorter one at the end. -/
def repeatParts (windowMs durationMs : ℕ) : List ℕ :=
  List.replicate (durationMs / windowMs) windowMs ++
    if 0 < durationMs % windowMs then [durationMs % windowMs] else []

theorem repeatParts_le {windowMs durationMs : ℕ} (hpos : 0 < windowMs) :
    ∀ part ∈ repeatParts windowMs durationMs, part ≤ windowMs := by
  intro part hpart
  rcases List.mem_append.mp hpart with hpart | hpart
  · exact (List.eq_of_mem_replicate hpart).le
  · split_ifs at hpart with htail
    · obtain rfl := List.mem_singleton.mp hpart
      exact (Nat.mod_lt _ hpos).le
    · exact absurd hpart List.not_mem_nil

theorem repeatParts_dropLast {windowMs durationMs : ℕ} :
    ∀ part ∈ (repeatParts windowMs durationMs).dropLast, part = windowMs := by
  intro part hpart
  unfold repeatParts at hpart
  split_ifs at hpart
  · rw [List.dropLast_concat] at hpart
    exact List.eq_of_mem_replicate hpart
  · rw [List.append_nil] at hpart
    exact List.eq_of_mem_replicate (List.mem_of_mem_dropLast hpart)

/-- A file on repeat plays a window no longer than what it has past the in point. -/
theorem pushLocalSpan_plays {lenMs : String → Option ℕ} {path : String} {inMs windowMs : ℕ}
    {loop : Bool} (hwindow : loop = true → ∀ len, lenMs path = some len → windowMs ≤ len - inMs)
    (id : String) (start : ℤ) (durationMs : ℕ) :
    ∀ s ∈ pushLocalSpan lenMs id path inMs windowMs loop start durationMs,
      PlaysFrom lenMs path inMs s := by
  intro s hs
  unfold pushLocalSpan at hs
  split_ifs at hs with hloop
  · simp only [Bool.and_eq_true, decide_eq_true_eq] at hloop
    obtain ⟨part, hmem, hsource, hspan⟩ := pushParts_part id path inMs 0 start
      (repeatParts windowMs durationMs) s hs
    have hpart := repeatParts_le hloop.1.2 part hmem
    refine ⟨Or.inl ⟨inMs + part, hsource, ?_, fun len hlen => ?_⟩⟩
    · rw [hspan]
      push_cast
      ring
    · have := hwindow hloop.1.1 len hlen
      omega
  · exact pushLocalPadded_plays _ _ _ _ _ _ s hs

/-- The sources of a padded file: the file, then black. -/
theorem pushLocalPadded_sources (lenMs : String → Option ℕ) (id path : String) (inMs : ℕ)
    (start : ℤ) (durationMs : ℕ) :
    (pushLocalPadded lenMs id path inMs start durationMs).map (·.source) =
      let fileMs := playedMs lenMs path inMs durationMs
      (if 0 < fileMs then [.local_ path (some inMs) (some (inMs + fileMs))] else []) ++
        if fileMs < durationMs then [.lavfi "color=c=black"] else [] := by
  rw [pushLocalPadded_eq]
  dsimp only
  split_ifs <;> rfl

section Clip

variable {lenMs : String → Option ℕ} {path : String} {inMs outMs durationMs : ℕ}

theorem clipPlays_padded {loop : Bool} (id : String) (start : ℤ)
    (hfits : playedMs lenMs path inMs durationMs ≤ outMs - inMs)
    (hloop : loop = true → playedMs lenMs path inMs durationMs = 0 ∨
      durationMs ≤ playedMs lenMs path inMs durationMs) :
    ClipPlays lenMs path inMs outMs loop
      ((pushLocalPadded lenMs id path inMs start durationMs).map (·.source)) := by
  rw [pushLocalPadded_sources]
  set fileMs := playedMs lenMs path inMs durationMs
  dsimp only
  constructor
  · intro a ha
    rcases List.mem_append.mp ha with ha | ha
    · split_ifs at ha with hpos
      · obtain rfl := List.mem_singleton.mp ha
        exact Or.inr ⟨inMs + fileMs, by omega, rfl⟩
      · exact absurd ha List.not_mem_nil
    · split_ifs at ha
      · exact Or.inl (List.mem_singleton.mp ha)
      · exact absurd ha List.not_mem_nil
  · intro htrue a ha
    rcases hloop htrue with hzero | hfull
    · rw [if_neg (by omega)] at ha
      split_ifs at ha <;> exact absurd ha (by simp)
    · rw [if_neg (show ¬ fileMs < durationMs by omega)] at ha
      split_ifs at ha <;> exact absurd ha (by simp)
  · intro _ a ha
    have hmem : ∀ x ∈ (if fileMs < durationMs then [PlayoutItemSource.lavfi "color=c=black"]
        else []), x = .lavfi "color=c=black" := by
      intro x hx
      split_ifs at hx
      · exact List.mem_singleton.mp hx
      · exact absurd hx List.not_mem_nil
    by_cases hpos : 0 < fileMs
    · rw [if_pos hpos] at ha
      exact hmem a ha
    · rw [if_neg hpos, List.nil_append] at ha
      exact hmem a (List.mem_of_mem_tail ha)

/-- What is inside the slice of a padded file is not longer than it. -/
theorem played_of_inside {loop : Bool} {id : String} {start : ℤ}
    (h : ClipPlays lenMs path inMs outMs loop
      ((pushLocalPadded lenMs id path inMs start durationMs).map (·.source))) :
    playedMs lenMs path inMs durationMs ≤ outMs - inMs := by
  rw [pushLocalPadded_sources] at h
  dsimp only at h
  by_cases hpos : 0 < playedMs lenMs path inMs durationMs
  · rw [if_pos hpos] at h
    rcases h.inside _ (List.mem_append_left _ List.mem_cons_self) with hblack | ⟨o, hle, heq⟩
    · cases hblack
    · simp only [PlayoutItemSource.local_.injEq, Option.some.injEq, true_and] at heq
      omega
  · omega

/-- A clip stays inside its slice exactly when it repeats, or when what it plays of its file is no
longer than the slice. -/
theorem clipPlays_iff (id : String) (start : ℤ) (loop : Bool) :
    let window := if loop then loopWindow lenMs path inMs outMs else outMs - inMs
    ClipPlays lenMs path inMs outMs loop
        ((pushLocalSpan lenMs id path inMs window loop start durationMs).map (·.source)) ↔
      (loop = true ∧ inMs < outMs) ∨ playedMs lenMs path inMs durationMs ≤ outMs - inMs := by
  dsimp only
  have hplayed : playedMs lenMs path inMs durationMs ≤ durationMs := by
    unfold playedMs
    split <;> omega
  unfold pushLocalSpan
  split_ifs with hloops hrepeat hrepeat
  · -- The window repeats.
    simp only [Bool.and_eq_true, decide_eq_true_eq] at hrepeat
    obtain ⟨⟨-, hpos⟩, -⟩ := hrepeat
    have hout : loopWindow lenMs path inMs outMs ≤ outMs - inMs := Nat.min_le_left _ _
    refine iff_of_true ?_ (Or.inl ⟨hloops, by omega⟩)
    constructor
    · intro a ha
      obtain ⟨s, hs, rfl⟩ := List.mem_map.mp ha
      obtain ⟨part, hmem, hsource, -⟩ := pushParts_part id path inMs 0 start
        (repeatParts (loopWindow lenMs path inMs outMs) durationMs) s hs
      have hpart := repeatParts_le hpos part hmem
      exact Or.inr ⟨inMs + part, by omega, hsource⟩
    · intro _ a ha
      rw [← List.map_dropLast, pushParts_dropLast] at ha
      obtain ⟨s, hs, rfl⟩ := List.mem_map.mp ha
      obtain ⟨part, hmem, hsource, -⟩ := pushParts_part id path inMs 0 start _ s hs
      rw [hsource, repeatParts_dropLast part hmem]
    · intro hfalse
      rw [hloops] at hfalse
      cases hfalse
  · simp only [hloops, Bool.true_and, Bool.and_eq_true, decide_eq_true_eq, not_and, not_lt]
      at hrepeat
    have hcover : inMs < outMs → playedMs lenMs path inMs durationMs ≤ outMs - inMs ∧
        (playedMs lenMs path inMs durationMs = 0 ∨
          durationMs ≤ playedMs lenMs path inMs durationMs) := by
      intro hslice
      unfold loopWindow at hrepeat
      unfold playedMs
      cases hlen : lenMs path with
      | none =>
        simp only [hlen, Option.elim_none, min_self] at hrepeat
        dsimp only
        omega
      | some len =>
        simp only [hlen, Option.elim_some] at hrepeat
        dsimp only
        omega
    constructor
    · intro hplays
      by_cases hslice : inMs < outMs
      · exact Or.inl ⟨hloops, hslice⟩
      · exact Or.inr (played_of_inside hplays)
    · rintro (⟨-, hslice⟩ | hfits)
      · exact clipPlays_padded id start (hcover hslice).1 fun _ => (hcover hslice).2
      · by_cases hslice : inMs < outMs
        · exact clipPlays_padded id start hfits fun _ => (hcover hslice).2
        · exact clipPlays_padded id start hfits fun _ => Or.inl (by omega)
  · simp [hloops] at hrepeat
  · constructor
    · intro hplays
      exact Or.inr (played_of_inside hplays)
    · rintro (⟨htrue, -⟩ | hfits)
      · exact absurd htrue hloops
      · exact clipPlays_padded id start hfits fun htrue => absurd htrue hloops

end Clip

/-- Every span of a segment that plays a file plays it for as long as it lasts, up to its end. -/
theorem segmentSpans_plays (env : FillEnv β) (idBase : String) (seg : ResolvedSegment) (begin : ℤ) :
    ∀ s ∈ env.segmentSpans idBase seg begin, ∀ file lo hi, s.source = .local_ file lo hi →
      ∃ i o : ℕ, lo = some i ∧ hi = some o ∧ s.finish - s.start = (o - i) * MILLISECOND ∧
        ∀ len, env.lenMs file = some len → o ≤ len := by
  have hplays : ∀ {path : String} {inMs : ℕ} {s : Span}, PlaysFrom env.lenMs path inMs s →
      ∀ file lo hi, s.source = .local_ file lo hi → ∃ i o : ℕ, lo = some i ∧ hi = some o ∧
        s.finish - s.start = (o - i) * MILLISECOND ∧ ∀ len, env.lenMs file = some len → o ≤ len := by
    intro path inMs s hs file lo hi hlocal
    rcases hs.source with ⟨o, hsource, hlength, hfile⟩ | hblack
    · rw [hsource] at hlocal
      cases hlocal
      exact ⟨inMs, o, rfl, rfl, hlength, hfile⟩
    · rw [hblack] at hlocal
      cases hlocal
  have hone : ∀ {source : PlayoutItemSource} {s : Span},
      s ∈ [(⟨idBase, begin, begin + seg.durationMs * MILLISECOND, source⟩ : Span)] →
        s.source = source := by
    intro source s hs
    rw [List.mem_singleton.mp hs]
  intro s hs file lo hi hlocal
  unfold FillEnv.segmentSpans at hs
  cases hsource : seg.segment.source with
  | clip path inMs outMs =>
    rw [hsource] at hs
    refine hplays (pushLocalSpan_plays (fun hloop len hlen => ?_) _ _ _ s hs) file lo hi hlocal
    simp [hloop, hlen]
  | render path =>
    rw [hsource] at hs
    exact hplays (pushLocalPadded_plays _ _ _ _ _ _ s hs) file lo hi hlocal
  | pending path standIn =>
    rw [hsource] at hs
    exact hplays (pushLocalPadded_plays _ _ _ _ _ _ s hs) file lo hi hlocal
  | http url inMs outMs =>
    rw [hsource] at hs
    have := (hone hs).symm.trans hlocal
    cases this
  | lavfi params =>
    rw [hsource] at hs
    have := (hone hs).symm.trans hlocal
    cases this
  | still imagePath =>
    rw [hsource] at hs
    have := (hone hs).symm.trans hlocal
    cases this

theorem segmentItems_cover (env : FillEnv β) (start : ℤ) {segments : List ResolvedSegment}
    (n : ℕ) {s f : ℕ} (h : PlacedFrom s f segments) :
    Covers (start + s * MILLISECOND) (start + f * MILLISECOND)
      ((segments.zipIdx n).flatMap (env.segmentItems start)) := by
  induction segments generalizing n s with
  | nil =>
    obtain rfl : s = f := h
    rfl
  | cons seg segments ih =>
    obtain ⟨hstart, -, hrest⟩ := h
    rw [List.zipIdx_cons, List.flatMap_cons, covers_append]
    refine ⟨start + (s + seg.durationMs : ℕ) * MILLISECOND, ?_, ih (n + 1) hrest⟩
    have hone := segmentSpans_covers env s!"{env.idPrefix}{env.channel}:{start / MILLISECOND}:{n}"
      seg (start + seg.startMs * MILLISECOND)
    rw [hstart] at hone
    unfold FillEnv.segmentItems
    rw [covers_map_spans (fun _ => rfl) (fun _ => rfl), hstart]
    have hend : start + s * MILLISECOND + seg.durationMs * MILLISECOND =
        start + (s + seg.durationMs : ℕ) * MILLISECOND := by
      push_cast
      ring
    rw [← hend]
    exact hone

theorem placedFrom_sum {s f : ℕ} {segments : List ResolvedSegment} (h : PlacedFrom s f segments) :
    s + (segments.map (·.durationMs)).sum = f := by
  induction segments generalizing s with
  | nil => exact h
  | cons seg segments ih =>
    have := ih h.2.2
    rw [List.map_cons, List.sum_cons]
    omega

theorem segmentItems_sources (env : FillEnv β) (start : ℤ) (e : ResolvedSegment × ℕ) :
    (env.segmentItems start e).filterMap (·.source) =
      (env.segmentSpans s!"{env.idPrefix}{env.channel}:{start / MILLISECOND}:{e.2}" e.1
        (start + e.1.startMs * MILLISECOND)).map (·.source) := by
  unfold FillEnv.segmentItems
  rw [List.filterMap_map]
  exact congrFun (@List.filterMap_eq_map Span _ fun span => span.source) _

/-- The items of a fitted timeline are right exactly when every clip fits its slot. -/
theorem emitTimeline_emitted_iff (env : FillEnv β) {segments : List ResolvedSegment} {totalMs : ℕ}
    (h : PlacedFrom 0 totalMs segments) (start : ℤ) :
    env.Emitted segments start ↔ ∀ seg ∈ segments, ClipFits env.lenMs seg := by
  have hclip : ∀ e : ResolvedSegment × ℕ, ∀ path inMs outMs,
      e.1.segment.source = .clip path inMs outMs →
      (ClipPlays env.lenMs path inMs outMs e.1.segment.loop
        ((env.segmentItems start e).filterMap (·.source)) ↔
      (e.1.segment.loop = true ∧ inMs < outMs) ∨
        playedMs env.lenMs path inMs e.1.durationMs ≤ outMs - inMs) := by
    intro e path inMs outMs hsource
    rw [segmentItems_sources, FillEnv.segmentSpans, hsource]
    exact clipPlays_iff _ _ _
  have hitem : ∀ a ∈ env.emitTimeline segments start, ∀ file lo hi,
      a.source = some (.local_ file lo hi) → ∃ i o : ℕ, lo = some i ∧ hi = some o ∧
        a.finish - a.start = (o - i) * MILLISECOND ∧
        ∀ len, env.lenMs file = some len → o ≤ len := by
    intro a ha file lo hi hlocal
    rw [emitTimeline_eq] at ha
    obtain ⟨e, -, hitem⟩ := List.mem_flatMap.mp ha
    obtain ⟨span, hspan, rfl⟩ := List.mem_map.mp hitem
    exact segmentSpans_plays env _ _ _ span hspan file lo hi (Option.some.inj hlocal)
  constructor
  · intro hemitted seg hseg path inMs outMs hsource
    obtain ⟨n, hn⟩ := List.mem_iff_getElem?.mp hseg
    have hmem : (seg, n) ∈ segments.zipIdx := List.mem_zipIdx_iff_getElem?.mpr hn
    exact (hclip (seg, n) path inMs outMs hsource).mp (hemitted.clips _ hmem path inMs outMs hsource)
  · intro hfits
    constructor
    · have hcover := segmentItems_cover env start 0 h
      have hsum := placedFrom_sum h
      rw [Nat.zero_add] at hsum
      rw [emitTimeline_eq, hsum]
      simpa using hcover
    · intro a ha file lo hi hlocal
      obtain ⟨i, o, hlo, hhi, hlength, -⟩ := hitem a ha file lo hi hlocal
      exact ⟨i, o, hlo, hhi, hlength⟩
    · intro a ha file lo hi len hlocal hlen
      obtain ⟨i, o, -, hhi, -, hfile⟩ := hitem a ha file lo hi hlocal
      exact ⟨o, hhi, hfile len hlen⟩
    · intro e he path inMs outMs hsource
      exact (hclip e path inMs outMs hsource).mpr
        (hfits e.1 (List.fst_mem_of_mem_zipIdx he) path inMs outMs hsource)

def minuteEnv : FillEnv Unit := { shortsEnv 0 0 with lenMs := fun _ => some 60000 }

/-- A slice of two seconds, fitted to a slot. -/
def sliceSegment (loop : Bool) (durationMs : ℕ) : ResolvedSegment :=
  ⟨⟨"clip", .clip "/m/a.mkv" 1000 3000, .fixed durationMs, loop, false, 0⟩, 0, durationMs, false⟩

/-- On repeat the slice fills a slot of five seconds. -/
theorem emitTimeline_emitted_slice : minuteEnv.Emitted [sliceSegment true 5000] 0 := by
  have hplaced : PlacedFrom 0 5000 [sliceSegment true 5000] := ⟨rfl, by decide, rfl⟩
  refine (emitTimeline_emitted_iff minuteEnv hplaced 0).mpr fun seg hseg => ?_
  obtain rfl := List.mem_singleton.mp hseg
  intro path inMs outMs hsource
  cases hsource
  exact Or.inl ⟨rfl, by decide⟩

/-- Not on repeat it plays on for three seconds past its out point. -/
theorem slice_overruns :
    (minuteEnv.emitTimeline [sliceSegment false 5000] 0).map (·.source) =
        [some (.local_ "/m/a.mkv" (some 1000) (some 6000))] ∧
      ¬ minuteEnv.Emitted [sliceSegment false 5000] 0 := by
  refine ⟨by decide, fun hemitted => ?_⟩
  have hplays := hemitted.clips (sliceSegment false 5000, 0) List.mem_cons_self _ _ _ rfl
  rcases hplays.inside (.local_ "/m/a.mkv" (some 1000) (some 6000)) (by decide) with
    hblack | ⟨o, hle, heq⟩
  · cases hblack
  · cases heq
    omega

end EtvStation.Bumper
